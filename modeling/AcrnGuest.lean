import AcrnGuest.Loop
import AcrnGuest.LinkedList
import AcrnGuest.RadixTable
import AcrnGuest.RadixBudget
import AcrnGuest.Memory
import AcrnGuest.AllocPage
import AcrnGuest.PackedStruct
import AcrnGuest.AllocPageScan
import AcrnGuest.AllocPageRuns
import AcrnGuest.PhysAlloc
import AcrnGuest.PhysAllocLog
import AcrnGuest.TableWalk
import AcrnGuest.Paging
import AcrnGuest.PagingInstall
import AcrnGuest.PagingBlocks
import AcrnGuest.SetupMmu
import AcrnGuest.Ept
import AcrnGuest.EptInstall
import AcrnGuest.EptHistory
import AcrnGuest.EptRanges
import AcrnGuest.VmxEntry
import AcrnGuest.ByteBitmap
import AcrnGuest.VmxBitmaps
import AcrnGuest.Vmalloc
import AcrnGuest.PagingLookups
import AcrnGuest.PagingWalk
import AcrnGuest.PageControl
import AcrnGuest.MemoryType
import AcrnGuest.MemoryTypeRuns
import AcrnGuest.VmallocExhaustion
import AcrnGuest.Ioremap
import AcrnGuest.VmallocRuns
import AcrnGuest.Alloc
import AcrnGuest.AllocBackends
import AcrnGuest.AllocRoom
import AcrnGuest.SmpBoot
import AcrnGuest.SmpRecords
import AcrnGuest.Hypercall
import AcrnGuest.SmpCall
import AcrnGuest.SmpCallMail
import AcrnGuest.SmpCallRuns
import AcrnGuest.Checksum
import AcrnGuest.Crc32
import AcrnGuest.FeedbackRegister
import AcrnGuest.CrcBitwise
import AcrnGuest.MemIsolation
import AcrnGuest.MemIsolationCheck
import AcrnGuest.Printf
import AcrnGuest.Delimited
import AcrnGuest.CStrings
import AcrnGuest.StoreBuffer
import AcrnGuest.StoreBufferLock
import AcrnGuest.ReportLock
import AcrnGuest.StackCode
import AcrnGuest.ExceptionEntry
import AcrnGuest.ExceptionJump
import AcrnGuest.InterruptEntry
import AcrnGuest.VmxRegisters
import AcrnGuest.ExternalInterrupt
import AcrnGuest.IdtEntries
import AcrnGuest.StringCopies
import AcrnGuest.CaseId
import AcrnGuest.PrintfNumbers
import AcrnGuest.PrintfBuffers
import AcrnGuest.Code16Lib
import AcrnGuest.Getenv
import AcrnGuest.SimpleGlob
import AcrnGuest.Strstr
import AcrnGuest.TextBuffer
import AcrnGuest.SetupEnv
import AcrnGuest.SetupEnvRuns
import AcrnGuest.SetupLibcflat
import AcrnGuest.Words
import AcrnGuest.SetupArgs
import AcrnGuest.Report
import AcrnGuest.RuntimeExceptions
import AcrnGuest.V8086Monitor
import AcrnGuest.HostBridge
import AcrnGuest.PciConfig
import AcrnGuest.PciBar
import AcrnGuest.PciEnumerate
import AcrnGuest.PointerChase
import AcrnGuest.PciMsi
import AcrnGuest.PciMsiCapability
import AcrnGuest.PciMsiRuns
import AcrnGuest.ByteCopy
import AcrnGuest.BzImage
import AcrnGuest.BzImageStub
import AcrnGuest.BzImageBoot
import AcrnGuest.BzImageEntry
import AcrnGuest.BootArgs
import AcrnGuest.IntelIommu
import AcrnGuest.IntelIommuTables
import AcrnGuest.IntelIommuMap
import AcrnGuest.IntelIommuHistory
import AcrnGuest.GdtEntries
