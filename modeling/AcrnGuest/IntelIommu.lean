import AcrnGuest.AllocPage
import AcrnGuest.PackedStruct

/-!
# Interrupt remapping entries (`lib/x86/intel-iommu.c`)

The IOMMU reads its root table and its interrupt remapping table from memory, at the
addresses in two of its registers. `vtd_setup_ir_table` allocates one page for the
remapping table and tells the IOMMU that it has 65536 entries of 16 bytes.
`vtd_setup_msi` and `vtd_setup_ioapic_irq` write the entry with the next index, which
is only checked against the announced size. The page holds the entries 0 to 255, so
the 256th call writes behind it.
-/

namespace AcrnGuest

/-! ### State -/

/-- Memory, the table registers of the IOMMU and the counter of
    `vtd_intr_index_alloc`. -/
structure Iommu where
  machine : Machine
  rtaddr : Word
  irta : Word
  indexCtr : Nat

def VTD_RTA_MASK : Word := PAGE_MASK
def VTD_IRTA_MASK : Word := PAGE_MASK

def vtdRootTable (v : Iommu) : Word := v.rtaddr &&& VTD_RTA_MASK
def vtdIrTable (v : Iommu) : Word := v.irta &&& VTD_IRTA_MASK

def vtdSetupRootTable (v : Iommu) : Iommu :=
  let taken := allocPage v.machine
  let root := taken.1
  { v with
    machine := { taken.2 with mem := memset taken.2.mem root 0#8 PAGE_SIZE }
    rtaddr := virtToPhys root }

def vtdSetupIrTable (v : Iommu) : Iommu :=
  let taken := allocPage v.machine
  let root := taken.1
  { v with
    machine := { taken.2 with mem := memset taken.2.mem root 0#8 PAGE_SIZE }
    -- 0xf stands for the table size, 2 ^ (0xf + 1) entries
    irta := virtToPhys root ||| 0xf#64 }

/-! ### Entries of 16 bytes -/

def ENTRY_SIZE : Word := 16#64

/-- Pointer arithmetic on such entries. -/
def tableEntry (table index : Word) : Word := table + ENTRY_SIZE * index

def InEntry (entry a : Word) : Prop := a - entry < ENTRY_SIZE

instance (entry a : Word) : Decidable (InEntry entry a) :=
  inferInstanceAs (Decidable (a - entry < ENTRY_SIZE))

/-- The fields of an entry lie in its two words. -/
theorem inEntry_addr (entry : Word) (f : BitField) (hquad : f.quad < 2) :
    InEntry entry (f.addr entry) := by
  have hq : f.quad = 0 ∨ f.quad = 1 := by omega
  have hsub : f.addr entry - entry = 8#64 * BitVec.ofNat 64 f.quad := by
    rw [BitField.addr, BitVec.add_comm, BitVec.add_sub_cancel]
  rw [InEntry, hsub]
  rcases hq with hq | hq
  · rw [hq]
    decide
  · rw [hq]
    decide

theorem set_of_not_inEntry {entry a : Word} (h : ¬ InEntry entry a) (f : BitField)
    (hquad : f.quad < 2) (m : Mem) (v : Word) : f.set m entry v a = m a := by
  refine f.set_of_ne m v ?_
  rintro rfl
  exact h (inEntry_addr entry f hquad)

theorem inEntry_self (entry : Word) : InEntry entry entry := by
  rw [InEntry, BitVec.sub_self]
  decide

theorem toNat_ENTRY_SIZE_mul {i : Word} (hi : i.toNat < 2 ^ 60) :
    (ENTRY_SIZE * i).toNat = 16 * i.toNat := by
  rw [BitVec.toNat_mul, ENTRY_SIZE]
  change 16 * i.toNat % 2 ^ 64 = 16 * i.toNat
  omega

theorem toNat_sub_of_inEntry {table i a : Word} (hi : i.toNat < 2 ^ 59)
    (ha : InEntry (tableEntry table i) a) :
    16 * i.toNat ≤ (a - table).toNat ∧ (a - table).toNat < 16 * i.toNat + 16 := by
  have hoffset := toNat_ENTRY_SIZE_mul (by omega : i.toNat < 2 ^ 60)
  have hsplit : a - table = (a - tableEntry table i) + ENTRY_SIZE * i := by
    rw [tableEntry]
    generalize ENTRY_SIZE * i = offset
    bv_omega
  rw [InEntry, BitVec.lt_def] at ha
  change (a - tableEntry table i).toNat < 16 at ha
  rw [hsplit, BitVec.toNat_add, hoffset]
  omega

theorem pageOf_of_inEntry {table i a : Word} (htable : IsPage table) (hi : i.toNat < 256)
    (ha : InEntry (tableEntry table i) a) : pageOf a = table := by
  refine (sub_lt_PAGE_SIZE_iff htable).mp ?_
  have hoffset := toNat_sub_of_inEntry (by omega) ha
  rw [BitVec.lt_def, toNat_PAGE_SIZE]
  omega

theorem eq_of_inEntry {table i j a : Word} (hi : i.toNat < 2 ^ 59) (hj : j.toNat < 2 ^ 59)
    (hai : InEntry (tableEntry table i) a) (haj : InEntry (tableEntry table j) a) : i = j := by
  have hoffset := toNat_sub_of_inEntry hi hai
  have hoffset' := toNat_sub_of_inEntry hj haj
  apply BitVec.eq_of_toNat_eq
  omega

/-! ### Root and context entries -/

namespace VtdRootEntry

def present : BitField := { quad := 0, pos := 0, width := 1 }
def contextTableP : BitField := { quad := 0, pos := 12, width := 52 }

end VtdRootEntry

namespace VtdContextEntry

def present : BitField := { quad := 0, pos := 0, width := 1 }
def disableFaultReport : BitField := { quad := 0, pos := 1, width := 1 }
def transType : BitField := { quad := 0, pos := 2, width := 2 }
def slptptr : BitField := { quad := 0, pos := 12, width := 52 }
def addrWidth : BitField := { quad := 1, pos := 0, width := 3 }
def domainId : BitField := { quad := 1, pos := 8, width := 16 }

end VtdContextEntry

/-! ### Remapping entries -/

inductive TriggerMode where
  | TRIGGER_EDGE
  | TRIGGER_LEVEL
deriving DecidableEq, Repr

def TriggerMode.toWord : TriggerMode → Word
  | .TRIGGER_EDGE => 0#64
  | .TRIGGER_LEVEL => 1#64

/-- What the IOMMU code reads of a PCI device. -/
structure IommuDev where
  bdf : BitVec 16
  intxLine : BitVec 8
deriving DecidableEq, Repr

namespace VtdIrte

def present : BitField := { quad := 0, pos := 0, width := 1 }
def faultDisable : BitField := { quad := 0, pos := 1, width := 1 }
def destMode : BitField := { quad := 0, pos := 2, width := 1 }
def triggerMode : BitField := { quad := 0, pos := 4, width := 1 }
def deliveryMode : BitField := { quad := 0, pos := 5, width := 3 }
def irteMode : BitField := { quad := 0, pos := 15, width := 1 }
def vector : BitField := { quad := 0, pos := 16, width := 8 }
def destId : BitField := { quad := 0, pos := 32, width := 32 }
def sourceId : BitField := { quad := 1, pos := 0, width := 16 }
def sidQ : BitField := { quad := 1, pos := 16, width := 2 }
def sidVtype : BitField := { quad := 1, pos := 18, width := 2 }

end VtdIrte

def vtdSetupIrte (m : Mem) (dev : IommuDev) (irte : Word) (vector destId : BitVec 32)
    (trigger : TriggerMode) : Mem :=
  let m := memset m irte 0#8 ENTRY_SIZE
  let m := VtdIrte.faultDisable.set m irte 1#64
  let m := VtdIrte.destMode.set m irte 0#64
  let m := VtdIrte.triggerMode.set m irte trigger.toWord
  let m := VtdIrte.deliveryMode.set m irte 0#64
  let m := VtdIrte.irteMode.set m irte 0#64
  let m := VtdIrte.vector.set m irte (vector.setWidth 64)
  let m := VtdIrte.destId.set m irte (destId.setWidth 64)
  let m := VtdIrte.sourceId.set m irte (dev.bdf.setWidth 64)
  let m := VtdIrte.sidQ.set m irte 0#64
  let m := VtdIrte.sidVtype.set m irte 1#64
  VtdIrte.present.set m irte 1#64

/-- The next index; `none` when the assertion fails. -/
def vtdIntrIndexAlloc (v : Iommu) : Option (BitVec 16 × Iommu) :=
  if ¬ v.indexCtr < 65535 then none
  else
    let ctr := v.indexCtr + 1
    some (BitVec.ofNat 16 ctr, { v with indexCtr := ctr })

def irteAddr (irte : Word) (index : BitVec 16) : Word := tableEntry irte (index.setWidth 64)

/-! ### Interrupt messages -/

namespace VtdMsiAddr

def handle15 : BitField := { quad := 0, pos := 2, width := 1 }
def shv : BitField := { quad := 0, pos := 3, width := 1 }
def interruptFormat : BitField := { quad := 0, pos := 4, width := 1 }
def handle014 : BitField := { quad := 0, pos := 5, width := 15 }
def head : BitField := { quad := 0, pos := 20, width := 12 }

end VtdMsiAddr

namespace VtdIoapicEntry

def vector : BitField := { quad := 0, pos := 0, width := 8 }
def index15 : BitField := { quad := 0, pos := 11, width := 1 }
def triggerMode : BitField := { quad := 0, pos := 15, width := 1 }
def interruptFormat : BitField := { quad := 0, pos := 48, width := 1 }
def index014 : BitField := { quad := 0, pos := 49, width := 15 }

end VtdIoapicEntry

/-- The entry that `vtd_setup_msi` wrote and the message for `pci_setup_msi`. -/
structure MsiSetup where
  irte : Word
  msiAddr : Word
  msiData : BitVec 32

/-- The entry that `vtd_setup_ioapic_irq` wrote and what it gives to
    `ioapic_write_redir`. -/
structure IoapicSetup where
  irte : Word
  line : BitVec 8
  entry : Word

def vtdSetupMsi (v : Iommu) (dev : IommuDev) (vector destId : BitVec 32) :
    Option (MsiSetup × Iommu) :=
  let irte := physToVirt (vtdIrTable v)
  (vtdIntrIndexAlloc v).map fun (index, v) =>
    let m := vtdSetupIrte v.machine.mem dev (irteAddr irte index) vector destId .TRIGGER_EDGE
    let msiAddr := VtdMsiAddr.handle15.insert 0#64 ((index.setWidth 64 >>> 15) &&& 1#64)
    let msiAddr := VtdMsiAddr.shv.insert msiAddr 0#64
    let msiAddr := VtdMsiAddr.interruptFormat.insert msiAddr 1#64
    let msiAddr := VtdMsiAddr.handle014.insert msiAddr (index.setWidth 64 &&& 0x7fff#64)
    let msiAddr := VtdMsiAddr.head.insert msiAddr 0xfee#64
    ({ irte := irteAddr irte index, msiAddr, msiData := 0#32 },
      { v with machine := { v.machine with mem := m } })

/-- The result is `none` when an assertion fails; a missing device is `none` as well. -/
def vtdSetupIoapicIrq (v : Iommu) (dev : Option IommuDev) (vector destId : BitVec 32)
    (trigger : TriggerMode) : Option (IoapicSetup × Iommu) :=
  let irte := physToVirt (vtdIrTable v)
  (vtdIntrIndexAlloc v).bind fun (index, v) =>
    dev.map fun dev =>
      let m := vtdSetupIrte v.machine.mem dev (irteAddr irte index) vector destId trigger
      let entry := VtdIoapicEntry.vector.insert 0#64 (vector.setWidth 64)
      let entry := VtdIoapicEntry.triggerMode.insert entry trigger.toWord
      let entry := VtdIoapicEntry.index15.insert entry ((index.setWidth 64 >>> 15) &&& 1#64)
      let entry := VtdIoapicEntry.interruptFormat.insert entry 1#64
      let entry := VtdIoapicEntry.index014.insert entry (index.setWidth 64 &&& 0x7fff#64)
      ({ irte := irteAddr irte index, line := dev.intxLine, entry },
        { v with machine := { v.machine with mem := m } })

/-! ### Calls -/

inductive IntrCall where
  | setupMsi (dev : IommuDev) (vector destId : BitVec 32)
  | setupIoapicIrq (dev : Option IommuDev) (vector destId : BitVec 32) (trigger : TriggerMode)

def IntrCall.exec (v : Iommu) : IntrCall → Option (Word × Iommu)
  | setupMsi dev vector destId => (vtdSetupMsi v dev vector destId).map fun r => (r.1.irte, r.2)
  | setupIoapicIrq dev vector destId trigger =>
      (vtdSetupIoapicIrq v dev vector destId trigger).map fun r => (r.1.irte, r.2)

def execCalls : Iommu → List IntrCall → Option (List Word × Iommu)
  | v, [] => some ([], v)
  | v, c :: calls =>
      (c.exec v).bind fun r => (execCalls r.2 calls).map fun r' => (r.1 :: r'.1, r'.2)

/-! ### What a call writes -/

theorem vtdSetupIrte_of_not_inEntry {irte a : Word} (h : ¬ InEntry irte a) (m : Mem)
    (dev : IommuDev) (vector destId : BitVec 32) (trigger : TriggerMode) :
    vtdSetupIrte m dev irte vector destId trigger a = m a := by
  unfold vtdSetupIrte
  iterate 11 rw [set_of_not_inEntry h _ (by decide)]
  exact if_neg h

/-- A call takes the next index, writes the entry with that index and nothing else. -/
structure Remaps (v : Iommu) (irte : Word) (v' : Iommu) : Prop where
  passes : v.indexCtr < 65535
  entry : irte = irteAddr (vtdIrTable v) (BitVec.ofNat 16 (v.indexCtr + 1))
  counter : v'.indexCtr = v.indexCtr + 1
  table : v'.irta = v.irta
  frame : ∀ a, ¬ InEntry irte a → v'.machine.mem a = v.machine.mem a

theorem vtdIntrIndexAlloc_eq {v : Iommu} (h : v.indexCtr < 65535) :
    vtdIntrIndexAlloc v =
      some (BitVec.ofNat 16 (v.indexCtr + 1), { v with indexCtr := v.indexCtr + 1 }) :=
  if_neg (not_not.mpr h)

theorem vtdIntrIndexAlloc_some {v v' : Iommu} {index : BitVec 16}
    (h : vtdIntrIndexAlloc v = some (index, v')) :
    v.indexCtr < 65535 ∧ index = BitVec.ofNat 16 (v.indexCtr + 1) ∧ v' =
      { v with indexCtr := v.indexCtr + 1 } := by
  by_cases hlt : v.indexCtr < 65535
  · rw [vtdIntrIndexAlloc_eq hlt] at h
    obtain ⟨rfl, rfl⟩ := Prod.mk.inj (Option.some.inj h)
    exact ⟨hlt, rfl, rfl⟩
  · rw [vtdIntrIndexAlloc, if_pos hlt] at h
    cases h

theorem IntrCall.exec_some {v v' : Iommu} {irte : Word} {c : IntrCall}
    (h : c.exec v = some (irte, v')) :
    Remaps v irte v' := by
  cases c with
  | setupMsi dev vector destId =>
      obtain ⟨r, hr, heq⟩ := Option.map_eq_some_iff.mp h
      obtain ⟨⟨index, v₁⟩, halloc, rfl⟩ := Option.map_eq_some_iff.mp hr
      obtain ⟨hpasses, rfl, rfl⟩ := vtdIntrIndexAlloc_some halloc
      obtain ⟨rfl, rfl⟩ := Prod.mk.inj heq
      exact ⟨hpasses, rfl, rfl, rfl, fun a ha => vtdSetupIrte_of_not_inEntry ha _ _ _ _ _⟩
  | setupIoapicIrq dev vector destId trigger =>
      obtain ⟨r, hr, heq⟩ := Option.map_eq_some_iff.mp h
      obtain ⟨⟨index, v₁⟩, halloc, hdev⟩ := Option.bind_eq_some_iff.mp hr
      obtain ⟨dev, rfl, rfl⟩ := Option.map_eq_some_iff.mp hdev
      obtain ⟨hpasses, rfl, rfl⟩ := vtdIntrIndexAlloc_some halloc
      obtain ⟨rfl, rfl⟩ := Prod.mk.inj heq
      exact ⟨hpasses, rfl, rfl, rfl, fun a ha => vtdSetupIrte_of_not_inEntry ha _ _ _ _ _⟩

/-- An MSI call with an index to spare goes through. -/
theorem exec_setupMsi {v : Iommu} (h : v.indexCtr < 65535) (dev : IommuDev)
    (vector destId : BitVec 32) :
    ∃ irte v', (IntrCall.setupMsi dev vector destId).exec v = some (irte, v') := by
  rw [IntrCall.exec, vtdSetupMsi, vtdIntrIndexAlloc_eq h]
  exact ⟨_, _, rfl⟩

/-! ### Runs -/

def irteOf (table : Word) (k : Nat) : Word := irteAddr table (BitVec.ofNat 16 k)

/-- The calls write the entries with the following indices and nothing else. -/
theorem execCalls_some {calls : List IntrCall} {v v' : Iommu} {entries : List Word}
    (h : execCalls v calls = some (entries, v')) :
    entries = (List.range' (v.indexCtr + 1) calls.length).map (irteOf (vtdIrTable v)) ∧
      (calls ≠ [] → v.indexCtr + calls.length ≤ 65535) ∧
      ∀ a, (∀ irte ∈ entries, ¬ InEntry irte a) → v'.machine.mem a = v.machine.mem a := by
  induction calls generalizing v entries with
  | nil =>
      obtain ⟨rfl, rfl⟩ := Prod.mk.inj (Option.some.inj h)
      exact ⟨rfl, fun hne => (hne rfl).elim, fun _ _ => rfl⟩
  | cons c calls ih =>
      obtain ⟨⟨irte, v₁⟩, hexec, hrest⟩ := Option.bind_eq_some_iff.mp h
      obtain ⟨⟨later, v₂⟩, hlater, heq⟩ := Option.map_eq_some_iff.mp hrest
      obtain ⟨rfl, rfl⟩ := Prod.mk.inj heq
      have hstep := IntrCall.exec_some hexec
      have htable : vtdIrTable v₁ = vtdIrTable v := by rw [vtdIrTable, hstep.table, vtdIrTable]
      obtain ⟨hentries, hpasses, hframe⟩ := ih hlater
      rw [htable, hstep.counter] at hentries
      rw [hstep.counter] at hpasses
      refine ⟨?_, fun _ => ?_, fun a ha => ?_⟩
      · rw [List.length_cons, List.range'_succ, List.map_cons, ← hentries]
        exact congrArg (· :: later) hstep.entry
      · have hfirst := hstep.passes
        rw [List.length_cons]
        by_cases hnil : calls = []
        · rw [hnil, List.length_nil]
          omega
        · have := hpasses hnil
          omega
      · rw [hframe a fun irte' hmem => ha irte' (List.mem_cons_of_mem _ hmem)]
        exact hstep.frame a (ha irte List.mem_cons_self)

/-- As many MSI calls as there are indices go through. -/
theorem execCalls_replicate_setupMsi (dev : IommuDev) (vector destId : BitVec 32)
    {n : Nat} {v : Iommu} (h : v.indexCtr + n ≤ 65535) :
    ∃ entries v', execCalls v (List.replicate n (.setupMsi dev vector destId)) =
      some (entries, v') := by
  induction n generalizing v with
  | zero => exact ⟨[], v, rfl⟩
  | succ n ih =>
      obtain ⟨irte, v₁, hexec⟩ := exec_setupMsi (by omega : v.indexCtr < 65535) dev vector destId
      have hcounter := (IntrCall.exec_some hexec).counter
      obtain ⟨entries, v', hrest⟩ := ih (by omega : v₁.indexCtr + n ≤ 65535)
      refine ⟨irte :: entries, v', ?_⟩
      rw [List.replicate_succ, execCalls, hexec, Option.bind_some, hrest]
      rfl

/-! ### The table -/

/-- All entries that were written lie in the page `table`, memory outside it is as
    before, and no entry was used twice. -/
structure KeepsToTable (table : Word) (m : Mem) (entries : List Word) (m' : Mem) : Prop where
  inside : ∀ irte ∈ entries, ∀ a, InEntry irte a → pageOf a = table
  outside : ∀ a, pageOf a ≠ table → m' a = m a
  distinct : entries.Nodup

theorem toNat_irteIndex {k : Nat} (hk : k < 65536) :
    ((BitVec.ofNat 16 k).setWidth 64).toNat = k := by
  rw [BitVec.toNat_setWidth, BitVec.toNat_ofNat]
  omega

theorem pageOf_irteOf_256 {table : Word} (htable : IsPage table) :
    pageOf (irteOf table 256) ≠ table := by
  have hsub : irteOf table 256 - table = PAGE_SIZE := by
    have hoffset : ENTRY_SIZE * (BitVec.ofNat 16 256).setWidth 64 = PAGE_SIZE := by decide
    rw [irteOf, irteAddr, tableEntry, hoffset, BitVec.add_comm, BitVec.add_sub_cancel]
  rw [Ne, ← sub_lt_PAGE_SIZE_iff htable, hsub]
  decide

theorem irteOf_injOn (table : Word) {j k : Nat} (hj : j < 65536) (hk : k < 65536)
    (h : irteOf table j = irteOf table k) : j = k := by
  have hself : InEntry (irteOf table k) (irteOf table j) := h ▸ inEntry_self _
  have hnat := congrArg BitVec.toNat (eq_of_inEntry (by rw [toNat_irteIndex hj]; omega)
    (by rw [toNat_irteIndex hk]; omega) (inEntry_self (irteOf table j)) hself)
  rwa [toNat_irteIndex hj, toNat_irteIndex hk] at hnat

theorem vtdSetupIrTable_eq {v : Iommu} {q : Word} {pages : List Word}
    (h : FreeList v.machine (q :: pages)) :
    vtdIrTable (vtdSetupIrTable v) = q ∧ IsPage q ∧
      ∀ a, pageOf a ≠ q → (vtdSetupIrTable v).machine.mem a = v.machine.mem a := by
  have hq : IsPage q := h.isPage q List.mem_cons_self
  have halloc := (allocPage_cons h).1
  refine ⟨?_, hq, fun a ha => ?_⟩
  · have hflags : 0xf#64 &&& PAGE_MASK = 0#64 := by decide
    rw [vtdIrTable, vtdSetupIrTable, halloc, virtToPhys, VTD_IRTA_MASK, BitVec.and_or_distrib_right,
      hflags, BitVec.or_zero]
    exact hq
  · rw [vtdSetupIrTable, halloc]
    exact (memset_zero_page hq a).trans (if_neg ha)

/-- **Remapping entries and the page of their table.** After `vtd_setup_ir_table`, the
    calls that pass the index assertion keep to the table exactly when there are at
    most 255 of them. -/
theorem irte_writes_keep_to_table_iff {v v' : Iommu} {q : Word} {pages : List Word}
    {calls : List IntrCall} {entries : List Word} (hfree : FreeList v.machine (q :: pages))
    (hctr : v.indexCtr = 0) (hrun : execCalls (vtdSetupIrTable v) calls = some (entries, v')) :
    KeepsToTable q v.machine.mem entries v'.machine.mem ↔ calls.length ≤ 255 := by
  obtain ⟨htable, hq, hsetup⟩ := vtdSetupIrTable_eq hfree
  have hctr' : (vtdSetupIrTable v).indexCtr = 0 := hctr
  obtain ⟨hentries, hpasses, hframe⟩ := execCalls_some hrun
  rw [htable, hctr'] at hentries
  rw [hctr'] at hpasses
  have hmem : ∀ irte, irte ∈ entries ↔ ∃ k, 1 ≤ k ∧ k < 1 + calls.length ∧ irteOf q k = irte := by
    intro irte
    rw [hentries, List.mem_map]
    simp only [List.mem_range'_1, Nat.zero_add, and_assoc]
  constructor
  · intro h
    by_contra hmany
    have hin : irteOf q 256 ∈ entries := (hmem _).mpr ⟨256, by omega, by omega, rfl⟩
    exact pageOf_irteOf_256 hq (h.inside _ hin _ (inEntry_self _))
  · intro hfew
    have hinside : ∀ irte ∈ entries, ∀ a, InEntry irte a → pageOf a = q := by
      intro irte hirte a ha
      obtain ⟨k, -, hk, rfl⟩ := (hmem irte).mp hirte
      refine pageOf_of_inEntry hq ?_ ha
      rw [toNat_irteIndex (by omega)]
      omega
    refine ⟨hinside, fun a ha => ?_, ?_⟩
    · rw [hframe a fun irte hirte hin => ha (hinside irte hirte a hin)]
      exact hsetup a ha
    · rw [hentries]
      refine List.Nodup.map_on (fun j hj k hk heq => ?_) List.nodup_range'
      rw [List.mem_range'_1] at hj hk
      exact irteOf_injOn q (by omega) (by omega) heq

/-- A machine with one free page, before any remapping entry was set up. -/
def freshIommu : Iommu :=
  { machine := { mem := fun _ => 0#64, freelist := 0x1000#64 }, rtaddr := 0#64, irta := 0#64,
    indexCtr := 0 }

theorem freeList_freshIommu : FreeList freshIommu.machine [0x1000#64] where
  chain := ⟨rfl, by decide, rfl⟩
  nodup := List.nodup_singleton _
  isPage := by
    intro p hp
    rw [List.mem_singleton.mp hp]
    decide

def edgeCall : IntrCall := .setupMsi ⟨0x0008#16, 11#8⟩ 0x30#32 0#32

theorem two_irtes_keep_to_table :
    ∃ entries v', execCalls (vtdSetupIrTable freshIommu) (List.replicate 2 edgeCall) =
        some (entries, v') ∧
      KeepsToTable 0x1000#64 freshIommu.machine.mem entries v'.machine.mem := by
  obtain ⟨entries, v', hrun⟩ := execCalls_replicate_setupMsi ⟨0x0008#16, 11#8⟩ 0x30#32 0#32
    (by decide : (vtdSetupIrTable freshIommu).indexCtr + 2 ≤ 65535)
  exact ⟨entries, v', hrun,
    (irte_writes_keep_to_table_iff freeList_freshIommu rfl hrun).mpr (by decide)⟩

/-- The 256th call passes the assertion and writes the entry behind the page. -/
theorem irte_behind_table :
    ∃ entries v', execCalls (vtdSetupIrTable freshIommu) (List.replicate 256 edgeCall) =
        some (entries, v') ∧
      0x2000#64 ∈ entries ∧
        ¬ KeepsToTable 0x1000#64 freshIommu.machine.mem entries v'.machine.mem := by
  obtain ⟨entries, v', hrun⟩ := execCalls_replicate_setupMsi ⟨0x0008#16, 11#8⟩ 0x30#32 0#32
    (by decide : (vtdSetupIrTable freshIommu).indexCtr + 256 ≤ 65535)
  have hlast : 0x2000#64 ∈ entries := by
    rw [(execCalls_some hrun).1, List.mem_map]
    refine ⟨256, ?_, by decide⟩
    rw [List.mem_range'_1, List.length_replicate]
    decide
  refine ⟨entries, v', hrun, hlast, fun h => ?_⟩
  have hpage := h.inside _ hlast 0x2000#64 (by decide)
  exact absurd hpage (by decide)

end AcrnGuest
