import AcrnGuest.TableWalk

/-!
# Extended page tables (`x86/hsi_virtual_spec.c`)

`install_ept_entry` walks down like `install_pte`, but it also meets large leaves
above its level. `split_large_ept_entry` replaces such a leaf by a table of 512
leaves of the next smaller size and turns the entry itself into a pointer. It is
the only part of the walk that may abort.

`eptTranslate` reads the tables the way the walk of the processor finds a guest
page: the host address of the leaf, the access bits that all levels grant, and
the memory type of the leaf. Which pointers the processor rejects is the subject
of `AcrnGuest.EptHistory`.
-/

namespace AcrnGuest

open Radix

/-! ### Entries (`x86/hsi_virtual_spec.h`) -/

def EPT_RA : Word := 1#64 <<< 0
def EPT_WA : Word := 1#64 <<< 1
def EPT_EA : Word := 1#64 <<< 2
def EPT_PRESENT : Word := EPT_RA ||| EPT_WA ||| EPT_EA
def EPT_LARGE_PAGE : Word := 1#64 <<< 7
def EPT_MEM_TYPE_WB : Word := 6#64
def EPT_MEM_TYPE_SHIFT : Nat := 3

def EPT_PAGE_LEVEL : Nat := 4
def EPT_PGDIR_WIDTH : Nat := 9
def EPT_PGDIR_MASK : Word := 511#64
def EPT_PGDIR_ENTRIES : Nat := 1 <<< EPT_PGDIR_WIDTH
def EPT_LEVEL_SHIFT (level : Nat) : Nat := (level - 1) * EPT_PGDIR_WIDTH + 12
def EPT_ADDR_MASK : Word := GENMASK_ULL 51 12
def EPT_MAPING_SIZE_4G : Word := 1#64 <<< 32

def eptOffset (guestAddr : Word) (level : Nat) : Word :=
  (guestAddr >>> EPT_LEVEL_SHIFT level) &&& EPT_PGDIR_MASK

theorem entryAddr_eptOffset (pt guestAddr : Word) (level : Nat) :
    entryAddr pt (eptOffset guestAddr level) = slot pt (tableIndex level guestAddr) :=
  entryAddr_PGDIR_OFFSET pt guestAddr level

/-! ### Splitting a large leaf -/

def splitFillStep (newPt prototype : Word) (level i : Nat) (st : Mem × Word) : Mem × Word :=
  (Function.update st.1 (entryAddr newPt (BitVec.ofNat 64 i)) (prototype ||| st.2),
    st.2 + 1#64 <<< EPT_LEVEL_SHIFT (level - 1))

/-- The flags of the smaller leaves. -/
def splitPrototype (pte : Word) (level : Nat) : Word :=
  let prototype := pte &&& ~~~ EPT_ADDR_MASK
  if level = 2 then prototype &&& ~~~ EPT_LARGE_PAGE else prototype

/-- `split_large_ept_entry`. The result is `none` when an assertion fails. -/
def splitLargeEptEntry (s : Machine) (ptep : Word) (level : Nat) : Option Machine :=
  let pte := s.mem ptep
  if ¬ pte &&& EPT_PRESENT ≠ 0#64 then none
  else if ¬ pte &&& EPT_LARGE_PAGE ≠ 0#64 then none
  else if ¬ (level = 2 ∨ level = 3) then none
  else
    let taken := allocPage s
    let newPt := taken.1
    if newPt = 0#64 then none
    else
      let cleared := memset taken.2.mem newPt 0#8 PAGE_SIZE
      let filled := Loop.up (splitFillStep newPt (splitPrototype pte level) level)
        EPT_PGDIR_ENTRIES (cleared, pte &&& EPT_ADDR_MASK)
      let pte := (pte &&& ~~~ EPT_LARGE_PAGE &&& ~~~ EPT_ADDR_MASK) ||| virtToPhys newPt
      some { taken.2 with mem := Function.update filled.1 ptep pte }

/-! ### Installing entries -/

/-- One iteration of the loop of `install_ept_entry`, on the machine, the caller's
    `pt_page` and the table pointer `pt`. -/
def installEptEntryStep (guestAddr : Word) (level : Nat) (st : (Machine × Word) × Word) :
    Option ((Machine × Word) × Word) :=
  let pt := st.2
  let entry := entryAddr pt (eptOffset guestAddr level)
  let opened :=
    if st.1.1.mem entry &&& EPT_PRESENT = 0#64 then
      let taken := takePage st.1
      let newPt := taken.1
      let value := virtToPhys newPt ||| EPT_RA ||| EPT_WA ||| EPT_EA
      some ({ taken.2.1 with mem := linkTable taken.2.1.mem newPt entry value }, taken.2.2)
    else if st.1.1.mem entry &&& EPT_LARGE_PAGE ≠ 0#64 then
      (splitLargeEptEntry st.1.1 entry level).map fun s => (s, st.1.2)
    else some st.1
  opened.map fun st' => (st', physToVirt (st'.1.mem entry &&& EPT_ADDR_MASK))

/-- `install_ept_entry`. The result is `none` when an assertion fails. -/
def installEptEntry (s : Machine) (pml4 : Word) (pteLevel : Nat) (guestAddr pte ptPage : Word) :
    Option Machine :=
  if ¬ guestAddr < 1#64 <<< 48 then none
  else
    (Loop.tryDown (installEptEntryStep guestAddr) pteLevel EPT_PAGE_LEVEL ((s, ptPage), pml4)).map
      fun st =>
        let entry := entryAddr st.2 (eptOffset guestAddr (min pteLevel EPT_PAGE_LEVEL))
        { st.1.1 with mem := Function.update st.1.1.mem entry pte }

def installEpt (s : Machine) (pml4 phys guestAddr perm : Word) : Option Machine :=
  installEptEntry s pml4 1 guestAddr ((phys &&& PAGE_MASK) ||| perm) 0#64

/-! ### The walk of the processor -/

/-- The table an entry points to. -/
def eptChild (level : Nat) (e : Word) : Option Word :=
  if e &&& EPT_PRESENT = 0#64 then none
  else if level = 1 then none
  else if (level = 2 ∨ level = 3) ∧ e &&& EPT_LARGE_PAGE ≠ 0#64 then none
  else some (e &&& EPT_ADDR_MASK)

theorem eptChild_one (e : Word) : eptChild 1 e = none := by
  simp [eptChild]

def ept : Layout Word Word Word Word (Fin 512) := wordLayout eptChild eptChild_one

/-- What the walk of a guest address finds: the host address, the access bits that
    every level grants, and the memory type of the leaf. -/
structure EptMapping where
  host : Word
  access : Word
  memType : Word
deriving DecidableEq, Repr

def eptLeaf : Reading Word Word (Option EptMapping) where
  stuck := none
  leaf level e guestAddr :=
    if e &&& EPT_PRESENT = 0#64 then none
    else some
      { host := (e &&& GENMASK_ULL 51 (EPT_LEVEL_SHIFT level)) +
          BitVec.ofNat 64 (guestAddr.toNat % 2 ^ EPT_LEVEL_SHIFT level)
        access := e &&& EPT_PRESENT
        memType := (e >>> EPT_MEM_TYPE_SHIFT) &&& 7#64 }
  node _ e leaf := leaf.map fun found => { found with access := found.access &&& e }

/-- The translation of a guest address; four levels cover 48 bits. -/
def eptTranslate (m : Mem) (pml4 guestAddr : Word) : Option EptMapping :=
  if guestAddr.toNat < 2 ^ 48 then ept.eval eptLeaf m EPT_PAGE_LEVEL pml4 guestAddr else none

end AcrnGuest
