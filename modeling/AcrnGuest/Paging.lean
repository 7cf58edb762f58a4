import AcrnGuest.TableWalk

/-!
# x86_64 page tables (`lib/x86/vm.c`)

`installPte` is the source's loop that walks down from the root, creating empty
tables where an entry is not present, and then writes the entry. `findPteLevel`
and `getPte` are the lookups. The tables are accessed at their physical
addresses, which the library maps one to one.

The meaning of a table is what the processor makes of it: `translate` follows
the walk, combines the access rights of all levels and adds the offset within
the page. Addresses that are not canonical have no translation.
-/

namespace AcrnGuest

open Radix

/-! ### Entries (`lib/x86/asm/page.h`) -/

def PT_PRESENT_MASK : Word := 1#64 <<< 0
def PT_WRITABLE_MASK : Word := 1#64 <<< 1
def PT_USER_MASK : Word := 1#64 <<< 2
def PT_PAGE_SIZE_MASK : Word := 1#64 <<< 7
def PT_ADDR_MASK : Word := GENMASK_ULL 51 12

def LARGE_PAGE_SIZE : Word := 512#64 * PAGE_SIZE

/-! ### Installing entries -/

/-- One iteration of the loop of `install_pte`, on the machine, the caller's
    `pt_page` and the table pointer `pt`. -/
def installPteStep (virt : Word) (level : Nat) (st : (Machine × Word) × Word) :
    (Machine × Word) × Word :=
  let pt := st.2
  let entry := entryAddr pt (PGDIR_OFFSET virt level)
  let st' :=
    if st.1.1.mem entry &&& PT_PRESENT_MASK = 0#64 then
      let taken := takePage st.1
      let newPt := taken.1
      let value := virtToPhys newPt ||| PT_PRESENT_MASK ||| PT_WRITABLE_MASK ||| PT_USER_MASK
      ({ taken.2.1 with mem := linkTable taken.2.1.mem newPt entry value }, taken.2.2)
    else st.1
  (st', physToVirt (st'.1.mem entry &&& PT_ADDR_MASK))

/-- `install_pte`. The second component is the address of the written entry. -/
def installPte (s : Machine) (cr3 : Word) (pteLevel : Nat) (virt pte ptPage : Word) :
    Machine × Word :=
  let st := Loop.down (installPteStep virt) pteLevel PAGE_LEVEL ((s, ptPage), cr3)
  let entry := entryAddr st.2 (PGDIR_OFFSET virt (min pteLevel PAGE_LEVEL))
  ({ st.1.1 with mem := Function.update st.1.1.mem entry pte }, entry)

def installLargePage (s : Machine) (cr3 phys virt : Word) : Machine × Word :=
  installPte s cr3 2 virt
    (phys ||| PT_PRESENT_MASK ||| PT_WRITABLE_MASK ||| PT_USER_MASK ||| PT_PAGE_SIZE_MASK) 0#64

def installPage (s : Machine) (cr3 phys virt : Word) : Machine × Word :=
  installPte s cr3 1 virt (phys ||| PT_PRESENT_MASK ||| PT_WRITABLE_MASK ||| PT_USER_MASK) 0#64

/-! ### Lookups -/

structure PteSearch where
  level : Nat
  pte : Word
deriving DecidableEq, Repr

/-- The loop of `find_pte_level`, from the table `pt` of the given level. -/
def findPteLoop (m : Mem) (virt : Word) (lowestLevel : Nat) : Nat → Word → PteSearch
  | 0, pt => ⟨0, pt⟩
  | level + 1, pt =>
      let shift := (level + 1 - 1) * PGDIR_WIDTH + 12
      let entry := entryAddr pt ((virt >>> shift) &&& PGDIR_MASK)
      let pte := m entry
      if pte &&& PT_PRESENT_MASK = 0#64 then ⟨level + 1, entry⟩
      else if (level + 1 = 2 ∨ level + 1 = 3) ∧ pte &&& PT_PAGE_SIZE_MASK ≠ 0#64 then
        ⟨level + 1, entry⟩
      else if level + 1 = lowestLevel then ⟨level + 1, entry⟩
      else findPteLoop m virt lowestLevel level (physToVirt (pte &&& 0xffffffffff000#64))

/-- `find_pte_level`. The result is `none` when the assertion fails. -/
def findPteLevel (m : Mem) (cr3 virt : Word) (lowestLevel : Nat) : Option PteSearch :=
  if ¬ (1 ≤ lowestLevel ∧ lowestLevel ≤ PAGE_LEVEL) then none
  else some (findPteLoop m virt lowestLevel PAGE_LEVEL cr3)

def foundHugePte (m : Mem) (search : PteSearch) : Bool :=
  (search.level = 2 ∨ search.level = 3) ∧ m search.pte &&& PT_PRESENT_MASK ≠ 0#64 ∧
    m search.pte &&& PT_PAGE_SIZE_MASK ≠ 0#64

def foundLeafPte (m : Mem) (search : PteSearch) : Bool :=
  search.level = 1 ∨ foundHugePte m search

/-- `get_pte`: the address of the leaf entry, or `none` for the null pointer. -/
def getPte (m : Mem) (cr3 virt : Word) : Option Word :=
  (findPteLevel m cr3 virt 1).bind fun search =>
    if foundLeafPte m search then some search.pte else none

/-- `get_pte_level`: the address of the entry of the given level, or `none` for the null pointer. -/
def getPteLevel (m : Mem) (cr3 virt : Word) (pteLevel : Nat) : Option Word :=
  (findPteLevel m cr3 virt pteLevel).bind fun search =>
    if search.level = pteLevel then some search.pte else none

/-! ### The processor's view -/

/-- The table an entry points to. Entries of level 1 and large-page entries of
    levels 2 and 3 are leaves. -/
def x86Child (level : Nat) (e : Word) : Option Word :=
  if e &&& PT_PRESENT_MASK = 0#64 then none
  else if level = 1 then none
  else if (level = 2 ∨ level = 3) ∧ e &&& PT_PAGE_SIZE_MASK ≠ 0#64 then none
  else some (e &&& PT_ADDR_MASK)

theorem x86Child_one (e : Word) : x86Child 1 e = none := by
  simp [x86Child]

def x86 : Layout Word Word Word Word (Fin 512) := wordLayout x86Child x86Child_one

/-- A leaf together with the access rights accumulated on the way to it. -/
structure Mapping where
  level : Nat
  entry : Word
  writable : Bool
  user : Bool
deriving DecidableEq, Repr

/-- The leaf of an address. Access needs the right in every entry of the walk. -/
def x86Leaf : Reading Word Word (Option Mapping) where
  stuck := none
  leaf level e _ :=
    if e &&& PT_PRESENT_MASK = 0#64 then none
    else some ⟨level, e, e &&& PT_WRITABLE_MASK ≠ 0#64, e &&& PT_USER_MASK ≠ 0#64⟩
  node _ e leaf := leaf.map fun found =>
    { found with
      writable := found.writable && decide (e &&& PT_WRITABLE_MASK ≠ 0#64)
      user := found.user && decide (e &&& PT_USER_MASK ≠ 0#64) }

/-- The bits 63:48 of a canonical address repeat bit 47. -/
def Canonical (va : Word) : Prop := va.toNat < 2 ^ 47 ∨ 2 ^ 64 - 2 ^ 47 ≤ va.toNat

instance (va : Word) : Decidable (Canonical va) :=
  inferInstanceAs (Decidable (va.toNat < 2 ^ 47 ∨ 2 ^ 64 - 2 ^ 47 ≤ va.toNat))

structure Translation where
  phys : Word
  writable : Bool
  user : Bool
deriving DecidableEq, Repr

/-- Add the offset of `va` within a page of the leaf's size to the page frame. -/
def Mapping.translation (leaf : Mapping) (va : Word) : Translation where
  phys := (leaf.entry &&& GENMASK_ULL 51 (PGDIR_BITS leaf.level)) +
    BitVec.ofNat 64 (va.toNat % 2 ^ PGDIR_BITS leaf.level)
  writable := leaf.writable
  user := leaf.user

/-- The leaf that the processor finds for a canonical address. -/
def leafOf (m : Mem) (cr3 va : Word) : Option Mapping :=
  if Canonical va then x86.eval x86Leaf m PAGE_LEVEL cr3 va else none

/-- The processor's translation of `va` with the page tables at `cr3`. -/
def translate (m : Mem) (cr3 va : Word) : Option Translation :=
  (leafOf m cr3 va).map fun leaf => leaf.translation va

end AcrnGuest
