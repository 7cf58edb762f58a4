import AcrnGuest.EptInstall

/-!
# Ranges of guest memory (`setup_ept_range`, `ept_gpa2hpa_map`)

Both functions call `install_ept` for one page after the other. Their loops are
first brought into the form `installAll`, a sequence of single installations. All
pages have level 1, so no leaf is ever split, every pointer is open, and a
sequence of installations acts on the entries of level 1 as a sequence of function
updates. Hence the last call that covers a guest address decides.
-/

namespace AcrnGuest

open Radix

/-! ### The source -/

def installEptPagesStep (pml4 max perm : Word) (st : Machine × Word × Word) :
    (Machine × Word × Word) ⊕ Option Machine :=
  if st.2.1 + PAGE_SIZE ≤ max then
    match installEpt st.1 pml4 st.2.1 st.2.2 perm with
    | some s => .inl (s, st.2.1 + PAGE_SIZE, st.2.2 + PAGE_SIZE)
    | none => .inr none
  else .inr (some st.1)

/-- `setup_ept_range`, whose loop uses `phys` as the host and as the guest address. -/
def setupEptRange (s : Machine) (pml4 start len perm : Word) : Option Machine :=
  let max := len + start
  (Loop.run (installEptPagesStep pml4 max perm) LOOP_BOUND (s, start, start)).join

def eptGpa2hpaMap (s : Machine) (pml4 hpa gpa : Word) (size : BitVec 32) (permission : Word)
    (isClear : Bool) : Option Machine :=
  let s := if isClear then { s with mem := memset s.mem hpa 0#8 (size.setWidth 64) } else s
  let max := hpa + size.setWidth 64
  (Loop.run (installEptPagesStep pml4 max permission) LOOP_BOUND (s, hpa, gpa)).join

def identityPerm : Word := EPT_WA ||| EPT_RA ||| EPT_EA ||| (EPT_MEM_TYPE_WB <<< 3)

/-! ### Sequences of installations -/

structure EptPage where
  host : Word
  guest : Word
  perm : Word

def installAll (pml4 : Word) : Machine → List EptPage → Option Machine
  | s, [] => some s
  | s, p :: ps => (installEpt s pml4 p.host p.guest p.perm).bind fun s' => installAll pml4 s' ps

theorem installAll_append (pml4 : Word) (s : Machine) (ps qs : List EptPage) :
    installAll pml4 s (ps ++ qs) = (installAll pml4 s ps).bind fun s' => installAll pml4 s' qs := by
  induction ps generalizing s with
  | nil => rfl
  | cons p ps ih =>
      simp only [List.cons_append, installAll, ih]
      cases installEpt s pml4 p.host p.guest p.perm <;> rfl

def eptPageRange (host guest perm : Word) : Nat → List EptPage
  | 0 => []
  | n + 1 => ⟨host, guest, perm⟩ :: eptPageRange (host + PAGE_SIZE) (guest + PAGE_SIZE) perm n

theorem length_eptPageRange (host guest perm : Word) (n : Nat) :
    (eptPageRange host guest perm n).length = n := by
  induction n generalizing host guest with
  | zero => rfl
  | succ n ih => rw [eptPageRange, List.length_cons, ih]

theorem installEptPagesStep_done {pml4 max perm host guest : Word} {s : Machine}
    (h : ¬ host + PAGE_SIZE ≤ max) :
    installEptPagesStep pml4 max perm (s, host, guest) = .inr (some s) := if_neg h

theorem installEptPagesStep_next (s : Machine) (pml4 perm guest : Word) {max host : Word}
    (h : host + PAGE_SIZE ≤ max) :
    installEptPagesStep pml4 max perm (s, host, guest) =
      match installEpt s pml4 host guest perm with
      | some s' => .inl (s', host + PAGE_SIZE, guest + PAGE_SIZE)
      | none => .inr none := if_pos h

theorem toNat_add_PAGE_SIZE {a : Word} (h : a.toNat < 2 ^ 63) :
    (a + PAGE_SIZE).toNat = a.toNat + 4096 := by
  rw [BitVec.toNat_add, toNat_PAGE_SIZE]
  omega

/-- The loop runs once for every whole page. -/
theorem run_installEptPagesStep (s : Machine) (pml4 perm guest : Word) {max host : Word}
    (hmax : max.toNat < 2 ^ 63) {n bound : Nat} (hbound : n < bound)
    (hlow : host.toNat + n * 4096 ≤ max.toNat)
    (hhigh : max.toNat < host.toNat + n * 4096 + 4096) :
    Loop.run (installEptPagesStep pml4 max perm) bound (s, host, guest) =
      some (installAll pml4 s (eptPageRange host guest perm n)) := by
  induction n generalizing s host guest bound with
  | zero =>
      obtain ⟨bound, rfl⟩ : ∃ k, bound = k + 1 := ⟨bound - 1, by omega⟩
      have hdone : ¬ host + PAGE_SIZE ≤ max := by
        rw [BitVec.le_def, toNat_add_PAGE_SIZE (by omega)]
        omega
      exact Loop.run_succ_inr (installEptPagesStep_done hdone) bound
  | succ n ih =>
      obtain ⟨bound, rfl⟩ : ∃ k, bound = k + 1 := ⟨bound - 1, by omega⟩
      have hnext : host + PAGE_SIZE ≤ max := by
        rw [BitVec.le_def, toNat_add_PAGE_SIZE (by omega)]
        omega
      have hstep := installEptPagesStep_next s pml4 perm guest hnext
      rw [eptPageRange, installAll]
      cases hinstall : installEpt s pml4 host guest perm with
      | none =>
          rw [hinstall] at hstep
          exact Loop.run_succ_inr hstep bound
      | some s' =>
          rw [hinstall] at hstep
          rw [Loop.run_succ_inl hstep, Option.bind_some]
          refine ih s' _ (by omega) ?_ ?_
          · rw [toNat_add_PAGE_SIZE (by omega)]
            omega
          · rw [toNat_add_PAGE_SIZE (by omega)]
            omega

/-! ### Tables without large leaves -/

/-- Above level 1 the present entries are open pointers. -/
def eptSmall (level : Nat) (e : Word) : Prop :=
  level ≠ 1 → e &&& EPT_PRESENT ≠ 0#64 → e &&& 0xff#64 = 7#64

theorem eptSmall.not_large {level : Nat} {e : Word} (h : eptSmall level e) (hlevel : level ≠ 1)
    (hpresent : e &&& EPT_PRESENT ≠ 0#64) : e &&& EPT_LARGE_PAGE = 0#64 :=
  (and_of_and_eq (h hlevel hpresent) (by decide)).trans (by decide)

/-- The entry of the last level, and zero where no table of that level is reached. -/
def eptPte : Reading Word Word Word where
  stuck := 0#64
  leaf level e _ := if level = 1 then e else 0#64
  node _ _ v := v

theorem eptGrows_eptSmall : EptGrows eptSmall (fun _ => True) eptPte where
  wellFormed level e h hlevel hpresent hlarge :=
    (hlarge (h.not_large (by omega) hpresent)).elim
  zero _ _ h := (h (by decide)).elim
  link level p hp _ _ := by
    rw [eptPointer_flags hp (by decide)]
    decide
  link_reads level e p gpa hlevel _ _ := by
    have habove : level + 1 ≠ 1 := by omega
    change (if level = 1 then 0#64 else 0#64) = if level + 1 = 1 then e else 0#64
    rw [ite_self, if_neg habove]
  split level e p i hlevel h hpresent hlarge := (hlarge (h.not_large (by omega) hpresent)).elim
  split_reads level e p gpa hlevel h hpresent hlarge :=
    (hlarge (h.not_large (by omega) hpresent)).elim

/-- An entry other than zero is the end of the walk. -/
theorem eptWalkEnd_of_eptPte {m : Mem} {l : Nat} {p gpa e : Word}
    (hpte : ept.eval eptPte m l p gpa = e) (he : e ≠ 0#64) :
    ept.eval eptWalkEnd m l p gpa = (1, e) := by
  induction l generalizing p with
  | zero => exact (he hpte.symm).elim
  | succ l ih =>
      cases hc : ept.child (l + 1) (ept.entry m (l + 1) p gpa) with
      | some c =>
          rw [Layout.eval_some hc] at hpte ⊢
          exact ih hpte
      | none =>
          rw [Layout.eval_none hc] at hpte ⊢
          change (if l + 1 = 1 then _ else _) = e at hpte
          split_ifs at hpte with hlevel
          · exact congrArg₂ Prod.mk hlevel hpte
          · exact (he hpte.symm).elim

theorem eptLeaf_zero (level : Nat) (gpa : Word) : eptLeaf.leaf level 0#64 gpa = none := by
  simp [eptLeaf]

theorem eptLeaf_node_of_full {level : Nat} {ptr : Word} (hfull : ptr &&& EPT_PRESENT = EPT_PRESENT)
    (e gpa : Word) : eptLeaf.node level ptr (eptLeaf.leaf 1 e gpa) = eptLeaf.leaf 1 e gpa := by
  have hkept : e &&& EPT_PRESENT &&& ptr = e &&& EPT_PRESENT := by
    rw [BitVec.and_assoc, BitVec.and_comm EPT_PRESENT, hfull]
  simp only [eptLeaf]
  split_ifs
  · rfl
  · simp only [Option.map_some, hkept]

/-- Pointers grant every access, so the entry of the last level alone decides. -/
theorem eptLeaf_of_eptPte {m : Mem} {l : Nat} {p : Word} (h : ept.WF eptSmall m l p) (gpa : Word) :
    ept.eval eptLeaf m l p gpa = eptLeaf.leaf 1 (ept.eval eptPte m l p gpa) gpa := by
  induction l generalizing p with
  | zero => exact (eptLeaf_zero 1 gpa).symm
  | succ l ih =>
      have hgood : eptSmall (l + 1) (ept.entry m (l + 1) p gpa) := h.good_entry _
      cases hc : ept.child (l + 1) (ept.entry m (l + 1) p gpa) with
      | some c =>
          have hlevel : l + 1 ≠ 1 := by
            intro hone
            rw [hone] at hc
            exact Option.some_ne_none c (hc.symm.trans (eptChild_one _))
          have hpresent : ept.entry m (l + 1) p gpa &&& EPT_PRESENT ≠ 0#64 := fun h0 =>
            Option.some_ne_none c (hc.symm.trans (eptChild_of_absent h0))
          have hfull : ept.entry m (l + 1) p gpa &&& EPT_PRESENT = EPT_PRESENT :=
            (and_of_and_eq (hgood hlevel hpresent) (by decide)).trans (by decide)
          rw [Layout.eval_some hc, Layout.eval_some hc, ih (h.child hc).1]
          exact eptLeaf_node_of_full hfull _ _
      | none =>
          rw [Layout.eval_none hc, Layout.eval_none hc]
          by_cases hlevel : l + 1 = 1
          · rw [hlevel]
            rfl
          · have habsent : ept.entry m (l + 1) p gpa &&& EPT_PRESENT = 0#64 := by
              by_contra hpresent
              have hlarge := eptSmall.not_large hgood hlevel hpresent
              exact Option.some_ne_none _
                ((eptChild_of_pointer hlevel hpresent hlarge).symm.trans hc)
            have hzero : eptPte.leaf (l + 1) (ept.entry m (l + 1) p gpa) gpa = 0#64 := if_neg hlevel
            rw [hzero]
            exact (if_pos habsent).trans (eptLeaf_zero 1 gpa).symm

/-! ### One page -/

def EptPage.covers (p : EptPage) (gpa : Word) : Bool := pageOf gpa = p.guest

/-- What the page is mapped to; without access bits nothing is mapped. -/
def EptPage.mapping (p : EptPage) (gpa : Word) : Option EptMapping :=
  if p.perm &&& EPT_PRESENT = 0#64 then none
  else some
    { host := p.host + (gpa - p.guest)
      access := p.perm &&& EPT_PRESENT
      memType := (p.perm >>> EPT_MEM_TYPE_SHIFT) &&& 7#64 }

structure EptPage.Valid (p : EptPage) : Prop where
  host : PhysPage p.host
  guest : IsPage p.guest
  guest_lt : p.guest.toNat < 2 ^ 48
  perm : p.perm &&& EPT_ADDR_MASK = 0#64

/-- The entry that is stored for the page of an address: the host page and the bits of `perm`. -/
def EptPage.entry (p : EptPage) (gpa : Word) : Word :=
  (p.host + (pageOf gpa - p.guest)) ||| p.perm

theorem EptPage.entry_of_covers {p : EptPage} {gpa : Word} (hcovers : p.covers gpa) :
    p.entry gpa = p.host ||| p.perm := by
  have hpage : pageOf gpa = p.guest := of_decide_eq_true hcovers
  rw [EptPage.entry, hpage, BitVec.sub_self, BitVec.add_zero]

theorem EptPage.Valid.leaf {p : EptPage} (h : p.Valid) {gpa : Word} (hcovers : p.covers gpa) :
    eptLeaf.leaf 1 (p.entry gpa) gpa = p.mapping gpa := by
  have hpage : pageOf gpa = p.guest := of_decide_eq_true hcovers
  have hflags : ∀ k, GENMASK_ULL 51 12 &&& k = 0#64 →
      (p.host ||| p.perm) &&& k = p.perm &&& k := fun k hk => h.host.or_and_flags hk
  have hframe : (p.host ||| p.perm) &&& GENMASK_ULL 51 (EPT_LEVEL_SHIFT 1) = p.host :=
    h.host.or_and_mask h.perm
  have hoffset : BitVec.ofNat 64 (gpa.toNat % 2 ^ EPT_LEVEL_SHIFT 1) = gpa - p.guest := by
    rw [pageOf_eq_iff] at hpage
    apply BitVec.eq_of_toNat_eq
    rw [BitVec.toNat_ofNat, BitVec.toNat_sub, ← hpage]
    have := gpa.isLt
    change gpa.toNat % 4096 % 2 ^ 64 = _
    omega
  rw [EptPage.entry_of_covers hcovers]
  simp only [eptLeaf, EptPage.mapping, memType_eq, hflags EPT_PRESENT (by decide),
    hflags 0x38#64 (by decide), hframe, hoffset]

/-- **One installation** replaces the entry of its page. -/
theorem EptTables.installEpt {s : Machine} {pml4 : Word} {pages : List Word} {p : EptPage}
    (h : EptTables eptSmall s pml4 pages) (hp : p.Valid)
    (henough : eptMissing s.mem pml4 p.guest 1 ≤ pages.length) :
    ∃ s' rest, installEpt s pml4 p.host p.guest p.perm = some s' ∧
      EptTables eptSmall s' pml4 rest ∧ pages.length ≤ rest.length + 3 ∧
      ∀ gpa : Word, gpa.toNat < 2 ^ 48 → ept.eval eptPte s'.mem EPT_PAGE_LEVEL pml4 gpa =
        if p.covers gpa then p.entry gpa else ept.eval eptPte s.mem EPT_PAGE_LEVEL pml4 gpa := by
  have hpte : (p.host &&& PAGE_MASK) ||| p.perm = p.host ||| p.perm := by
    rw [show p.host &&& PAGE_MASK = p.host from hp.host.isPage]
  obtain ⟨s', taken, rest, hinstall, htables, hperm, hinst⟩ :=
    h.install eptGrows_eptSmall (Nat.le_refl 1) (by decide) hp.guest_lt
      (eptChild_one ((p.host &&& PAGE_MASK) ||| p.perm)) (fun hone => absurd rfl hone)
      (leafAbove_true 1) (Or.inl rfl) (Or.inl henough)
  have hcount := hinst.count
  have hstop := Layout.stopLevel_le ept s.mem EPT_PAGE_LEVEL pml4 p.guest
  have hlength := (hperm rfl).length_eq
  rw [List.length_append] at hlength
  refine ⟨s', rest, hinstall, htables, ?_, fun gpa hlow => ?_⟩
  · unfold EPT_PAGE_LEVEL at hstop hcount
    omega
  · by_cases hcovers : p.covers gpa
    · have hpage : pageOf gpa = p.guest := of_decide_eq_true hcovers
      have hsame : gpa.toNat / 4096 = p.guest.toNat / 4096 :=
        pageOf_eq_pageOf_iff.mp (hpage.trans hp.guest.symm)
      obtain ⟨path, -, -, htarget⟩ := hinst.reads_target
      rw [if_pos hcovers, htarget _ eptPte gpa fun k hk _ => tableIndex_eq_of_div_eq hk hsame,
        hpte, EptPage.entry_of_covers hcovers]
      exact Reading.climb_of_node_eq (fun _ _ _ => rfl) _ _ _
    · have hpage : gpa.toNat / 4096 ≠ p.guest.toNat / 4096 := fun heq =>
        hcovers (decide_eq_true ((pageOf_eq_pageOf_iff.mpr heq).trans hp.guest))
      rw [if_neg hcovers]
      exact ept_eval_other hinst (Nat.le_refl 1) (by decide) hp.guest_lt hlow hpage

/-! ### Sequences of pages -/

/-- Later pages override the entries of earlier ones. -/
def overlay (f : Word → Word) (ps : List EptPage) : Word → Word :=
  ps.foldl (fun g p gpa => if p.covers gpa then p.entry gpa else g gpa) f

theorem overlay_cons (f : Word → Word) (p : EptPage) (ps : List EptPage) :
    overlay f (p :: ps) =
      overlay (fun gpa => if p.covers gpa then p.entry gpa else f gpa) ps := rfl

theorem overlay_append (f : Word → Word) (ps qs : List EptPage) :
    overlay f (ps ++ qs) = overlay (overlay f ps) qs := List.foldl_append

theorem overlay_congr {f g : Word → Word} {gpa : Word} (h : f gpa = g gpa) (ps : List EptPage) :
    overlay f ps gpa = overlay g ps gpa := by
  induction ps generalizing f g with
  | nil => exact h
  | cons p ps ih =>
      rw [overlay_cons, overlay_cons]
      exact ih (if_congr Iff.rfl rfl h)

/-- Every installation of the sequence finds the free pages that it needs. -/
def AmplePages (pml4 : Word) : Machine → List EptPage → Prop
  | _, [] => True
  | s, p :: ps =>
      (∃ pages, FreeList s pages ∧ eptMissing s.mem pml4 p.guest 1 ≤ pages.length) ∧
        ∀ s', installEpt s pml4 p.host p.guest p.perm = some s' → AmplePages pml4 s' ps

/-- **A sequence of installations** succeeds and overrides the entries. -/
theorem EptTables.installAll {pml4 : Word} {ps : List EptPage} (hps : ∀ p ∈ ps, p.Valid)
    {s : Machine} {pages : List Word} (h : EptTables eptSmall s pml4 pages)
    (hample : AmplePages pml4 s ps) :
    ∃ s' rest, installAll pml4 s ps = some s' ∧ EptTables eptSmall s' pml4 rest ∧
      ∀ gpa : Word, gpa.toNat < 2 ^ 48 → ept.eval eptPte s'.mem EPT_PAGE_LEVEL pml4 gpa =
        overlay (ept.eval eptPte s.mem EPT_PAGE_LEVEL pml4) ps gpa := by
  induction ps generalizing s pages with
  | nil => exact ⟨s, pages, rfl, h, fun _ _ => rfl⟩
  | cons p ps ih =>
      obtain ⟨⟨pages', hlist, henough⟩, hlater⟩ := hample
      obtain rfl := h.list.unique hlist
      obtain ⟨s₁, rest, hinstall, htables, -, hentry⟩ := h.installEpt (hps p (by simp)) henough
      obtain ⟨s', rest', hall, htables', hentries⟩ :=
        ih (fun q hq => hps q (by simp [hq])) htables (hlater s₁ hinstall)
      refine ⟨s', rest', ?_, htables', fun gpa hlow => ?_⟩
      · rw [AcrnGuest.installAll, hinstall]
        exact hall
      · rw [hentries gpa hlow, overlay_cons]
        exact overlay_congr (hentry gpa hlow) ps

/-- Three free pages per installation are ample. -/
theorem EptTables.amplePages {pml4 : Word} {ps : List EptPage}
    (hps : ∀ p ∈ ps, p.Valid) {s : Machine} {pages : List Word}
    (h : EptTables eptSmall s pml4 pages) (hlen : 3 * ps.length ≤ pages.length) :
    AmplePages pml4 s ps := by
  induction ps generalizing s pages with
  | nil => trivial
  | cons p ps ih =>
      rw [List.length_cons] at hlen
      have henough : eptMissing s.mem pml4 p.guest 1 ≤ pages.length := by
        have hstop := Layout.stopLevel_le ept s.mem EPT_PAGE_LEVEL pml4 p.guest
        unfold eptMissing
        unfold EPT_PAGE_LEVEL at hstop ⊢
        omega
      obtain ⟨s₁, rest, hinstall, htables, hrest, -⟩ := h.installEpt (hps p (by simp)) henough
      refine ⟨⟨pages, h.list, henough⟩, fun s' hs' => ?_⟩
      obtain rfl := Option.some.inj (hinstall.symm.trans hs')
      exact ih (fun q hq => hps q (by simp [hq])) htables (by omega)

/-! ### Ranges -/

structure EptRange where
  host : Word
  guest : Word
  perm : Word
  count : Nat

structure EptRange.Valid (c : EptRange) : Prop where
  host : IsPage c.host
  host_lt : c.host.toNat + c.count * 4096 ≤ 2 ^ 52
  guest : IsPage c.guest
  guest_lt : c.guest.toNat + c.count * 4096 ≤ 2 ^ 48
  perm : c.perm &&& EPT_ADDR_MASK = 0#64

def EptRange.pages (c : EptRange) : List EptPage := eptPageRange c.host c.guest c.perm c.count

def EptRange.covers (c : EptRange) (gpa : Word) : Bool :=
  c.guest.toNat ≤ gpa.toNat ∧ gpa.toNat < c.guest.toNat + c.count * 4096

theorem EptRange.covers_iff {host guest perm gpa : Word} {n : Nat} :
    EptRange.covers ⟨host, guest, perm, n⟩ gpa ↔
      guest.toNat ≤ gpa.toNat ∧ gpa.toNat < guest.toNat + n * 4096 := decide_eq_true_iff

def EptRange.entry (c : EptRange) (gpa : Word) : Word := EptPage.entry ⟨c.host, c.guest, c.perm⟩ gpa

def EptRange.mapping (c : EptRange) (gpa : Word) : Option EptMapping :=
  EptPage.mapping ⟨c.host, c.guest, c.perm⟩ gpa

theorem EptRange.Valid.next {host guest perm : Word} {n : Nat}
    (h : EptRange.Valid ⟨host, guest, perm, n + 1⟩) :
    EptPage.Valid ⟨host, guest, perm⟩ ∧
      EptRange.Valid ⟨host + PAGE_SIZE, guest + PAGE_SIZE, perm, n⟩ ∧
      (guest + PAGE_SIZE).toNat = guest.toNat + 4096 := by
  obtain ⟨hhost, hhostLt, hguest, hguestLt, hperm⟩ := h
  dsimp only at hhost hhostLt hguest hguestLt hperm
  have hhostPage := isPage_iff.mp hhost
  have hguestPage := isPage_iff.mp hguest
  have hhostAdd : (host + PAGE_SIZE).toNat = host.toNat + 4096 := toNat_add_PAGE_SIZE (by omega)
  have hguestAdd : (guest + PAGE_SIZE).toNat = guest.toNat + 4096 := toNat_add_PAGE_SIZE (by omega)
  refine ⟨⟨physPage_iff.mpr ⟨hhostPage, ?_⟩, hguest, ?_, hperm⟩, ⟨?_, ?_, ?_, ?_, hperm⟩, hguestAdd⟩
  · change host.toNat < 2 ^ 52
    omega
  · change guest.toNat < 2 ^ 48
    omega
  · exact hhost.add (by decide)
  · change (host + PAGE_SIZE).toNat + n * 4096 ≤ 2 ^ 52
    rw [hhostAdd]
    omega
  · exact hguest.add (by decide)
  · change (guest + PAGE_SIZE).toNat + n * 4096 ≤ 2 ^ 48
    rw [hguestAdd]
    omega

theorem EptRange.Valid.pages {host guest perm : Word} {n : Nat}
    (h : EptRange.Valid ⟨host, guest, perm, n⟩) :
    ∀ p ∈ eptPageRange host guest perm n, p.Valid := by
  induction n generalizing host guest with
  | zero => exact fun p hp => (List.not_mem_nil hp).elim
  | succ n ih =>
      obtain ⟨hfirst, hrest, -⟩ := h.next
      intro p hp
      rcases List.mem_cons.mp hp with rfl | hp
      · exact hfirst
      · exact ih hrest p hp

theorem EptPage.covers_iff {host guest perm gpa : Word} (hguest : IsPage guest) :
    EptPage.covers ⟨host, guest, perm⟩ gpa ↔
      guest.toNat ≤ gpa.toNat ∧ gpa.toNat < guest.toNat + 4096 := by
  have hpage := isPage_iff.mp hguest
  refine decide_eq_true_iff.trans ?_
  change pageOf gpa = guest ↔ _
  rw [pageOf_eq_iff]
  omega

/-- The pages of a range store its entries. -/
theorem EptRange.Valid.overlay {host guest perm : Word} {n : Nat}
    (h : EptRange.Valid ⟨host, guest, perm, n⟩) (f : Word → Word) (gpa : Word) :
    overlay f (eptPageRange host guest perm n) gpa =
      if EptRange.covers ⟨host, guest, perm, n⟩ gpa then EptPage.entry ⟨host, guest, perm⟩ gpa
      else f gpa := by
  induction n generalizing host guest f with
  | zero =>
      have hnone : ¬ EptRange.covers ⟨host, guest, perm, 0⟩ gpa := by
        simp [EptRange.covers]
      rw [if_neg hnone]
      rfl
  | succ n ih =>
      obtain ⟨hfirst, hrest, hadd⟩ := h.next
      have hsame : EptPage.entry ⟨host + PAGE_SIZE, guest + PAGE_SIZE, perm⟩ gpa =
          EptPage.entry ⟨host, guest, perm⟩ gpa := by
        have hhost : host + PAGE_SIZE + (pageOf gpa - (guest + PAGE_SIZE)) =
            host + (pageOf gpa - guest) := by
          generalize pageOf gpa = page
          rw [PAGE_SIZE_eq]
          bv_omega
        simp only [EptPage.entry, hhost]
      rw [eptPageRange, overlay_cons, ih hrest, hsame]
      by_cases hlater : EptRange.covers ⟨host + PAGE_SIZE, guest + PAGE_SIZE, perm, n⟩ gpa
      · rw [if_pos hlater, if_pos]
        rw [EptRange.covers_iff, hadd] at hlater
        rw [EptRange.covers_iff]
        omega
      · rw [if_neg hlater]
        rw [EptRange.covers_iff, hadd] at hlater
        refine if_congr ?_ rfl rfl
        have hpage : IsPage guest := hfirst.guest
        rw [EptPage.covers_iff hpage, EptRange.covers_iff]
        omega

theorem EptRange.Valid.overlay_pages {c : EptRange} (h : c.Valid) (f : Word → Word) (gpa : Word) :
    AcrnGuest.overlay f c.pages gpa = if c.covers gpa then c.entry gpa else f gpa :=
  h.overlay f gpa

/-- The page of a range that holds an address. -/
theorem EptRange.Valid.page {c : EptRange} (h : c.Valid) {gpa : Word} (hcovers : c.covers gpa) :
    EptPage.Valid ⟨c.host + (pageOf gpa - c.guest), pageOf gpa, c.perm⟩ := by
  obtain ⟨hhost, hhostLt, hguest, hguestLt, hperm⟩ := h
  obtain ⟨hlow, hhigh⟩ := EptRange.covers_iff.mp hcovers
  have hhostPage := isPage_iff.mp hhost
  have hguestPage := isPage_iff.mp hguest
  have hpage := toNat_pageOf gpa
  have hfrom : (c.host + (pageOf gpa - c.guest)).toNat =
      c.host.toNat + (gpa.toNat / 4096 * 4096 - c.guest.toNat) := by
    rw [BitVec.toNat_add, BitVec.toNat_sub, hpage]
    omega
  refine ⟨physPage_iff.mpr ⟨?_, ?_⟩, isPage_pageOf gpa, ?_, hperm⟩
  · change (c.host + (pageOf gpa - c.guest)).toNat % 4096 = 0
    omega
  · change (c.host + (pageOf gpa - c.guest)).toNat < 2 ^ 52
    omega
  · change (pageOf gpa).toNat < 2 ^ 48
    omega

theorem EptRange.Valid.leaf {c : EptRange} (h : c.Valid) {gpa : Word} (hcovers : c.covers gpa) :
    eptLeaf.leaf 1 (c.entry gpa) gpa = c.mapping gpa := by
  have hleaf := (h.page hcovers).leaf (decide_eq_true rfl : EptPage.covers ⟨_, _, _⟩ gpa = true)
  have hoffset : c.host + (pageOf gpa - c.guest) + (gpa - pageOf gpa) =
      c.host + (gpa - c.guest) := by
    generalize pageOf gpa = page
    bv_omega
  simp only [EptPage.entry, EptPage.mapping, BitVec.sub_self, BitVec.add_zero, hoffset] at hleaf
  exact hleaf

/-- The pages of several ranges: the last range that covers the address decides. -/
theorem overlay_flatMap {cs : List EptRange} (hcs : ∀ c ∈ cs, c.Valid) (f : Word → Word)
    (gpa : Word) :
    overlay f (cs.flatMap EptRange.pages) gpa =
      match cs.reverse.find? (fun c => c.covers gpa) with
      | some c => c.entry gpa
      | none => f gpa := by
  induction cs generalizing f with
  | nil => rfl
  | cons c cs ih =>
      have hfirst := (hcs c (by simp)).overlay_pages f gpa
      rw [List.flatMap_cons, overlay_append, ih (fun d hd => hcs d (by simp [hd])),
        List.reverse_cons, List.find?_append]
      cases cs.reverse.find? (fun d => d.covers gpa) with
      | some d => rfl
      | none =>
          rw [hfirst, Option.none_or, List.find?_singleton]
          split_ifs <;> rfl

/-! ### Calls -/

structure EptMapCall where
  hpa : Word
  gpa : Word
  size : BitVec 32
  permission : Word

structure EptMapCall.Allowed (c : EptMapCall) : Prop where
  hpa : IsPage c.hpa
  hpa_lt : c.hpa.toNat + c.size.toNat ≤ 2 ^ 52
  gpa : IsPage c.gpa
  gpa_lt : c.gpa.toNat + c.size.toNat ≤ 2 ^ 48
  permission : c.permission &&& EPT_ADDR_MASK = 0#64

def EptMapCall.range (c : EptMapCall) : EptRange :=
  ⟨c.hpa, c.gpa, c.permission, c.size.toNat / 4096⟩

/-- A sequence of calls, none of which clears the memory that it maps. -/
def eptMapAll (pml4 : Word) : Machine → List EptMapCall → Option Machine
  | s, [] => some s
  | s, c :: calls => (eptGpa2hpaMap s pml4 c.hpa c.gpa c.size c.permission false).bind fun s' =>
      eptMapAll pml4 s' calls

def identityRange : EptRange := ⟨0#64, 0#64, identityPerm, 2 ^ 20⟩

theorem EptMapCall.Allowed.valid {c : EptMapCall} (h : c.Allowed) : c.range.Valid := by
  have hhost := h.hpa_lt
  have hguest := h.gpa_lt
  have hsize : c.size.toNat / 4096 * 4096 ≤ c.size.toNat := Nat.div_mul_le_self _ _
  refine ⟨h.hpa, ?_, h.gpa, ?_, h.permission⟩
  · change c.hpa.toNat + c.size.toNat / 4096 * 4096 ≤ 2 ^ 52
    omega
  · change c.gpa.toNat + c.size.toNat / 4096 * 4096 ≤ 2 ^ 48
    omega

theorem eptGpa2hpaMap_eq {c : EptMapCall} (h : c.Allowed) (s : Machine) (pml4 : Word) :
    eptGpa2hpaMap s pml4 c.hpa c.gpa c.size c.permission false =
      installAll pml4 s c.range.pages := by
  have hhost := h.hpa_lt
  have hsize := c.size.isLt
  have hmax : (c.hpa + c.size.setWidth 64).toNat = c.hpa.toNat + c.size.toNat := by
    rw [BitVec.toNat_add, BitVec.toNat_setWidth]
    omega
  have hbound : c.size.toNat / 4096 < LOOP_BOUND := by
    unfold LOOP_BOUND
    omega
  have hrun := run_installEptPagesStep s pml4 c.permission c.gpa
    (by omega : (c.hpa + c.size.setWidth 64).toNat < 2 ^ 63) hbound
    (by omega : c.hpa.toNat + _ ≤ _) (by omega)
  unfold eptGpa2hpaMap
  dsimp only
  rw [if_neg (by decide), hrun]
  rfl

theorem eptMapAll_eq {calls : List EptMapCall} (h : ∀ c ∈ calls, c.Allowed) (pml4 : Word)
    (s : Machine) :
    eptMapAll pml4 s calls =
      installAll pml4 s ((calls.map EptMapCall.range).flatMap EptRange.pages) := by
  induction calls generalizing s with
  | nil => rfl
  | cons c calls ih =>
      have hcall := eptGpa2hpaMap_eq (h c (by simp)) s pml4
      rw [List.map_cons, List.flatMap_cons, installAll_append, ← hcall, eptMapAll]
      simp only [ih fun d hd => h d (by simp [hd])]

theorem setupEptRange_eq (s : Machine) (pml4 : Word) :
    setupEptRange s pml4 0#64 EPT_MAPING_SIZE_4G identityPerm =
      installAll pml4 s identityRange.pages := by
  have hrun := run_installEptPagesStep s pml4 identityPerm 0#64
    (by decide : (EPT_MAPING_SIZE_4G + 0#64).toNat < 2 ^ 63)
    (by decide : identityRange.count < LOOP_BOUND) (by decide : (0#64).toNat + _ ≤ _) (by decide)
  unfold setupEptRange
  dsimp only
  rw [hrun, Option.join_some, EptRange.pages, identityRange]

theorem identityRange_valid : identityRange.Valid := by
  constructor <;> decide

theorem identityRange_entry (gpa : Word) :
    identityRange.entry gpa = pageOf gpa ||| identityPerm := by
  simp only [EptRange.entry, EptPage.entry, identityRange, BitVec.sub_zero, BitVec.zero_add]

theorem identityRange_mapping (gpa : Word) :
    identityRange.mapping gpa = some ⟨gpa, EPT_PRESENT, EPT_MEM_TYPE_WB⟩ := by
  have hhost : 0#64 + (gpa - 0#64) = gpa := by bv_omega
  simp only [EptRange.mapping, EptPage.mapping, identityRange, hhost]
  rfl

theorem identityRange_covers (gpa : Word) :
    identityRange.covers gpa = decide (gpa.toNat < 2 ^ 32) := by
  refine decide_eq_decide.mpr ?_
  change 0 ≤ gpa.toNat ∧ gpa.toNat < 0 + 2 ^ 20 * 4096 ↔ _
  omega

theorem eptPte_of_empty {m : Mem} {pml4 : Word} (h : EmptyTable m pml4) :
    ept.eval eptPte m EPT_PAGE_LEVEL pml4 = fun _ => 0#64 := by
  funext gpa
  rw [EPT_PAGE_LEVEL, ept_eval_of_empty h]
  rfl

def eptMapPages (calls : List EptMapCall) : List EptPage :=
  identityRange.pages ++ (calls.map EptMapCall.range).flatMap EptRange.pages

theorem eptMapPages_valid {calls : List EptMapCall} (h : ∀ c ∈ calls, c.Allowed) :
    ∀ p ∈ eptMapPages calls, p.Valid := by
  intro p hp
  rcases List.mem_append.mp hp with hp | hp
  · exact identityRange_valid.pages p hp
  · obtain ⟨c, hc, hp⟩ := List.mem_flatMap.mp hp
    obtain ⟨call, hcall, rfl⟩ := List.mem_map.mp hc
    exact (h call hcall).valid.pages p hp

/-- The entry for an address: the one of the last call whose whole pages cover it, else
    the one of the identity map, else none. -/
def eptMapEntry (calls : List EptMapCall) (gpa : Word) : Word :=
  match calls.reverse.find? (fun c => c.range.covers gpa) with
  | some c => c.range.entry gpa
  | none => if gpa.toNat < 2 ^ 32 then pageOf gpa ||| identityPerm else 0#64

theorem overlay_eptMapPages {calls : List EptMapCall} (h : ∀ c ∈ calls, c.Allowed) (gpa : Word) :
    overlay (fun _ => 0#64) (eptMapPages calls) gpa = eptMapEntry calls gpa := by
  have hranges : ∀ c ∈ calls.map EptMapCall.range, c.Valid := by
    intro c hc
    obtain ⟨call, hcall, rfl⟩ := List.mem_map.mp hc
    exact (h call hcall).valid
  rw [eptMapPages, overlay_append, overlay_flatMap hranges, identityRange_valid.overlay_pages,
    identityRange_covers, identityRange_entry, ← List.map_reverse, List.find?_map, eptMapEntry]
  simp only [decide_eq_true_eq]
  change (match (calls.reverse.find? fun c => c.range.covers gpa).map EptMapCall.range with
    | some c => c.entry gpa
    | none => _) = _
  cases calls.reverse.find? fun c => c.range.covers gpa <;> rfl

theorem eptMapEntry_of_high {calls : List EptMapCall} (h : ∀ c ∈ calls, c.Allowed) {gpa : Word}
    (hhigh : 2 ^ 48 ≤ gpa.toNat) : eptMapEntry calls gpa = 0#64 := by
  have hnone : calls.reverse.find? (fun c => c.range.covers gpa) = none := by
    refine List.find?_eq_none.mpr fun c hc hcovers => ?_
    have hvalid : c.gpa.toNat + c.size.toNat / 4096 * 4096 ≤ 2 ^ 48 :=
      (h c (List.mem_reverse.mp hc)).valid.guest_lt
    obtain ⟨-, hlt⟩ := EptRange.covers_iff.mp hcovers
    omega
  rw [eptMapEntry, hnone]
  exact if_neg (by omega)

/-- What the processor makes of these entries. -/
theorem leaf_eptMapEntry {calls : List EptMapCall} (h : ∀ c ∈ calls, c.Allowed) (gpa : Word) :
    eptLeaf.leaf 1 (eptMapEntry calls gpa) gpa =
      match calls.reverse.find? (fun c => c.range.covers gpa) with
      | some c => c.range.mapping gpa
      | none =>
          if gpa.toNat < 2 ^ 32 then some ⟨gpa, EPT_PRESENT, EPT_MEM_TYPE_WB⟩ else none := by
  unfold eptMapEntry
  cases hfind : calls.reverse.find? fun c => c.range.covers gpa with
  | some c =>
      have hmem := List.mem_reverse.mp (List.mem_of_find?_eq_some hfind)
      have hcovers := List.find?_some hfind
      exact (h c hmem).valid.leaf hcovers
  | none =>
      dsimp only
      split_ifs with hlow
      · have hcovers : identityRange.covers gpa := by
          rw [identityRange_covers]
          exact decide_eq_true hlow
        rw [← identityRange_entry, identityRange_valid.leaf hcovers, identityRange_mapping]
      · rfl

/-- **The last call wins.** After the identity map of 4 GiB and any sequence of calls of
    `ept_gpa2hpa_map` the last call whose whole pages cover a guest address decides on
    the entry in which its walk ends, with all bits of its permission, and on its
    translation. Addresses that no call covers keep the identity map, and nothing else is
    mapped. -/
theorem eptMapAll_last_call_wins {s : Machine} {pml4 : Word} {pages : List Word}
    {calls : List EptMapCall} (hempty : EmptyTable s.mem pml4) (hlist : FreeList s pages)
    (hphys : ∀ p ∈ pages, PhysPage p) (hpml4 : pml4 ∉ pages) (hcalls : ∀ c ∈ calls, c.Allowed)
    (hample : AmplePages pml4 s (eptMapPages calls)) :
    ∃ s₁ s', setupEptRange s pml4 0#64 EPT_MAPING_SIZE_4G identityPerm = some s₁ ∧
      eptMapAll pml4 s₁ calls = some s' ∧
      (∀ gpa : Word, gpa.toNat < 2 ^ 48 → eptMapEntry calls gpa ≠ 0#64 →
        ept.eval eptWalkEnd s'.mem EPT_PAGE_LEVEL pml4 gpa = (1, eptMapEntry calls gpa)) ∧
      ∀ gpa, eptTranslate s'.mem pml4 gpa =
        match calls.reverse.find? (fun c => c.range.covers gpa) with
        | some c => c.range.mapping gpa
        | none =>
            if gpa.toNat < 2 ^ 32 then some ⟨gpa, EPT_PRESENT, EPT_MEM_TYPE_WB⟩ else none := by
  have htables : EptTables eptSmall s pml4 pages :=
    eptTables_of_empty hempty eptGrows_eptSmall.zero hlist hphys hpml4
  obtain ⟨s', rest, hall, htables', hentries⟩ :=
    htables.installAll (eptMapPages_valid hcalls) hample
  rw [eptPte_of_empty hempty] at hentries
  have hentry : ∀ gpa : Word, gpa.toNat < 2 ^ 48 →
      ept.eval eptPte s'.mem EPT_PAGE_LEVEL pml4 gpa = eptMapEntry calls gpa := fun gpa hlow =>
    (hentries gpa hlow).trans (overlay_eptMapPages hcalls gpa)
  rw [eptMapPages, installAll_append, ← setupEptRange_eq] at hall
  obtain ⟨s₁, hsetup, hcallsRun⟩ := Option.bind_eq_some_iff.mp hall
  refine ⟨s₁, s', hsetup, (eptMapAll_eq hcalls pml4 s₁).trans hcallsRun,
    fun gpa hlow hne => eptWalkEnd_of_eptPte (hentry gpa hlow) hne, fun gpa => ?_⟩
  rw [← leaf_eptMapEntry hcalls, eptTranslate]
  split_ifs with hlow
  · rw [eptLeaf_of_eptPte htables'.wf, hentry gpa hlow]
  · -- above 48 bits no call covers the address
    rw [eptMapEntry_of_high hcalls (by omega)]
    rfl

/-- Two calls with a part of a page left over, of which the second one overrides the
    second page of the first one. -/
def overlappingCalls : List EptMapCall :=
  [⟨0x200000#64, 0x5000#64, 0x2800#32, 5#64⟩, ⟨0x300000#64, 0x6000#64, 0x1fff#32, 0x437#64⟩]

theorem overlappingCalls_allowed : ∀ c ∈ overlappingCalls, c.Allowed := by
  simp only [overlappingCalls, List.mem_cons, List.not_mem_nil, or_false,
    forall_eq_or_imp, forall_eq]
  constructor <;> constructor <;> decide

theorem length_eptMapPages_overlappingCalls :
    (eptMapPages overlappingCalls).length = 2 ^ 20 + 3 := by
  rw [eptMapPages, List.length_append, EptRange.pages, length_eptPageRange]
  rfl

/-- An empty table at `0x1000`, and the free pages for the tables above 8 GiB. -/
theorem eptMapAll_overlapping_calls :
    ∃ s s₁ s', freePages ⟨fun _ => 0#64, 0#64⟩ 0x200000000#64 0x300009000#64 = some s ∧
      setupEptRange s 0x1000#64 0#64 EPT_MAPING_SIZE_4G identityPerm = some s₁ ∧
      eptMapAll 0x1000#64 s₁ overlappingCalls = some s' ∧
      ept.eval eptWalkEnd s'.mem EPT_PAGE_LEVEL 0x1000#64 0x6123#64 = (1, 0x300437#64) ∧
      eptTranslate s'.mem 0x1000#64 0x5123#64 = some ⟨0x200123#64, 5#64, 0#64⟩ ∧
      eptTranslate s'.mem 0x1000#64 0x6123#64 = some ⟨0x300123#64, 7#64, 6#64⟩ ∧
      eptTranslate s'.mem 0x1000#64 0x7123#64 = some ⟨0x7123#64, 7#64, 6#64⟩ ∧
      eptTranslate s'.mem 0x1000#64 0x100000000#64 = none := by
  have hrange : ∀ q ∈ pageRange 0x200000000#64 ((0x300009000#64).toNat / 4096),
      2 ^ 33 ≤ q.toNat ∧ q.toNat < 2 ^ 52 := by
    intro q hq
    obtain ⟨i, hi, rfl⟩ := mem_pageRange.mp hq
    rw [BitVec.toNat_add, BitVec.toNat_ofNat (4096 * i)]
    change i < 3145737 at hi
    change 2 ^ 33 ≤ (8589934592 + _) % _ ∧ (8589934592 + _) % _ < _
    omega
  have hnil : FreeList ⟨fun _ => 0#64, 0#64⟩ [] := ⟨rfl, List.nodup_nil, by simp⟩
  obtain ⟨s, hfree, hlist, hframe⟩ := freePages_spec hnil (by decide : IsPage 0x200000000#64)
    (by decide : IsPage 0x300009000#64) (by decide) (by decide)
    (fun h => absurd (hrange _ h).1 (by decide)) (by simp)
  rw [List.append_nil] at hlist
  have houtside : ∀ a : Word, pageOf a = 0x1000#64 →
      a ∉ pageRange 0x200000000#64 ((0x300009000#64).toNat / 4096) := by
    intro a ha hmem
    have hlow := (hrange a hmem).1
    rw [pageOf_eq_iff] at ha
    change _ = 4096 at ha
    omega
  have hempty : EmptyTable s.mem 0x1000#64 :=
    ⟨by decide, fun a ha => hframe a (houtside a ha)⟩
  have hphys : ∀ q ∈ pageRange 0x200000000#64 ((0x300009000#64).toNat / 4096), PhysPage q :=
    fun q hq => physPage_iff.mpr ⟨isPage_iff.mp (hlist.isPage q hq), (hrange q hq).2⟩
  have hpml4 := houtside 0x1000#64 (by decide)
  have hample : AmplePages 0x1000#64 s (eptMapPages overlappingCalls) := by
    refine (eptTables_of_empty hempty eptGrows_eptSmall.zero hlist hphys hpml4).amplePages
      (eptMapPages_valid overlappingCalls_allowed) ?_
    rw [length_eptMapPages_overlappingCalls, length_pageRange]
    decide
  obtain ⟨s₁, s', hsetup, hcalls, hentry, htranslate⟩ :=
    eptMapAll_last_call_wins hempty hlist hphys hpml4 overlappingCalls_allowed hample
  refine ⟨s, s₁, s', hfree, hsetup, hcalls, hentry _ (by decide) (by decide), ?_, ?_, ?_, ?_⟩
  · exact htranslate _
  · exact htranslate _
  · exact htranslate _
  · exact htranslate _

end AcrnGuest
