import AcrnGuest.StoreBuffer
import Mathlib.Data.List.Basic

/-!
# A lock on processors with store buffers

A processor takes the lock with an exchange that it repeats until the old value says that
the lock was free, and gives it back with a plain store. The buffers are first in, first
out, so that this store reaches the memory behind those of the critical section.

What the lock protects is described by an invariant `I` of the shared locations. It is also
about the sections that each processor still has to run. If every section, run alone, leads
from the invariant to the invariant, then the invariant holds whenever the lock is free, in
every interleaving (`Mutex.reach`). The code between the sections can be anything that
stores to private locations only.
-/

namespace Tso

variable {P R L V : Type}

structure Lock (L V : Type) where
  loc : L
  free : V
  taken : V
  free_ne : free ≠ taken

/-- A piece of the code of a processor. -/
inductive Segment (R L V : Type)
  | critical (body : List (Instr R L V))
  | other (code : List (Instr R L V))

def Segment.code (k : Lock L V) : Segment R L V → List (Instr R L V)
  | .critical body => .swapUntil k.loc k.free k.taken :: (body ++ [.store k.loc (.imm k.free)])
  | .other code => code

def Segment.body? : Segment R L V → Option (List (Instr R L V))
  | .critical body => some body
  | .other _ => none

def program (k : Lock L V) (segs : List (Segment R L V)) : List (Instr R L V) :=
  segs.flatMap (Segment.code k)

theorem program_critical (k : Lock L V) (body : List (Instr R L V)) (segs : List (Segment R L V)) :
    program k (.critical body :: segs) =
      .swapUntil k.loc k.free k.taken ::
        (body ++ .store k.loc (.imm k.free) :: program k segs) := by
  simp [program, Segment.code]

def sections (segs : List (Segment R L V)) : List (List (Instr R L V)) :=
  segs.filterMap Segment.body?

def Instr.LoadsIn (W : L → Prop) : Instr R L V → Prop
  | .load _ l => W l
  | _ => True

/-! ### Changes of private locations -/

section Private

variable [DecidableEq L] {priv : L → Prop}

/-- The memories agree on the locations that are not private. -/
def SameShared (priv : L → Prop) (m m' : L → V) : Prop := ∀ l, ¬ priv l → m' l = m l

theorem SameShared.update {m : L → V} {l : L} (hl : priv l) (v : V) :
    SameShared priv m (Function.update m l v) := fun l' hl' =>
  Function.update_of_ne (fun h : l' = l => hl' (h ▸ hl)) v m

theorem SameShared.update_both {m m' : L → V} (h : SameShared priv m m') (l : L) (v : V) :
    SameShared priv (Function.update m l v) (Function.update m' l v) := fun l' hl' => by
  by_cases hl : l' = l
  · rw [hl, Function.update_self, Function.update_self]
  · rw [Function.update_of_ne hl, Function.update_of_ne hl, h l' hl']

theorem SameShared.commit {m m' : L → V} (h : SameShared priv m m') (b : List (L × V)) :
    SameShared priv (commit b m) (commit b m') := by
  induction b generalizing m m' with
  | nil => exact h
  | cons w b ih => exact ih (h.update_both w.1 w.2)

variable [DecidableEq R] [Add V]

/-- Code that loads from shared locations does not see a change of private ones. -/
theorem Alone.sameShared {Q : (L → V) → (R → V) → Prop}
    (hQ : ∀ v v' ρ, SameShared priv v v' → Q v ρ → Q v' ρ) {a : List (Instr R L V)}
    (ha : ∀ i ∈ a, i.LoadsIn fun l => ¬ priv l) {v v' : L → V} {ρ : R → V}
    (h : Alone Q a v ρ) (hv : SameShared priv v v') : Alone Q a v' ρ := by
  induction a generalizing v v' ρ with
  | nil => exact hQ v v' ρ hv h
  | cons i rest ih =>
    have hrest : ∀ i ∈ rest, i.LoadsIn fun l => ¬ priv l := fun i hi =>
      ha i (List.mem_cons_of_mem _ hi)
    cases i with
    | load r l =>
      have hl : v' l = v l := hv l (ha _ List.mem_cons_self)
      rw [Alone, hl]
      exact ih hrest h hv
    | store l x => exact ih hrest h (hv.update_both l _)
    | check f => exact ⟨h.1, ih hrest h.2 hv⟩
    | addReg r d => exact ih hrest h hv
    | _ => exact h.elim

variable [DecidableEq V]

/-- What an instruction does that stores to private locations only. -/
theorem Cpu.exec_private {x : V} {m m' : L → V} {c c' : Cpu R L V} {rest : List (Instr R L V)}
    {i : Instr R L V} (hi : i.StoresIn priv) (hx : c.exec .processor x m rest i = some (m', c')) :
    SameShared priv m m' ∧ (c'.code = rest ∨ c'.code = c.code) ∧
      ∃ b, c'.buf = c.buf ++ b ∧ ∀ w ∈ b, priv w.1 := by
  refine ⟨?_, (Cpu.exec_code_regs hx).1, ?_⟩
  · cases i with
    | xchg r l | lockAdd l d | swapUntil l free taken =>
      simp only [exec, Option.ite_none_right_eq_some, Option.some.injEq, Prod.mk.injEq] at hx
      obtain ⟨-, rfl, -⟩ := hx
      exact SameShared.update (show priv l from hi) _
    | mfence | await l v | check f =>
      simp only [exec, Option.ite_none_right_eq_some, Option.ite_none_left_eq_some,
        Option.some.injEq, Prod.mk.injEq] at hx
      obtain ⟨-, rfl, -⟩ := hx
      exact fun _ _ => rfl
    | load r l | store l e | undef r | addReg r d | nop =>
      obtain ⟨rfl, rfl⟩ := hx
      exact fun _ _ => rfl
  · cases i with
    | store l e =>
      obtain ⟨rfl, rfl⟩ := hx
      refine ⟨[(l, e.eval c.regs)], rfl, fun w hw => ?_⟩
      obtain rfl := List.mem_singleton.mp hw
      exact hi
    | swapUntil l free taken =>
      simp only [exec, Option.ite_none_right_eq_some, Option.some.injEq, Prod.mk.injEq] at hx
      obtain ⟨-, -, rfl⟩ := hx
      refine ⟨[], ?_, by simp⟩
      split <;> simp
    | xchg r l | lockAdd l d | mfence | await l v | check f =>
      simp only [exec, Option.ite_none_right_eq_some, Option.ite_none_left_eq_some,
        Option.some.injEq, Prod.mk.injEq] at hx
      obtain ⟨-, -, rfl⟩ := hx
      exact ⟨[], by simp, by simp⟩
    | load r l | undef r | addReg r d | nop =>
      obtain ⟨rfl, rfl⟩ := hx
      exact ⟨[], by simp, by simp⟩

end Private

/-! ### Where a processor is -/

section Places

variable (k : Lock L V) (priv : L → Prop)

/-- The code is outside of the critical sections, and those that come are `todo`. -/
structure Between (todo : List (List (Instr R L V))) (code : List (Instr R L V)) : Prop where
  split : ∃ a segs, code = a ++ program k segs ∧ (∀ i ∈ a, i.StoresIn priv) ∧
    (∀ c, .other c ∈ segs → ∀ i ∈ c, i.StoresIn priv) ∧ sections segs = todo

variable {k priv} {todo : List (List (Instr R L V))} {code : List (Instr R L V)}

/-- The next instruction is a private one or takes the lock. -/
theorem Between.head {i : Instr R L V} {rest : List (Instr R L V)}
    (h : Between k priv todo (i :: rest)) :
    i.StoresIn priv ∧ Between k priv todo rest ∨
      ∃ body todo' rest', i = .swapUntil k.loc k.free k.taken ∧ todo = body :: todo' ∧
        rest = body ++ .store k.loc (.imm k.free) :: rest' ∧ Between k priv todo' rest' := by
  obtain ⟨a, segs, hcode, ha, hsegs, rfl⟩ := h.split
  cases a with
  | cons i' a =>
    obtain ⟨rfl, rfl⟩ := List.cons.inj hcode
    exact .inl ⟨ha _ List.mem_cons_self,
      ⟨a, segs, rfl, fun i hi => ha i (List.mem_cons_of_mem _ hi), hsegs, rfl⟩⟩
  | nil =>
    clear ha h
    -- Empty pieces of other code may stand before the next instruction.
    induction segs with
    | nil => cases hcode
    | cons seg segs ih =>
      have hsegs' : ∀ c, .other c ∈ segs → ∀ i ∈ c, i.StoresIn priv := fun c hc =>
        hsegs c (List.mem_cons_of_mem _ hc)
      cases seg with
      | critical body =>
        rw [List.nil_append, program_critical] at hcode
        obtain ⟨rfl, rfl⟩ := List.cons.inj hcode
        exact .inr ⟨body, sections segs, program k segs, rfl, rfl, rfl,
          ⟨[], segs, rfl, by simp, hsegs', rfl⟩⟩
      | other c =>
        cases c with
        | nil => exact ih hsegs' hcode
        | cons i' c =>
          obtain ⟨rfl, rfl⟩ := List.cons.inj hcode
          have hc := hsegs _ List.mem_cons_self
          exact .inl ⟨hc _ List.mem_cons_self, ⟨c, segs, rfl,
            fun i hi => hc i (List.mem_cons_of_mem _ hi), hsegs', rfl⟩⟩

end Places

/-! ### The invariant of the lock -/

section Mutex

variable [DecidableEq P] [DecidableEq R] [DecidableEq L] [DecidableEq V] [Add V]

/-- The sections that the processors still have to run, and the shared memory. -/
abbrev Resource (P R L V : Type) := (P → List (List (Instr R L V))) → (L → V) → Prop

/-- The invariant is about the shared locations other than the lock, and every section keeps
    it. -/
structure Protected (k : Lock L V) (priv : L → Prop) (I : Resource P R L V) : Prop where
  lock_shared : ¬ priv k.loc
  local_of : ∀ todo m m', (∀ l, ¬ priv l → l ≠ k.loc → m' l = m l) → I todo m → I todo m'
  keeps : ∀ todo p body rest v ρ, todo p = body :: rest → I todo v →
    Alone (fun v' _ => I (Function.update todo p rest) v') body v ρ
  loads : ∀ todo p body rest v, todo p = body :: rest → I todo v →
    ∀ i ∈ body, (i.LoadsIn fun l => ¬ priv l) ∧ i.Steady k.loc k.taken

variable (k : Lock L V) (priv : L → Prop)

/-- The processor neither holds the lock nor has shared stores waiting. -/
structure Outside (todo : List (List (Instr R L V))) (c : Cpu R L V) : Prop where
  code : Between k priv todo c.code
  buf : ∀ w ∈ c.buf, priv w.1

/-- The processor holds the lock: it is in its section, or the store that gives the lock
    back is waiting behind those of the section. -/
inductive Holder (I : Resource P R L V) (todo : P → List (List (Instr R L V))) (p : P)
    (m : L → V) (c : Cpu R L V) : Prop
  | inside (a tail : List (Instr R L V)) (rest : List (List (Instr R L V)))
      (code : c.code = a ++ .store k.loc (.imm k.free) :: tail) (between : Between k priv rest tail)
      (reads : ∀ i ∈ a, (i.LoadsIn fun l => ¬ priv l) ∧ i.Steady k.loc k.taken)
      (steady : Steady k.loc k.taken m c)
      (alone : Alone (fun v _ => I (Function.update todo p rest) v) a (c.view m) c.regs)
  | leaving (b b' : List (L × V)) (between : Between k priv (todo p) c.code)
      (buf : c.buf = b ++ (k.loc, k.free) :: b') (locked : m k.loc = k.taken)
      (steady : ∀ w ∈ b, w.1 = k.loc → w.2 = k.taken) (priv : ∀ w ∈ b', priv w.1)
      (resource : I todo (commit b m))

/-- The lock is free, with the invariant, or one processor holds it. -/
inductive Mutex (I : Resource P R L V) (s : Machine P R L V) : Prop
  | free (todo : P → List (List (Instr R L V))) (lock : s.mem k.loc = k.free)
      (resource : I todo s.mem) (outside : ∀ p, Outside k priv (todo p) (s.cpu p))
  | held (todo : P → List (List (Instr R L V))) (p : P)
      (holder : Holder k priv I todo p s.mem (s.cpu p))
      (outside : ∀ q, q ≠ p → Outside k priv (todo q) (s.cpu q))

variable {k priv} {I : Resource P R L V} {todo : P → List (List (Instr R L V))} {p : P}
  {m m' : L → V} {c c' : Cpu R L V} {mv : Move V}

omit [DecidableEq V] in
/-- Changes of private locations do not matter to the holder. -/
theorem Holder.sameShared (hI : Protected k priv I) (h : Holder k priv I todo p m c)
    (hm : SameShared priv m m') : Holder k priv I todo p m' c := by
  have hlocal : ∀ todo v v', SameShared priv v v' → I todo v → I todo v' := fun todo v v' hv =>
    hI.local_of todo v v' fun l hl _ => hv l hl
  cases h with
  | inside a tail rest code between reads steady alone =>
    refine .inside a tail rest code between reads ⟨?_, steady.2⟩ ?_
    · rw [hm k.loc hI.lock_shared]
      exact steady.1
    · exact alone.sameShared (fun v v' _ => hlocal _ v v') (fun i hi => (reads i hi).1)
        (hm.commit c.buf)
  | leaving b b' between buf locked steady priv resource =>
    refine .leaving b b' between buf ?_ steady priv (hlocal _ _ _ (hm.commit b) resource)
    rw [hm k.loc hI.lock_shared]
    exact locked

omit [DecidableEq V] in
theorem Holder.locked (h : Holder k priv I todo p m c) : m k.loc = k.taken := by
  cases h with
  | inside a tail rest code between reads steady alone => exact steady.1
  | leaving b b' between buf locked steady priv resource => exact locked

/-- What a processor outside of the sections can do: something private, or try to take the
    lock. -/
theorem Outside.move {t : List (List (Instr R L V))} (h : Outside k priv t c)
    (hx : c.move .processor [] m mv = some (m', c')) :
    SameShared priv m m' ∧ Outside k priv t c' ∨
      m' = Function.update m k.loc k.taken ∧ c.buf = [] ∧ (m k.loc ≠ k.free ∧ c' = c ∨
        m k.loc = k.free ∧ ∃ body rest tail, t = body :: rest ∧ Between k priv rest tail ∧
          c' = ⟨body ++ .store k.loc (.imm k.free) :: tail, c.regs, []⟩) := by
  obtain ⟨code, ρ, buf⟩ := c
  obtain ⟨hcode, hbuf⟩ := h
  cases mv with
  | drain =>
    cases buf with
    | nil => cases hx
    | cons w buf =>
      obtain ⟨rfl, rfl⟩ := hx
      exact .inl ⟨SameShared.update (hbuf w List.mem_cons_self) _, hcode,
        fun w' hw' => hbuf w' (List.mem_cons_of_mem _ hw')⟩
  | again =>
    cases code with
    | nil =>
      obtain ⟨rfl, rfl⟩ := hx
      exact .inl ⟨fun _ _ => rfl, hcode, hbuf⟩
    | cons i rest => cases hx
  | issue x =>
    cases code with
    | nil => cases hx
    | cons i rest =>
      rcases hcode.head with ⟨hi, hrest⟩ | ⟨body, t', rest', rfl, rfl, rfl, hbetween⟩
      · obtain ⟨hm, hnext, b, hb, hpriv⟩ := Cpu.exec_private hi hx
        refine .inl ⟨hm, ?_, fun w hw => ?_⟩
        · rcases hnext with hnext | hnext
          · exact hnext ▸ hrest
          · exact hnext ▸ hcode
        · rw [hb] at hw
          exact (List.mem_append.mp hw).elim (hbuf w) (hpriv w)
      · cases buf with
        | cons w buf => simp [Cpu.move, Cpu.exec] at hx
        | nil =>
          obtain ⟨rfl, rfl⟩ := hx
          refine .inr ⟨rfl, rfl, ?_⟩
          by_cases hfree : m k.loc = k.free
          · rw [if_pos hfree]
            exact .inr ⟨hfree, body, t', rest', rfl, hbetween, rfl⟩
          · rw [if_neg hfree]
            exact .inl ⟨hfree, rfl⟩

/-- The holder goes on, or its last store frees the lock. -/
theorem Holder.move (hI : Protected k priv I) (h : Holder k priv I todo p m c)
    (hx : c.move .processor [] m mv = some (m', c')) :
    ∃ todo', (∀ q, q ≠ p → todo' q = todo q) ∧ (Holder k priv I todo' p m' c' ∨
      m' k.loc = k.free ∧ I todo' m' ∧ Outside k priv (todo' p) c') := by
  cases h with
  | inside a tail rest code between reads steady alone =>
    by_cases hmv : mv = .drain ∨ a ≠ [] ∧ mv ≠ .again
    · obtain ⟨a', ha', hcode', halone', hsteady⟩ := alone.move code hmv hx
      have hreads : ∀ i ∈ a', (i.LoadsIn fun l => ¬ priv l) ∧ i.Steady k.loc k.taken :=
        fun i hi => reads i (ha'.subset hi)
      exact ⟨todo, fun _ _ => rfl, .inl (.inside a' tail rest hcode' between hreads
        (hsteady _ _ (fun i hi => (reads i hi).2) steady) halone')⟩
    · obtain ⟨code', ρ, buf⟩ := c
      cases mv with
      | drain => exact absurd (.inl rfl) hmv
      | again =>
        obtain rfl : code' = a ++ .store k.loc (.imm k.free) :: tail := code
        cases a <;> cases hx
      | issue x =>
        obtain rfl : a = [] := by
          by_contra ha
          exact hmv (.inr ⟨ha, by simp⟩)
        subst code
        obtain ⟨rfl, rfl⟩ := hx
        have hself : Function.update todo p rest p = rest := Function.update_self ..
        refine ⟨Function.update todo p rest, fun q hq => Function.update_of_ne hq _ _, .inl ?_⟩
        exact .leaving buf [] (hself.symm ▸ between) rfl steady.1 steady.2 (by simp) alone
  | leaving b b' between buf locked steady hpriv resource =>
    obtain ⟨code, ρ, buf'⟩ := c
    obtain rfl : buf' = b ++ (k.loc, k.free) :: b' := buf
    refine ⟨todo, fun _ _ => rfl, ?_⟩
    cases mv with
    | drain =>
      cases b with
      | nil =>
        obtain ⟨rfl, rfl⟩ := hx
        refine .inr ⟨Function.update_self .., ?_, between, hpriv⟩
        exact hI.local_of _ _ _ (fun l _ hl => Function.update_of_ne hl _ _) resource
      | cons w b =>
        obtain ⟨rfl, rfl⟩ := hx
        refine .inl (.leaving b b' between rfl ?_
          (fun w' hw' => steady w' (List.mem_cons_of_mem _ hw'))
          hpriv resource)
        by_cases hw : w.1 = k.loc
        · rw [hw, Function.update_self]
          exact steady w List.mem_cons_self hw
        · rwa [Function.update_of_ne (Ne.symm hw)]
    | again =>
      cases code with
      | nil =>
        obtain ⟨rfl, rfl⟩ := hx
        exact .inl (.leaving b b' between rfl locked steady hpriv resource)
      | cons i rest => cases hx
    | issue x =>
      cases code with
      | nil => cases hx
      | cons i rest =>
        rcases between.head with ⟨hi, hrest⟩ | ⟨body, t', rest', rfl, -, rfl, -⟩
        · obtain ⟨hm, hnext, d, hd, hd'⟩ := Cpu.exec_private hi hx
          have hbetween : Between k priv (todo p) c'.code := by
            rcases hnext with hnext | hnext
            · exact hnext ▸ hrest
            · exact hnext ▸ between
          refine .inl (Holder.sameShared hI (m := m) (.leaving b (b' ++ d) hbetween ?_ locked steady
            (fun w hw => (List.mem_append.mp hw).elim (hpriv w) (hd' w)) resource) hm)
          rw [hd]
          simp
        · simp [Cpu.move, Cpu.exec] at hx

variable {S : Setting P R L V} {s s' : Machine P R L V}

/-- Every step keeps the lock with one processor and its invariant. -/
theorem Mutex.step (hI : Protected k priv I) (horder : S.order = .processor)
    (hloop : ∀ p, S.loop p = []) (h : Mutex k priv I s) (hs : S.Step s s') : Mutex k priv I s' := by
  obtain ⟨p, mv, -, hx, hother⟩ := hs.exists_move
  rw [horder, hloop] at hx
  cases h with
  | free todo lock resource outside =>
    have hout : ∀ q, q ≠ p → Outside k priv (todo q) (s'.cpu q) := fun q hq =>
      hother q hq ▸ outside q
    rcases (outside p).move hx with ⟨hm, hp⟩ | ⟨hm, hbuf, ⟨hne, -⟩ | ⟨-, body, rest, tail, hp⟩⟩
    · refine .free todo ((hm k.loc hI.lock_shared).trans lock) ?_ fun q => ?_
      · exact hI.local_of _ _ _ (fun l hl _ => hm l hl) resource
      · by_cases hq : q = p
        · exact hq ▸ hp
        · exact hout q hq
    · exact absurd lock hne
    · obtain ⟨htodo, hbetween, hcpu⟩ := hp
      have hmem : I todo s'.mem := by
        rw [hm]
        exact hI.local_of _ _ _ (fun l _ hl => Function.update_of_ne hl _ _) resource
      refine .held todo p ?_ hout
      rw [hcpu]
      refine .inside body tail rest rfl hbetween (hI.loads _ _ _ _ _ htodo hmem)
        ⟨?_, by simp⟩ (hI.keeps _ _ _ _ _ _ htodo hmem)
      rw [hm, Function.update_self]
  | held todo h holder outside =>
    by_cases hp : p = h
    · subst hp
      obtain ⟨todo', htodo, hnext⟩ := holder.move hI hx
      have hout : ∀ q, q ≠ p → Outside k priv (todo' q) (s'.cpu q) := fun q hq => by
        rw [hother q hq, htodo q hq]
        exact outside q hq
      rcases hnext with hnext | ⟨hfree, hres, hp⟩
      · exact .held todo' p hnext hout
      · refine .free todo' hfree hres fun q => ?_
        by_cases hq : q = p
        · exact hq ▸ hp
        · exact hout q hq
    · have hkeeps : SameShared priv s.mem s'.mem ∧ Outside k priv (todo p) (s'.cpu p) := by
        rcases (outside p hp).move hx with h' | ⟨hm, hbuf, ⟨-, hcpu⟩ | ⟨hfree, -⟩⟩
        · exact h'
        · -- The lock is taken, so the exchange changes nothing.
          rw [hm, ← holder.locked, Function.update_eq_self, hcpu]
          exact ⟨fun _ _ => rfl, outside p hp⟩
        · exact absurd (hfree.symm.trans holder.locked) k.free_ne
      refine .held todo h ?_ fun q hq => ?_
      · rw [hother h (Ne.symm hp)]
        exact holder.sameShared hI hkeeps.1
      · by_cases hqp : q = p
        · exact hqp ▸ hkeeps.2
        · rw [hother q hqp]
          exact outside q hq

theorem Mutex.reach (hI : Protected k priv I) (horder : S.order = .processor)
    (hloop : ∀ p, S.loop p = []) (h : Mutex k priv I s) (hs : S.Reach s s') :
    Mutex k priv I s' := by
  induction hs with
  | refl => exact h
  | tail _ hstep ih => exact ih.step hI horder hloop hstep

omit [DecidableEq V] in
/-- When every processor has finished its code and its stores are in the memory, the
    invariant holds with nothing left to do. -/
theorem Mutex.finished (h : Mutex k priv I s)
    (hdone : ∀ p, (s.cpu p).code = [] ∧ (s.cpu p).buf = []) : I (fun _ => []) s.mem := by
  have hnil : ∀ {t : List (List (Instr R L V))},
      Between k priv t ([] : List (Instr R L V)) → t = [] := by
    intro t ht
    obtain ⟨a, segs, hcode, -, -, rfl⟩ := ht.split
    have hprogram := (List.append_eq_nil_iff.mp hcode.symm).2
    refine List.filterMap_eq_nil_iff.mpr fun seg hseg => ?_
    cases seg with
    | critical body => cases List.flatMap_eq_nil_iff.mp hprogram _ hseg
    | other c => rfl
  cases h with
  | free todo lock resource outside =>
    have htodo : todo = fun _ => [] := funext fun p => hnil ((hdone p).1 ▸ (outside p).code)
    exact htodo ▸ resource
  | held todo p holder outside =>
    cases holder with
    | inside a tail rest code between reads steady alone =>
      rw [(hdone p).1] at code
      simp at code
    | leaving b b' between buf locked steady priv resource =>
      rw [(hdone p).2] at buf
      simp at buf

end Mutex

end Tso
