import Mathlib.Logic.Function.Basic
import Mathlib.Logic.Relation

/-!
# Processors with store buffers

A store of an x86 processor waits in a buffer of that processor before it reaches the
memory. The buffer is first in, first out; a load of the same processor sees it, a load of
another one does not. `mfence` and the locked instructions wait until the buffer of their
processor is empty. For strongly ordered (uncacheable) memory a store is in the memory as
soon as it is executed.

The code of a processor is a list of instructions that it runs in a loop. A polling loop is
one instruction, `await`, which cannot be executed until the value is there. What a
processor sees of the memory is `Cpu.view`, the memory with its own buffer written out. As
long as no other processor stores to what it loads, its code can be followed through the
view alone (`Alone.move`).
-/

namespace Tso

/-- The ordering of the accessed memory. -/
inductive Order
  | processor
  | strong
deriving DecidableEq

inductive Operand (R V : Type)
  | imm (v : V)
  | reg (r : R)

def Operand.eval {R V : Type} : Operand R V → (R → V) → V
  | .imm v, _ => v
  | .reg r, regs => regs r

inductive Instr (R L V : Type)
  | load (r : R) (l : L)
  | store (l : L) (e : Operand R V)
  | mfence
  | xchg (r : R) (l : L)
  | lockAdd (l : L) (d : V)
  /-- Poll the location until it holds the value. -/
  | await (l : L) (v : V)
  /-- Exchange `taken` with the location until `free` comes back. -/
  | swapUntil (l : L) (free taken : V)
  /-- A register that the code reads without having set it. -/
  | undef (r : R)
  /-- Go on only if the test of the registers is negative. -/
  | check (f : (R → V) → Bool)
  | addReg (r : R) (d : V)
  | nop

def Instr.KeepsRegs {R L V : Type} : Instr R L V → Prop
  | .load _ _ | .xchg _ _ | .undef _ | .addReg _ _ => False
  | _ => True

def Instr.StoresIn {R L V : Type} (W : L → Prop) : Instr R L V → Prop
  | .store l _ | .xchg _ l | .lockAdd l _ | .swapUntil l _ _ => W l
  | _ => True

structure Cpu (R L V : Type) where
  code : List (Instr R L V)
  regs : R → V
  buf : List (L × V)

/-- What a processor can do next: execute an instruction (`left` is the value an unset
    register happens to hold), write out its oldest store, or start its loop again. -/
inductive Move (V : Type)
  | issue (left : V)
  | drain
  | again
deriving DecidableEq

section Cpu

variable {R L V : Type} [DecidableEq L]

def commit (b : List (L × V)) (m : L → V) : L → V :=
  b.foldl (fun m e => Function.update m e.1 e.2) m

@[simp] theorem commit_append (b : List (L × V)) (e : L × V) (m : L → V) :
    commit (b ++ [e]) m = Function.update (commit b m) e.1 e.2 := by
  simp [commit]

/-- A location whose waiting stores all have its value keeps it. -/
theorem commit_eq_of_forall {b : List (L × V)} {l : L} {x : V} {m : L → V} (hm : m l = x)
    (h : ∀ e ∈ b, e.1 = l → e.2 = x) : commit b m l = x := by
  induction b generalizing m with
  | nil => exact hm
  | cons e b ih =>
    refine ih (m := Function.update m e.1 e.2) ?_ fun e' he' => h e' (List.mem_cons_of_mem _ he')
    by_cases he : l = e.1
    · rw [he, Function.update_self]
      exact h e List.mem_cons_self he.symm
    · rw [Function.update_of_ne he, hm]

namespace Cpu

/-- What the processor sees: its own newest store to a location, or the memory. -/
def view (m : L → V) (c : Cpu R L V) : L → V := commit c.buf m

variable [DecidableEq R] [DecidableEq V] [Add V]

def exec (o : Order) (left : V) (m : L → V) (c : Cpu R L V) (rest : List (Instr R L V)) :
    Instr R L V → Option ((L → V) × Cpu R L V)
  | .load r l =>
      some (m, { c with code := rest, regs := Function.update c.regs r (c.view m l) })
  | .store l e =>
      match o with
      | .processor => some (m, { c with code := rest, buf := c.buf ++ [(l, e.eval c.regs)] })
      | .strong =>
          some (Function.update (c.view m) l (e.eval c.regs), { c with code := rest, buf := [] })
  | .mfence => if c.buf.isEmpty then some (m, { c with code := rest }) else none
  | .xchg r l =>
      if c.buf.isEmpty then
        some (Function.update m l (c.regs r),
          { c with code := rest, regs := Function.update c.regs r (m l) })
      else none
  | .lockAdd l d =>
      if c.buf.isEmpty then some (Function.update m l (m l + d), { c with code := rest })
      else none
  | .await l v => if c.view m l = v then some (m, { c with code := rest }) else none
  | .swapUntil l free taken =>
      if c.buf.isEmpty then
        some (Function.update m l taken, if m l = free then { c with code := rest } else c)
      else none
  | .undef r => some (m, { c with code := rest, regs := Function.update c.regs r left })
  | .check f => if f c.regs then none else some (m, { c with code := rest })
  | .addReg r d =>
    some (m, { c with code := rest, regs := Function.update c.regs r (c.regs r + d) })
  | .nop => some (m, { c with code := rest })

/-- An instruction is left behind or, while it polls, executed again, and only some change
    the registers. -/
theorem exec_code_regs {o : Order} {left : V} {m m' : L → V} {c c' : Cpu R L V}
    {rest : List (Instr R L V)} {i : Instr R L V} (h : c.exec o left m rest i = some (m', c')) :
    (c'.code = rest ∨ c'.code = c.code) ∧ (i.KeepsRegs → c'.regs = c.regs) := by
  cases i with
  | load r l =>
    obtain ⟨rfl, rfl⟩ := h
    exact ⟨.inl rfl, False.elim⟩
  | store l e =>
    cases o <;> obtain ⟨rfl, rfl⟩ := h <;> exact ⟨.inl rfl, fun _ => rfl⟩
  | swapUntil l free taken =>
    simp only [exec, Option.ite_none_right_eq_some, Option.some.injEq, Prod.mk.injEq] at h
    obtain ⟨-, -, rfl⟩ := h
    split
    · exact ⟨.inl rfl, fun _ => rfl⟩
    · exact ⟨.inr rfl, fun _ => rfl⟩
  | xchg r l =>
    simp only [exec, Option.ite_none_right_eq_some, Option.some.injEq, Prod.mk.injEq] at h
    obtain ⟨-, -, rfl⟩ := h
    exact ⟨.inl rfl, False.elim⟩
  | undef r =>
    obtain ⟨rfl, rfl⟩ := h
    exact ⟨.inl rfl, False.elim⟩
  | addReg r d =>
    obtain ⟨rfl, rfl⟩ := h
    exact ⟨.inl rfl, False.elim⟩
  | nop =>
    obtain ⟨rfl, rfl⟩ := h
    exact ⟨.inl rfl, fun _ => rfl⟩
  | mfence | lockAdd _ _ | await _ _ | check _ =>
    simp only [exec, Option.ite_none_right_eq_some, Option.ite_none_left_eq_some,
      Option.some.injEq, Prod.mk.injEq] at h
    obtain ⟨-, -, rfl⟩ := h
    exact ⟨.inl rfl, fun _ => rfl⟩

/-- One move of a processor that runs the code `loop` again and again. -/
def move (o : Order) (loop : List (Instr R L V)) (m : L → V) (c : Cpu R L V) :
    Move V → Option ((L → V) × Cpu R L V)
  | .issue left =>
      match c.code with
      | [] => none
      | i :: rest => c.exec o left m rest i
  | .drain =>
      match c.buf with
      | [] => none
      | e :: b => some (Function.update m e.1 e.2, { c with buf := b })
  | .again =>
      match c.code with
      | [] => some (m, { c with code := loop })
      | _ :: _ => none

end Cpu

end Cpu

/-! ### One processor while the others do not store -/

section Alone

variable {R L V : Type} [DecidableEq L] [DecidableEq R] [Add V]

/-- Loads, stores and checks that no other processor interferes with lead from the view `v`
    and the registers `ρ` to `Q`. -/
def Alone (Q : (L → V) → (R → V) → Prop) : List (Instr R L V) → (L → V) → (R → V) → Prop
  | [], v, ρ => Q v ρ
  | .load r l :: rest, v, ρ => Alone Q rest v (Function.update ρ r (v l))
  | .store l x :: rest, v, ρ => Alone Q rest (Function.update v l (x.eval ρ)) ρ
  | .check f :: rest, v, ρ => f ρ = false ∧ Alone Q rest v ρ
  | .addReg r d :: rest, v, ρ => Alone Q rest v (Function.update ρ r (ρ r + d))
  | _ :: _, _, _ => False

/-- The location has the value `x` and every store that waits for it has the value `x`. -/
def Steady (l : L) (x : V) (m : L → V) (c : Cpu R L V) : Prop :=
  m l = x ∧ ∀ w ∈ c.buf, w.1 = l → w.2 = x

def Instr.Steady (l : L) (x : V) : Instr R L V → Prop
  | .store l' y => l' = l → y = .imm x
  | _ => True

variable [DecidableEq V]

/-- A move of such a processor leads on towards `Q`. -/
theorem Alone.move {Q : (L → V) → (R → V) → Prop} {o : Order} {a tail loop : List (Instr R L V)}
    {m m' : L → V} {c c' : Cpu R L V} {mv : Move V} (h : Alone Q a (c.view m) c.regs)
    (hcode : c.code = a ++ tail) (hmv : mv = .drain ∨ a ≠ [] ∧ mv ≠ .again)
    (hx : c.move o loop m mv = some (m', c')) :
    ∃ a', a' <:+ a ∧ c'.code = a' ++ tail ∧ Alone Q a' (c'.view m') c'.regs ∧
      ∀ l x, (∀ i ∈ a, i.Steady l x) → Steady l x m c → Steady l x m' c' := by
  obtain ⟨code, ρ, b⟩ := c
  cases mv with
  | drain =>
    cases b with
    | nil => cases hx
    | cons w b =>
      obtain ⟨rfl, rfl⟩ := hx
      refine ⟨a, List.suffix_rfl, hcode, h, fun l x _ hs => ⟨?_, fun w' hw' => ?_⟩⟩
      · by_cases hl : l = w.1
        · rw [hl, Function.update_self]
          exact hs.2 w List.mem_cons_self hl.symm
        · rw [Function.update_of_ne hl]
          exact hs.1
      · exact hs.2 w' (List.mem_cons_of_mem _ hw')
  | again => exact absurd rfl (hmv.resolve_left (by simp)).2
  | issue left =>
    cases a with
    | nil => exact absurd rfl (hmv.resolve_left (by simp)).1
    | cons i a =>
      have hcode' : code = i :: (a ++ tail) := hcode
      subst hcode'
      refine ⟨a, List.suffix_cons i a, ?_⟩
      cases i with
      | load r l =>
        obtain ⟨rfl, rfl⟩ := hx
        exact ⟨rfl, h, fun _ _ _ hs => hs⟩
      | check f =>
        have hf : f ρ = false := h.1
        simp only [Cpu.move, Cpu.exec, hf] at hx
        obtain ⟨rfl, rfl⟩ := hx
        exact ⟨rfl, h.2, fun _ _ _ hs => hs⟩
      | addReg r d =>
        obtain ⟨rfl, rfl⟩ := hx
        exact ⟨rfl, h, fun _ _ _ hs => hs⟩
      | store l y =>
        have hstore : ∀ l' x, (∀ i ∈ Instr.store l y :: a, i.Steady l' x) → l = l' →
            y.eval ρ = x := fun l' x hi hl => by
          rw [hi _ List.mem_cons_self hl]
          rfl
        cases o with
        | processor =>
          obtain ⟨rfl, rfl⟩ := hx
          refine ⟨rfl, ?_, fun l' x hi hs => ⟨hs.1, fun w hw hl => ?_⟩⟩
          · rw [Cpu.view, commit_append]
            exact h
          · rcases List.mem_append.mp hw with hw | hw
            · exact hs.2 w hw hl
            · obtain rfl := List.mem_singleton.mp hw
              exact hstore l' x hi hl
        | strong =>
          obtain ⟨rfl, rfl⟩ := hx
          refine ⟨rfl, h, fun l' x hi hs => ⟨?_, fun w hw => absurd hw List.not_mem_nil⟩⟩
          by_cases hl : l' = l
          · rw [hl, Function.update_self]
            exact hstore l' x hi hl.symm
          · rw [Function.update_of_ne hl]
            exact commit_eq_of_forall hs.1 hs.2
      | _ => exact h.elim

end Alone

/-! ### Several processors on one memory -/

structure Machine (P R L V : Type) where
  mem : L → V
  cpu : P → Cpu R L V

/-- How the processors run: the ordering of the memory, the values an unset register can
    hold, and the loop of each processor. -/
structure Setting (P R L V : Type) where
  order : Order
  left : V → Prop
  loop : P → List (Instr R L V)

section Machine

variable {P R L V : Type} [DecidableEq P] [DecidableEq R] [DecidableEq L] [DecidableEq V] [Add V]

def Machine.move (o : Order) (loop : P → List (Instr R L V)) (s : Machine P R L V) (p : P)
    (mv : Move V) : Option (Machine P R L V) :=
  ((s.cpu p).move o (loop p) s.mem mv).map fun mc => ⟨mc.1, Function.update s.cpu p mc.2⟩

def Machine.run (o : Order) (loop : P → List (Instr R L V)) (s : Machine P R L V) :
    List (P × Move V) → Option (Machine P R L V)
  | [] => some s
  | a :: as => (s.move o loop a.1 a.2).bind fun s' => s'.run o loop as

/-- The value in `mv` is one that the unset register at the head of `code` can hold. -/
def Move.Allowed (left : V → Prop) (code : List (Instr R L V)) (mv : Move V) : Prop :=
  ∀ v r rest, mv = .issue v → code = .undef r :: rest → left v

inductive Setting.Step (S : Setting P R L V) (s : Machine P R L V) : Machine P R L V → Prop
  | move {p : P} {mv : Move V} {m : L → V} {c : Cpu R L V}
      (allowed : mv.Allowed S.left (s.cpu p).code)
      (moved : (s.cpu p).move S.order (S.loop p) s.mem mv = some (m, c)) :
      S.Step s ⟨m, Function.update s.cpu p c⟩

/-- A step is a move of one processor, and the others stay as they are. -/
theorem Setting.Step.exists_move {S : Setting P R L V} {s s' : Machine P R L V} (h : S.Step s s') :
    ∃ p mv, mv.Allowed S.left (s.cpu p).code ∧
      (s.cpu p).move S.order (S.loop p) s.mem mv = some (s'.mem, s'.cpu p) ∧
      ∀ q, q ≠ p → s'.cpu q = s.cpu q := by
  obtain ⟨hleft, hx⟩ := h
  refine ⟨_, _, hleft, ?_, fun q hq => Function.update_of_ne hq _ _⟩
  simp [hx]

/-- The second state can follow the first one, in any number of moves of any processors. -/
def Setting.Reach (S : Setting P R L V) : Machine P R L V → Machine P R L V → Prop :=
  Relation.ReflTransGen S.Step

theorem Setting.reach_of_run {S : Setting P R L V} {as : List (P × Move V)}
    (hleft : ∀ a ∈ as, ∀ v, a.2 = .issue v → S.left v) {s s' : Machine P R L V}
    (h : s.run S.order S.loop as = some s') : S.Reach s s' := by
  induction as generalizing s with
  | nil =>
    obtain rfl : s = s' := Option.some.inj h
    exact .refl
  | cons a as ih =>
    obtain ⟨s₁, hmove, hrun⟩ := Option.bind_eq_some_iff.mp h
    obtain ⟨⟨m, c⟩, hmc, rfl⟩ := Option.map_eq_some_iff.mp hmove
    refine .head (.move (fun v r rest hv _ => hleft a List.mem_cons_self v hv) hmc) ?_
    exact ih (fun a' ha' => hleft a' (List.mem_cons_of_mem _ ha')) hrun

end Machine

end Tso
