import Mathlib.Data.List.Nodup
import Mathlib.Tactic.Common

/-!
# Null-terminated lists threaded through a memory

`Chain next null head nodes` says that following `next` from `head` visits
exactly `nodes`, in this order, and then reaches `null`. The list is
existentially determined by the memory: `Chain.unique`. The frame rule
`Chain.frame` only asks for agreement on the nodes themselves, and `Chain.cut`
removes a segment by redirecting the one link in front of it.
-/

namespace AcrnGuest.LinkedList

variable {A : Type*}

/-- The nodes visited from `head` by following `next` until `null`. -/
def Chain (next : A → A) (null : A) : A → List A → Prop
  | head, [] => head = null
  | head, node :: nodes => head = node ∧ node ≠ null ∧ Chain next null (next node) nodes

variable {next next' : A → A} {null head : A} {nodes : List A}

@[simp] theorem chain_nil : Chain next null head [] ↔ head = null := Iff.rfl

@[simp] theorem chain_cons {node : A} :
    Chain next null head (node :: nodes) ↔
      head = node ∧ node ≠ null ∧ Chain next null (next node) nodes := Iff.rfl

theorem Chain.ne_null (h : Chain next null head nodes) : ∀ node ∈ nodes, node ≠ null := by
  induction nodes generalizing head with
  | nil => simp
  | cons first rest ih =>
      obtain ⟨-, hfirst, hrest⟩ := h
      intro node hnode
      rcases List.mem_cons.mp hnode with rfl | hnode
      · exact hfirst
      · exact ih hrest node hnode

theorem Chain.head_eq_null_iff (h : Chain next null head nodes) : head = null ↔ nodes = [] := by
  cases nodes with
  | nil => simpa using h
  | cons first rest =>
      obtain ⟨rfl, hfirst, -⟩ := h
      simpa using hfirst

theorem Chain.unique {other : List A} (h : Chain next null head nodes)
    (hother : Chain next null head other) : nodes = other := by
  induction nodes generalizing head other with
  | nil =>
      exact (hother.head_eq_null_iff.mp h).symm
  | cons first rest ih =>
      obtain ⟨rfl, hfirst, hrest⟩ := h
      cases other with
      | nil => exact (hfirst hother).elim
      | cons node tail =>
          obtain ⟨rfl, -, htail⟩ := hother
          rw [ih hrest htail]

/-- A chain survives every change that keeps the links of its nodes. -/
theorem Chain.frame (h : Chain next null head nodes)
    (hagree : ∀ node ∈ nodes, next' node = next node) : Chain next' null head nodes := by
  induction nodes generalizing head with
  | nil => exact h
  | cons first rest ih =>
      obtain ⟨hhead, hfirst, hrest⟩ := h
      refine ⟨hhead, hfirst, ?_⟩
      rw [hagree first (by simp)]
      exact ih hrest fun node hnode => hagree node (by simp [hnode])

/-- **Cutting a segment out of the middle.** Redirecting the link in front of
    the segment to the first node behind it removes exactly the segment. -/
theorem Chain.cut {front segment back : List A} {last after : A}
    (h : Chain next null head (front ++ [last] ++ segment ++ back))
    (hafter : Chain next null after back)
    (hlast : next' last = after)
    (hagree : ∀ node ∈ front ++ back, next' node = next node) :
    Chain next' null head (front ++ [last] ++ back) := by
  induction front generalizing head with
  | nil =>
      obtain ⟨hhead, hne, -⟩ := h
      refine ⟨hhead, hne, ?_⟩
      rw [hlast]
      exact hafter.frame fun node hnode => hagree node (by simpa using hnode)
  | cons first rest ih =>
      obtain ⟨hhead, hne, hrest⟩ := h
      refine ⟨hhead, hne, ?_⟩
      rw [hagree first (by simp)]
      refine ih hrest fun node hnode => hagree node ?_
      simp only [List.cons_append, List.mem_cons]
      exact Or.inr hnode

end AcrnGuest.LinkedList
