import Mathlib.Logic.Function.Basic
import Mathlib.Data.List.Basic

/-!
# Linked cells

Cells that each hold at most one pointer to another cell.  `Linked next a xs` says that a
walk from the pointer `a` visits the cells `xs` and then ends.  Such a walk is unique and
visits no cell twice; a change of a pointer outside the walk leaves it alone.
-/

namespace LinkedCells

universe u

variable {β : Type u} {next next' : β → Option β} {a : Option β} {b e t : β}
  {xs ys : List β}

/-- From the pointer `a`, the cells in the list follow one another, and the last one points
nowhere. -/
def Linked (next : β → Option β) : Option β → List β → Prop
  | a, [] => a = none
  | a, x :: xs => a = some x ∧ Linked next (next x) xs

@[simp] theorem linked_nil : Linked next a [] ↔ a = none := Iff.rfl

@[simp] theorem linked_cons :
    Linked next a (b :: xs) ↔ a = some b ∧ Linked next (next b) xs := Iff.rfl

@[simp] theorem linked_none : Linked next none xs ↔ xs = [] := by
  cases xs <;> simp

theorem Linked.head_mem (h : Linked next (some b) xs) : b ∈ xs := by
  cases xs with
  | nil => exact absurd h (by simp)
  | cons x xs =>
      rw [Option.some.inj h.1]
      exact List.mem_cons_self

/-- A pointer leads along one walk only. -/
theorem Linked.unique (hx : Linked next a xs) (hy : Linked next a ys) : xs = ys := by
  induction xs generalizing a ys with
  | nil =>
      obtain rfl := linked_nil.mp hx
      exact (linked_none.mp hy).symm
  | cons x xs ih =>
      obtain ⟨rfl, hxs⟩ := linked_cons.mp hx
      cases ys with
      | nil => exact absurd hy (by simp)
      | cons y ys =>
          obtain ⟨heq, hys⟩ := linked_cons.mp hy
          obtain rfl := Option.some.inj heq
          rw [ih hxs hys]

/-- A walk from a set that no pointer leaves stays in the set. -/
theorem Linked.mem_of_closed {S : β → Prop} (hS : ∀ b, S b → ∀ t, next b = some t → S t)
    (h : Linked next a xs) (ha : ∀ b, a = some b → S b) : ∀ x ∈ xs, S x := by
  induction xs generalizing a with
  | nil => exact fun x hx => absurd hx List.not_mem_nil
  | cons y ys ih =>
      obtain ⟨rfl, hys⟩ := linked_cons.mp h
      intro x hx
      rcases List.mem_cons.mp hx with rfl | hmem
      · exact ha x rfl
      · exact ih hys (fun t ht => hS y (ha y rfl) t ht) x hmem

/-- A walk leads on from every cell that it visits. -/
theorem Linked.suffix (h : Linked next a xs) (hb : b ∈ xs) :
    ∃ pre suf, xs = pre ++ b :: suf ∧ Linked next (some b) (b :: suf) := by
  induction xs generalizing a with
  | nil => exact absurd hb (List.not_mem_nil)
  | cons x xs ih =>
      obtain ⟨rfl, hxs⟩ := linked_cons.mp h
      rcases List.mem_cons.mp hb with rfl | hmem
      · exact ⟨[], xs, rfl, h⟩
      · obtain ⟨pre, suf, rfl, hsuf⟩ := ih hxs hmem
        exact ⟨x :: pre, suf, rfl, hsuf⟩

/-- A walk that starts at a cell does not come back to it. -/
theorem Linked.not_mem_next (h : Linked next (some b) (b :: xs)) : b ∉ xs := by
  intro hmem
  obtain ⟨pre, suf, heq, hsuf⟩ := (linked_cons.mp h).2.suffix hmem
  have hlength := congrArg List.length (hsuf.unique h)
  rw [heq] at hlength
  simp only [List.length_cons, List.length_append] at hlength
  omega

/-- A walk visits no cell twice. -/
theorem Linked.nodup (h : Linked next a xs) : xs.Nodup := by
  induction xs generalizing a with
  | nil => exact List.nodup_nil
  | cons x xs ih =>
      obtain ⟨rfl, hxs⟩ := linked_cons.mp h
      exact List.nodup_cons.mpr ⟨h.not_mem_next, ih hxs⟩

/-- Changed pointers of cells outside a walk leave the walk as it is. -/
theorem Linked.congr (h : Linked next a xs) (heq : ∀ b ∈ xs, next' b = next b) :
    Linked next' a xs := by
  induction xs generalizing a with
  | nil => exact h
  | cons x xs ih =>
      obtain ⟨rfl, hxs⟩ := linked_cons.mp h
      refine ⟨rfl, ?_⟩
      rw [heq x List.mem_cons_self]
      exact ih hxs fun b hb => heq b (List.mem_cons_of_mem _ hb)

/-- The last cell of a walk points nowhere. -/
theorem Linked.next_last (h : Linked next a (xs ++ [e])) : next e = none := by
  induction xs generalizing a with
  | nil => exact h.2
  | cons x xs ih => exact ih h.2

/-- A cell that points nowhere ends the walk that visits it. -/
theorem Linked.eq_concat (h : Linked next a xs) (hb : b ∈ xs) (hnext : next b = none) :
    ∃ pre, xs = pre ++ [b] := by
  obtain ⟨pre, suf, rfl, hsuf⟩ := h.suffix hb
  have hrest := (linked_cons.mp hsuf).2
  rw [hnext, linked_none] at hrest
  exact ⟨pre, by rw [hrest]⟩

/-- A step of the walk from a cell that points on. -/
theorem Linked.mem_of_next (h : Linked next a xs) (hb : b ∈ xs) (hnext : next b = some t) :
    t ∈ xs := by
  obtain ⟨pre, suf, rfl, hsuf⟩ := h.suffix hb
  have hrest := (linked_cons.mp hsuf).2
  rw [hnext] at hrest
  cases suf with
  | nil => exact absurd hrest (by simp)
  | cons y ys =>
      obtain rfl := Option.some.inj (linked_cons.mp hrest).1
      simp

section
variable [DecidableEq β]

/-- With its last cell pointed at another walk, a walk goes on along that one. -/
theorem Linked.append (h : Linked next a (xs ++ [e])) (ht : Linked next (some t) ys)
    (he : e ∉ ys) : Linked (Function.update next e (some t)) a (xs ++ e :: ys) := by
  have hys : Linked (Function.update next e (some t)) (some t) ys :=
    ht.congr fun b hb => Function.update_of_ne (ne_of_mem_of_not_mem hb he) _ _
  have hfresh : e ∉ xs := fun hmem =>
    (List.nodup_append.mp h.nodup).2.2 e hmem e (List.mem_singleton.mpr rfl) rfl
  induction xs generalizing a with
  | nil => exact ⟨h.1, by rwa [Function.update_self]⟩
  | cons x xs ih =>
      have hx : x ≠ e := ne_of_mem_of_not_mem List.mem_cons_self hfresh
      refine ⟨h.1, ?_⟩
      rw [Function.update_of_ne hx]
      exact ih h.2 fun hmem => hfresh (List.mem_cons_of_mem _ hmem)

/-- With the pointer of one of its cells removed, a walk ends there. -/
theorem Linked.cut (h : Linked next a xs) (e : β) :
    ∃ ys, Linked (Function.update next e none) a ys := by
  induction xs generalizing a with
  | nil => exact ⟨[], h⟩
  | cons x xs ih =>
      obtain ⟨rfl, hxs⟩ := linked_cons.mp h
      by_cases hx : x = e
      · exact ⟨[x], rfl, by rw [hx, Function.update_self]; rfl⟩
      · obtain ⟨ys, hys⟩ := ih hxs
        exact ⟨x :: ys, rfl, by rwa [Function.update_of_ne hx]⟩

end
end LinkedCells
