import Mathlib.InformationTheory.Coding.UniquelyDecodable
import Mathlib.Data.List.Basic
import Mathlib.Tactic.Common

/-!
# Self-delimiting frames

A set of words is self-delimiting when no word of the set is a proper prefix of
another one.  A reader of a concatenation of such words can cut it back into
its words, whatever follows.

Main results:

- Theorem `SelfDelimiting.uniquelyDecodable`: nonempty self-delimiting words
  form a uniquely decodable code.
- Theorem `selfDelimiting_of_lengthOf`: words whose length is computed from a
  prefix they all have are self-delimiting.
-/

namespace PrefixCode

open InformationTheory

variable {α : Type*} {S : Set (List α)}

/-- Two words of the set that start the same text are equal. -/
def SelfDelimiting (S : Set (List α)) : Prop :=
  ∀ a ∈ S, ∀ b ∈ S, ∀ x y : List α, a ++ x = b ++ y → a = b

/-- Nonempty self-delimiting words form a uniquely decodable code. -/
theorem SelfDelimiting.uniquelyDecodable (h : SelfDelimiting S) (hne : [] ∉ S) :
    UniquelyDecodable S := by
  intro L₁
  induction L₁ with
  | nil =>
      intro L₂ _ h₂ hflat
      cases L₂ with
      | nil => rfl
      | cons b bs =>
          have hb : b = [] := by
            simp only [List.flatten_nil, List.flatten_cons] at hflat
            exact (List.append_eq_nil_iff.mp hflat.symm).1
          exact absurd (hb ▸ h₂ b List.mem_cons_self) hne
  | cons a as ih =>
      intro L₂ h₁ h₂ hflat
      cases L₂ with
      | nil =>
          have ha : a = [] := by
            simp only [List.flatten_nil, List.flatten_cons] at hflat
            exact (List.append_eq_nil_iff.mp hflat).1
          exact absurd (ha ▸ h₁ a List.mem_cons_self) hne
      | cons b bs =>
          simp only [List.flatten_cons] at hflat
          have hab : a = b :=
            h a (h₁ a List.mem_cons_self) b (h₂ b List.mem_cons_self) _ _ hflat
          subst hab
          have hrest : as.flatten = bs.flatten := List.append_cancel_left hflat
          rw [ih bs (fun w hw => h₁ w (List.mem_cons_of_mem a hw))
            (fun w hw => h₂ w (List.mem_cons_of_mem a hw)) hrest]

/-- Words whose own first `n` symbols determine their length are
self-delimiting. -/
theorem selfDelimiting_of_lengthOf (n : Nat) (lengthOf : List α → Nat)
    (hS : ∀ a ∈ S, n ≤ a.length ∧ a.length = lengthOf (a.take n)) :
    SelfDelimiting S := by
  intro a ha b hb x y hxy
  have htake : a.take n = b.take n := by
    have h := congrArg (List.take n) hxy
    rwa [List.take_append_of_le_length (hS a ha).1,
      List.take_append_of_le_length (hS b hb).1] at h
  have hlen : a.length = b.length := by
    rw [(hS a ha).2, (hS b hb).2, htake]
  exact (List.append_inj hxy hlen).1

end PrefixCode
