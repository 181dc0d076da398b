import MDCMotorControl.Library.LinkedCells
import Mathlib.Data.Finset.Card
import Mathlib.Data.List.Nodup

/-!
# Reference counts

Cells that point to one another and count the pointers to themselves.  Each live cell is
pointed to by other live cells and held from outside some number of times; its count is
the sum of the two.  While a reference is being dropped it is *due*: no longer there, but
still on the count of the cell that it pointed to.

Dropping the due reference of a cell either lowers its count or, where the count was one,
frees the cell, and then the pointer of the freed cell is due.  Since walks end, no cell
stays live that cannot be reached from a held one.
-/

namespace LinkedCells

universe u

variable {β : Type u} [DecidableEq β] {next next' : β → Option β}
  {count count' held held' : β → ℕ} {live : Finset β} {due v : Option β} {b e p t : β}
  {xs : List β}

/-- How many live cells point to a cell. -/
def pointers (next : β → Option β) (live : Finset β) (b : β) : ℕ :=
  (live.filter fun a => next a = some b).card

theorem pointers_eq_zero : pointers next live b = 0 ↔ ∀ a ∈ live, next a ≠ some b := by
  rw [pointers, Finset.card_eq_zero, Finset.filter_eq_empty_iff]

theorem pointers_congr (h : ∀ a ∈ live, next' a = next a) :
    pointers next' live b = pointers next live b := by
  unfold pointers
  congr 1
  exact Finset.filter_congr fun a ha => by rw [h a ha]

/-- A cell that is taken away takes its own pointer with it. -/
theorem pointers_erase (next : β → Option β) (b : β) (hp : p ∈ live) :
    pointers next live b =
      pointers next (live.erase p) b + if next p = some b then 1 else 0 := by
  have hnot : p ∉ (live.erase p).filter fun a => next a = some b := by simp
  unfold pointers
  rw [← Finset.insert_erase hp, Finset.filter_insert, Finset.insert_erase hp]
  split
  · rw [Finset.card_insert_of_notMem hnot]
  · rfl

/-- A changed pointer leaves the cell it pointed to and reaches the one it points to. -/
theorem pointers_change (he : e ∈ live) (hne : ∀ a ∈ live, a ≠ e → next' a = next a) :
    pointers next' live b + (if next e = some b then 1 else 0) =
      pointers next live b + if next' e = some b then 1 else 0 := by
  have hrest : pointers next' (live.erase e) b = pointers next (live.erase e) b :=
    pointers_congr fun a ha => hne a (Finset.mem_of_mem_erase ha) (Finset.ne_of_mem_erase ha)
  rw [pointers_erase next' b he, pointers_erase next b he, hrest]
  omega

/-- Every live cell leads to live cells only, along a walk that ends; its count is positive
and is the number of pointers to it, from live cells and from outside, the due one
included. -/
structure Counted (next : β → Option β) (count held : β → ℕ) (live : Finset β)
    (due : Option β) : Prop where
  closed : ∀ b ∈ live, ∀ t, next b = some t → t ∈ live
  ends : ∀ b ∈ live, ∃ xs, Linked next (some b) xs
  counted : ∀ b ∈ live,
    count b = held b + pointers next live b + if due = some b then 1 else 0
  positive : ∀ b ∈ live, 0 < count b
  held_live : ∀ b, 0 < held b → b ∈ live
  due_live : ∀ b, due = some b → b ∈ live

namespace Counted

theorem mem_walk (h : Counted next count held live due) (hb : b ∈ live)
    (hxs : Linked next (some b) xs) : ∀ x ∈ xs, x ∈ live :=
  hxs.mem_of_closed h.closed fun _ ha => Option.some.inj ha ▸ hb

/-- A single pointer from outside: no live cell points to the cell. -/
theorem not_pointed (h : Counted next count held live due) (hb : b ∈ live)
    (hcount : count b = 1) (hother : 0 < held b ∨ due = some b) :
    ∀ a ∈ live, next a ≠ some b := by
  refine pointers_eq_zero.mp ?_
  have hsum := h.counted b hb
  rcases hother with hheld | hdue
  · omega
  · rw [if_pos hdue] at hsum
    omega

/-- A single pointer from a live cell: the cell is not held, and no other cell points
to it. -/
theorem sole_pointer (h : Counted next count held live due) (he : e ∈ live)
    (hnext : next e = some b) (hcount : count b = 1) :
    held b = 0 ∧ ∀ a ∈ live, next a = some b → a = e := by
  have hsum := h.counted b (h.closed e he b hnext)
  have herase := pointers_erase next b he
  rw [if_pos hnext] at herase
  refine ⟨by omega, fun a ha hpoints => ?_⟩
  have hzero : pointers next (live.erase e) b = 0 := by omega
  by_contra hne
  exact pointers_eq_zero.mp hzero a (Finset.mem_erase.mpr ⟨hne, ha⟩) hpoints

/-- One more hold on a live cell. -/
theorem take (h : Counted next count held live due) (hb : b ∈ live)
    (hcount : count' b = count b + 1) (hheld : held' b = held b + 1)
    (hne : ∀ a, a ≠ b → count' a = count a ∧ held' a = held a) :
    Counted next count' held' live due where
  closed := h.closed
  ends := h.ends
  counted a ha := by
    have hsum := h.counted a ha
    by_cases heq : a = b
    · subst heq
      omega
    · rw [(hne a heq).1, (hne a heq).2, hsum]
  positive a ha := by
    have hpos := h.positive a ha
    by_cases heq : a = b
    · subst heq
      omega
    · rwa [(hne a heq).1]
  held_live a ha := by
    by_cases heq : a = b
    · rwa [heq]
    · exact h.held_live a (by rwa [(hne a heq).2] at ha)
  due_live := h.due_live

/-- A hold that is given up is due. -/
theorem give (h : Counted next count held live none) (hb : held b = held' b + 1)
    (hne : ∀ a, a ≠ b → held' a = held a) : Counted next count held' live (some b) where
  closed := h.closed
  ends := h.ends
  counted a ha := by
    have hsum := h.counted a ha
    rw [if_neg (by simp)] at hsum
    by_cases heq : a = b
    · subst heq
      rw [if_pos rfl]
      omega
    · rw [if_neg fun hsome => heq (Option.some.inj hsome).symm, hne a heq]
      exact hsum
  positive := h.positive
  held_live a ha := by
    by_cases heq : a = b
    · subst heq
      exact h.held_live a (by omega)
    · exact h.held_live a (by rwa [hne a heq] at ha)
  due_live a ha := by
    obtain rfl := Option.some.inj ha
    exact h.held_live b (by omega)

/-- The due reference comes off a count that others keep up. -/
theorem drop (h : Counted next count held live (some p)) (hcount : count p = count' p + 1)
    (hpos : 0 < count' p) (hne : ∀ a, a ≠ p → count' a = count a) :
    Counted next count' held live none where
  closed := h.closed
  ends := h.ends
  counted a ha := by
    have hsum := h.counted a ha
    by_cases heq : a = p
    · subst heq
      rw [if_pos rfl] at hsum
      rw [if_neg (by simp)]
      omega
    · rw [if_neg fun hsome => heq (Option.some.inj hsome).symm] at hsum
      rw [if_neg (by simp), hne a heq]
      exact hsum
  positive a ha := by
    by_cases heq : a = p
    · rwa [heq]
    · rw [hne a heq]
      exact h.positive a ha
  held_live := h.held_live
  due_live a ha := absurd ha (by simp)

/-- A cell whose only reference is due is freed, and its own pointer is due then. -/
theorem free (h : Counted next count held live (some p)) (hcount : count p = 1)
    (hnext : ∀ a ∈ live.erase p, next' a = next a)
    (hcount' : ∀ a ∈ live.erase p, count' a = count a) :
    Counted next' count' held (live.erase p) (next p) := by
  have hp : p ∈ live := h.due_live p rfl
  have halone : ∀ a ∈ live, next a ≠ some p := h.not_pointed hp hcount (.inr rfl)
  have hkeep : ∀ a ∈ live, ∀ t, next a = some t → t ∈ live.erase p := fun a ha t ht =>
    Finset.mem_erase.mpr ⟨fun heq => halone a ha (heq ▸ ht), h.closed a ha t ht⟩
  refine ⟨fun a ha t ht => ?_, fun a ha => ?_, fun a ha => ?_, fun a ha => ?_, fun a ha => ?_,
    fun t ht => hkeep p hp t ht⟩
  · rw [hnext a ha] at ht
    exact hkeep a (Finset.mem_of_mem_erase ha) t ht
  · obtain ⟨xs, hxs⟩ := h.ends a (Finset.mem_of_mem_erase ha)
    have hmem : ∀ x ∈ xs, x ∈ live.erase p :=
      hxs.mem_of_closed (fun b hb => hkeep b (Finset.mem_of_mem_erase hb))
        fun b hb => Option.some.inj hb ▸ ha
    exact ⟨xs, hxs.congr fun x hx => hnext x (hmem x hx)⟩
  · have hsum := h.counted a (Finset.mem_of_mem_erase ha)
    rw [if_neg fun hsome => Finset.ne_of_mem_erase ha (Option.some.inj hsome).symm,
      pointers_erase _ _ hp] at hsum
    rw [hcount' a ha, pointers_congr hnext, hsum]
    omega
  · rw [hcount' a ha]
    exact h.positive a (Finset.mem_of_mem_erase ha)
  · refine Finset.mem_erase.mpr ⟨?_, h.held_live a ha⟩
    rintro rfl
    have hsum := h.counted a hp
    rw [if_pos rfl] at hsum
    omega

/-- A cell that pointed nowhere is pointed at a held cell that does not lead back to it, and
the hold goes over into the pointer. -/
theorem link (h : Counted next count held live none) (he : e ∈ live) (hend : next e = none)
    (hnext : next' e = some t) (hheld : held t = held' t + 1)
    (hacyclic : ∀ xs, Linked next (some t) xs → e ∉ xs)
    (hne : ∀ a, a ≠ e → next' a = next a) (hne' : ∀ a, a ≠ t → held' a = held a) :
    Counted next' count held' live none := by
  have ht : t ∈ live := h.held_live t (by omega)
  have hupdate : next' = Function.update next e (some t) := by
    funext a
    by_cases heq : a = e
    · rw [heq, hnext, Function.update_self]
    · rw [hne a heq, Function.update_of_ne heq]
  refine ⟨fun a ha u hu => ?_, fun a ha => ?_, fun a ha => ?_, h.positive, fun a ha => ?_,
    fun a ha => absurd ha (by simp)⟩
  · by_cases heq : a = e
    · rw [heq, hnext] at hu
      exact Option.some.inj hu ▸ ht
    · exact h.closed a ha u (by rwa [hne a heq] at hu)
  · obtain ⟨xs, hxs⟩ := h.ends a ha
    obtain ⟨ys, hys⟩ := h.ends t ht
    by_cases hmem : e ∈ xs
    · obtain ⟨pre, rfl⟩ := hxs.eq_concat hmem hend
      exact ⟨_, hupdate ▸ hxs.append hys (hacyclic ys hys)⟩
    · exact ⟨xs, hxs.congr fun x hx => hne x (ne_of_mem_of_not_mem hx hmem)⟩
  · have hsum := h.counted a ha
    have hchange := pointers_change (b := a) he fun c _ hc => hne c hc
    rw [hend, hnext, if_neg (by simp)] at hchange
    rw [if_neg (by simp)] at hsum ⊢
    by_cases heq : a = t
    · subst heq
      rw [if_pos rfl] at hchange
      omega
    · rw [if_neg fun hsome => heq (Option.some.inj hsome).symm] at hchange
      rw [hne' a heq]
      omega
  · by_cases heq : a = t
    · rwa [heq]
    · exact h.held_live a (by rwa [hne' a heq] at ha)

/-- A pointer that is removed is due. -/
theorem cut (h : Counted next count held live none) (he : e ∈ live)
    (hnext : next' e = none) (hne : ∀ a, a ≠ e → next' a = next a) :
    Counted next' count held live (next e) := by
  have hupdate : next' = Function.update next e none := by
    funext a
    by_cases heq : a = e
    · rw [heq, hnext, Function.update_self]
    · rw [hne a heq, Function.update_of_ne heq]
  refine ⟨fun a ha u hu => ?_, fun a ha => ?_, fun a ha => ?_, h.positive, h.held_live,
    fun t ht => h.closed e he t ht⟩
  · by_cases heq : a = e
    · rw [heq, hnext] at hu
      exact absurd hu (by simp)
    · exact h.closed a ha u (by rwa [hne a heq] at hu)
  · obtain ⟨xs, hxs⟩ := h.ends a ha
    obtain ⟨ys, hys⟩ := hxs.cut e
    exact ⟨ys, hupdate ▸ hys⟩
  · have hsum := h.counted a ha
    have hchange := pointers_change (b := a) he fun c _ hc => hne c hc
    rw [hnext] at hchange
    rw [if_neg (by simp)] at hsum
    rw [if_neg (by simp : ¬(none : Option β) = some a)] at hchange
    omega

/-- A cell comes to life, pointing nowhere and held once. -/
theorem alloc (h : Counted next count held live none) (hb : b ∉ live)
    (hnext : next' b = none) (hcount : count' b = 1) (hheld : held' b = held b + 1)
    (hne : ∀ a, a ≠ b → next' a = next a ∧ count' a = count a ∧ held' a = held a) :
    Counted next' count' held' (insert b live) none := by
  have hfree : held b = 0 := by
    by_contra hpos
    exact hb (h.held_live b (Nat.pos_of_ne_zero hpos))
  have hlive : ∀ a ∈ live, a ≠ b := fun a ha => ne_of_mem_of_not_mem ha hb
  have hpointers : ∀ a, pointers next' (insert b live) a = pointers next live a := by
    intro a
    rw [pointers_erase _ _ (Finset.mem_insert_self b live), hnext, if_neg (by simp),
      Finset.erase_insert hb]
    exact pointers_congr fun c hc => (hne c (hlive c hc)).1
  have hunpointed : pointers next live b = 0 :=
    pointers_eq_zero.mpr fun a ha heq => hb (h.closed a ha b heq)
  refine ⟨fun a ha t ht => ?_, fun a ha => ?_, fun a ha => ?_, fun a ha => ?_, fun a ha => ?_,
    fun a ha => absurd ha (by simp)⟩
  · rcases Finset.mem_insert.mp ha with rfl | hmem
    · rw [hnext] at ht
      exact absurd ht (by simp)
    · rw [(hne a (hlive a hmem)).1] at ht
      exact Finset.mem_insert_of_mem (h.closed a hmem t ht)
  · rcases Finset.mem_insert.mp ha with rfl | hmem
    · exact ⟨[a], by simp [hnext]⟩
    · obtain ⟨xs, hxs⟩ := h.ends a hmem
      exact ⟨xs, hxs.congr fun x hx => (hne x (hlive x (h.mem_walk hmem hxs x hx))).1⟩
  · rw [hpointers, if_neg (by simp)]
    rcases Finset.mem_insert.mp ha with rfl | hmem
    · omega
    · obtain ⟨-, hcount', hheld'⟩ := hne a (hlive a hmem)
      have hsum := h.counted a hmem
      rw [if_neg (by simp)] at hsum
      rw [hcount', hheld', hsum]
  · rcases Finset.mem_insert.mp ha with rfl | hmem
    · omega
    · rw [(hne a (hlive a hmem)).2.1]
      exact h.positive a hmem
  · by_cases heq : a = b
    · rw [heq]
      exact Finset.mem_insert_self b live
    · rw [(hne a heq).2.2] at ha
      exact Finset.mem_insert_of_mem (h.held_live a ha)

theorem length_walk_le (h : Counted next count held live due) (hb : b ∈ live)
    (hxs : Linked next (some b) xs) : xs.length ≤ live.card := by
  rw [← List.toFinset_card_of_nodup hxs.nodup]
  exact Finset.card_le_card fun x hx => h.mem_walk hb hxs x (List.mem_toFinset.mp hx)

/-- A live cell that is not held is pointed to. -/
theorem exists_pointer (h : Counted next count held live none) (hb : b ∈ live)
    (hheld : ¬0 < held b) : ∃ a ∈ live, next a = some b := by
  by_contra hnone
  have hzero : pointers next live b = 0 :=
    pointers_eq_zero.mpr fun a ha heq => hnone ⟨a, ha, heq⟩
  have hsum := h.counted b hb
  have hpos := h.positive b hb
  rw [if_neg (by simp)] at hsum
  omega

/-- Nothing leaks: every live cell lies on a walk from a held one. -/
theorem reachable (h : Counted next count held live none) (hb : b ∈ live) :
    ∃ a xs, 0 < held a ∧ Linked next (some a) xs ∧ b ∈ xs := by
  -- back along the pointers: the walk grows with each of them, up to all live cells
  obtain ⟨xs, hxs⟩ := h.ends b hb
  induction hn : live.card - xs.length generalizing b xs with
  | zero =>
      by_contra hnone
      obtain ⟨a, ha, hnext⟩ := h.exists_pointer hb fun hheld =>
        hnone ⟨b, xs, hheld, hxs, hxs.head_mem⟩
      have hlonger : Linked next (some a) (a :: xs) := ⟨rfl, by rwa [hnext]⟩
      have hlength := h.length_walk_le ha hlonger
      rw [List.length_cons] at hlength
      omega
  | succ n ih =>
      by_cases hheld : 0 < held b
      · exact ⟨b, xs, hheld, hxs, hxs.head_mem⟩
      · obtain ⟨a, ha, hnext⟩ := h.exists_pointer hb hheld
        have hlonger : Linked next (some a) (a :: xs) := ⟨rfl, by rwa [hnext]⟩
        obtain ⟨r, ys, hr, hys, hmem⟩ := ih ha (a :: xs) hlonger (by
          rw [List.length_cons]
          omega)
        exact ⟨r, ys, hr, hys, hys.mem_of_next hmem hnext⟩

end Counted
end LinkedCells
