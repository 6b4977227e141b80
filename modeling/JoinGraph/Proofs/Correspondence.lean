import Mathlib.Data.List.Forall2

/-!
# Lists That Correspond Item by Item

Where a list is turned into another one item by item, `List.Forall₂` says what each item becomes.
Here are the steps from two lists that correspond to their items, and from the items to a list.
-/

namespace JoinGraph

variable {α β γ : Type} {R : α → β → Prop} {xs : List α} {ys : List β}

theorem exists_right_of_forall₂ (h : List.Forall₂ R xs ys) {x : α} (hx : x ∈ xs) :
    ∃ y ∈ ys, R x y := by
  induction h with
  | nil => cases hx
  | cons hxy _ ih =>
    rcases List.mem_cons.1 hx with rfl | hx
    · exact ⟨_, List.mem_cons_self, hxy⟩
    · obtain ⟨y, hy, hR⟩ := ih hx
      exact ⟨y, List.mem_cons_of_mem _ hy, hR⟩

theorem exists_left_of_forall₂ (h : List.Forall₂ R xs ys) {y : β} (hy : y ∈ ys) :
    ∃ x ∈ xs, R x y :=
  exists_right_of_forall₂ (R := flip R) (List.Forall₂.flip h) hy

theorem map_eq_of_forall₂ {f : α → γ} {g : β → γ} (h : List.Forall₂ R xs ys)
    (hR : ∀ x y, R x y → g y = f x) : ys.map g = xs.map f := by
  induction h with
  | nil => rfl
  | cons hxy _ ih => simp [hR _ _ hxy, ih]

/-- A list has one that corresponds to it, or a first item that corresponds to nothing. -/
theorem forall₂_or_exists_first (R : α → β → Prop) (xs : List α) :
    (∃ ys, List.Forall₂ R xs ys)
      ∨ ∃ before x after ys,
          xs = before ++ x :: after ∧ List.Forall₂ R before ys ∧ ∀ y, ¬R x y := by
  induction xs with
  | nil => exact .inl ⟨[], .nil⟩
  | cons x xs ih =>
    by_cases hx : ∃ y, R x y
    · obtain ⟨y, hy⟩ := hx
      rcases ih with ⟨ys, hys⟩ | ⟨before, z, after, ys, rfl, hbefore, hz⟩
      · exact .inl ⟨y :: ys, .cons hy hys⟩
      · exact .inr ⟨x :: before, z, after, y :: ys, rfl, .cons hy hbefore, hz⟩
    · exact .inr ⟨[], x, xs, [], rfl, .nil, not_exists.1 hx⟩

end JoinGraph
