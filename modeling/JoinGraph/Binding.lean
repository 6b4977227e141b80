/-!
# Bindings

A binding is the number of one relation instance within a query. The root is binding 0; joins are
numbered from 1 in the order they are registered and keep their number for the life of the query.

Sets of bindings are strictly ascending lists, the order in which every answer shows them.
-/

namespace JoinGraph

/-- Position of a relation instance within a query. -/
abbrev Binding := Nat

namespace Binding

/-- The binding of the relation a query starts from. -/
def root : Binding := 0

/-- How messages show a binding. -/
def label (b : Binding) : String := "&" ++ toString b

/-- Add a binding to an ascending list. -/
def insertAscending (b : Binding) : List Binding → List Binding
  | [] => [b]
  | c :: rest =>
    if b < c then b :: c :: rest
    else if b = c then c :: rest
    else c :: insertAscending b rest

/-- The bindings of a list, ascending and once each. -/
def ascending (bs : List Binding) : List Binding :=
  bs.foldl (fun acc b => insertAscending b acc) []

@[simp] theorem mem_insertAscending {a b : Binding} {bs : List Binding} :
    a ∈ insertAscending b bs ↔ a = b ∨ a ∈ bs := by
  induction bs with
  | nil => simp [insertAscending]
  | cons c rest ih =>
    unfold insertAscending
    split
    · simp
    · split
      · subst b; simp
      · simp [ih, or_left_comm]

theorem pairwise_insertAscending {b : Binding} {bs : List Binding} (h : bs.Pairwise (· < ·)) :
    (insertAscending b bs).Pairwise (· < ·) := by
  induction bs with
  | nil => simp [insertAscending]
  | cons c rest ih =>
    obtain ⟨hc, hrest⟩ := List.pairwise_cons.1 h
    unfold insertAscending
    split
    · rename_i hbc
      refine List.pairwise_cons.2 ⟨fun a ha => ?_, h⟩
      rcases List.mem_cons.1 ha with rfl | ha
      · exact hbc
      · exact Nat.lt_trans hbc (hc a ha)
    · split
      · exact h
      · rename_i h1 h2
        refine List.pairwise_cons.2 ⟨fun a ha => ?_, ih hrest⟩
        rcases mem_insertAscending.1 ha with rfl | ha
        · exact Nat.lt_of_le_of_ne (Nat.le_of_not_lt h1) (Ne.symm h2)
        · exact hc a ha

private theorem mem_foldl_insertAscending {a : Binding} {bs acc : List Binding} :
    a ∈ bs.foldl (fun acc b => insertAscending b acc) acc ↔ a ∈ bs ∨ a ∈ acc := by
  induction bs generalizing acc with
  | nil => simp
  | cons b rest ih => simp [ih, or_assoc, or_left_comm]

private theorem pairwise_foldl_insertAscending {bs acc : List Binding}
    (h : acc.Pairwise (· < ·)) :
    (bs.foldl (fun acc b => insertAscending b acc) acc).Pairwise (· < ·) := by
  induction bs generalizing acc with
  | nil => exact h
  | cons b rest ih => exact ih (pairwise_insertAscending h)

@[simp] theorem mem_ascending {a : Binding} {bs : List Binding} : a ∈ ascending bs ↔ a ∈ bs := by
  simp [ascending, mem_foldl_insertAscending]

theorem pairwise_ascending (bs : List Binding) : (ascending bs).Pairwise (· < ·) :=
  pairwise_foldl_insertAscending List.Pairwise.nil

end Binding

end JoinGraph
