import JoinGraph.Proofs.Expansion.Faults
import JoinGraph.Proofs.Spec

/-!
# Specifications That Can Be Written

A specification can be written as a value when every association in it has a name. `Named` says so,
whatever the leads and the names are: a lead may be empty, and an association may be called `prefix`
or `spec`, since a mapping with that one key is no lead.

The main result is `ofValue_named`: the values that the reader accepts write the named
specifications and no others, so an expansion never stops at a node without a name when its
specification was read from a value.

## Main definitions

* `Spec.Named` — every association in a specification has a name.
-/

namespace JoinGraph

namespace Spec

/-- Every association in the specification has a name. -/
inductive Named : Spec → Prop
  | relation {name : String} (hname : name ≠ "") : Named (relation name)
  | seq {items : List Spec} (hitems : ∀ item ∈ items, Named item) : Named (seq items)
  | nested {name : String} {sub : Spec} (hname : name ≠ "") (hsub : Named sub) :
    Named (nested name sub)
  | prefixed {lead : String} {sub : Spec} (hsub : Named sub) : Named (prefixed lead sub)

variable {s : Spec} {v : Value} {items : List Spec} {denotes : Value → Spec → Prop}

/-! ### What is written is read -/

theorem forall₂_itemsToValues (h : ∀ item ∈ items, denotes item.toValue item) :
    List.Forall₂ denotes (itemsToValues items) items := by
  induction items with
  | nil => exact .nil
  | cons item rest ih =>
    exact .cons (h item (by simp)) (ih fun item hitem => h item (List.mem_cons_of_mem _ hitem))

/-- The writing of a named specification stands for it. -/
theorem Named.denotes_toValue (h : s.Named) : Denotes s.toValue s := by
  induction h with
  | relation hname => exact .relation hname
  | seq _ ih => exact .seq (forall₂_itemsToValues ih)
  | nested hname _ ih => exact .association ⟨rfl, hname, ih⟩
  | prefixed _ ih => exact .prefixed (.leadFirst _ _) rfl ih

/-! ### What is read is named -/

/-- Where a value stands for siblings, there is one that stands for each of them. -/
theorem exists_denotes_of_mem (h : Denotes v (.seq items)) {item : Spec} (hitem : item ∈ items) :
    ∃ w, Denotes w item := by
  cases h with
  | seq hitems =>
    obtain ⟨w, -, hw⟩ := exists_left_of_forall₂ hitems hitem
    exact ⟨w, hw⟩
  | association hentry => cases hentry
  -- An entry on its own is a mapping that stands for the same association.
  | associations hlength hform hentries =>
    obtain ⟨entry, -, hentry⟩ := exists_left_of_forall₂ hentries hitem
    exact ⟨.mapping [entry], .association hentry⟩

/-- What a value stands for is named. -/
theorem named_of_denotes : ∀ (s : Spec) {v : Value}, Denotes v s → s.Named
  | .relation name, v, h => by
    cases h with
    | relation hname => exact .relation hname
    | association hentry => cases hentry
  | .seq items, v, h => by
    refine .seq fun item hitem => ?_
    obtain ⟨w, hw⟩ := exists_denotes_of_mem h hitem
    exact named_of_denotes item hw
  | .nested name sub, v, h => by
    cases h with
    | association hentry =>
      obtain ⟨hkey, hname, hsub⟩ := hentry
      exact .nested hname (named_of_denotes sub hsub)
  | .prefixed lead sub, v, h => by
    cases h with
    | prefixed hform hlead hsub => exact .prefixed (named_of_denotes sub hsub)
    | association hentry => cases hentry

/-! ### Named specifications in an expansion -/

theorem exists_of_mem_itemVisitsBelow {around : Option String} {lead : String} {w : Visit}
    {index : Nat} (h : w ∈ itemVisitsBelow around lead index items) :
    ∃ item ∈ items, ∃ v ∈ item.visitsBelow around lead, w.name = v.name := by
  induction items generalizing index with
  | nil => simp [itemVisitsBelow] at h
  | cons item rest ih =>
    rw [itemVisitsBelow, List.mem_append, List.mem_map] at h
    rcases h with ⟨v, hv, rfl⟩ | hw
    · exact ⟨item, by simp, v, hv, rfl⟩
    · obtain ⟨item', hitem', hv⟩ := ih hw
      exact ⟨item', List.mem_cons_of_mem _ hitem', hv⟩

/-- The association nodes of a named specification have names. -/
theorem Named.name_ne (h : s.Named) {around : Option String} {lead : String} {v : Visit}
    (hv : v ∈ s.visitsBelow around lead) : v.name ≠ "" := by
  induction h generalizing around lead v with
  | relation hname =>
    obtain rfl := List.mem_singleton.1 hv
    exact hname
  | seq _ ih =>
    obtain ⟨item, hitem, w, hw, hname⟩ := exists_of_mem_itemVisitsBelow hv
    exact hname ▸ ih item hitem hw
  | nested hname _ ih =>
    rw [visitsBelow, List.mem_cons, List.mem_map] at hv
    rcases hv with rfl | ⟨w, hw, rfl⟩
    · exact hname
    · exact ih (v := w) hw
  | prefixed _ ih =>
    rw [visitsBelow, List.mem_map] at hv
    obtain ⟨w, hw, rfl⟩ := hv
    exact ih (v := w) hw

/-- The expansion of a named specification does not fail at the specification. -/
theorem Named.expand_ne (h : s.Named) (q : Query) (e : Expander) (place : SpecPlace)
    (fault : SpecFault) : q.expand e s ≠ .error (.invalidSpecification place fault) := by
  intro herror
  obtain ⟨before, v, after, hsplit, -, r, -, hv⟩ := Query.expand_eq_error_iff.1 herror
  cases hv with
  | unnamed hname => exact h.name_ne (hsplit ▸ List.mem_append_cons_self) hname

/-- The values that the reader accepts write the named specifications and no others, and a
specification that was read is expanded without a fault of its own. -/
theorem ofValue_named :
    (∀ s, s.Named → ofValue s.toValue = .ok s)
      ∧ ∀ v s, ofValue v = .ok s → s.Named
        ∧ ∀ (q : Query) (e : Expander) (place : SpecPlace) (fault : SpecFault),
            q.expand e s ≠ .error (.invalidSpecification place fault) := by
  refine ⟨fun s hs => ofValue_eq_ok_iff.2 hs.denotes_toValue, fun v s h => ?_⟩
  have hs := named_of_denotes s (ofValue_eq_ok_iff.1 h)
  exact ⟨hs, hs.expand_ne⟩

/-- An association called `prefix` is not taken for a lead. -/
example : ofValue (prefixed "" (nested "prefix" (relation "spec"))).toValue
    = .ok (prefixed "" (nested "prefix" (relation "spec"))) := by
  rfl

end Spec

end JoinGraph
