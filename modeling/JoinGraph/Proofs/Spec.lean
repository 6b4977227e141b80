import JoinGraph.Proofs.Correspondence
import JoinGraph.Spec

/-!
# The Grammar of Specifications

Which values are specifications is said twice here, once for each answer of the reader. `Denotes`
relates a value to the specification that it stands for. `Offends` relates any other value to its
first offending node, where items and entries come in the order of the value, a lead before what it
leads, and a key before its value.

The reader does what the two relations say (`reads_of_denotes`, `refuses_of_offends`), and every
value is in one of them (`denotes_or_offends`). The main result is `ofValue_exact`.

## Main definitions

* `Spec.Denotes` — what a value stands for.
* `Spec.Offends` — the first node of a value that is not acceptable, and what is wrong with it.
-/

namespace JoinGraph

/-- To show something of all values, show it of a sequence from its items, of a mapping from the
values of its entries, and of a tagged value without use of what is tagged. -/
@[elab_as_elim]
theorem Value.nodes_induction {motive : Value → Prop} (null : motive .null)
    (bool : ∀ b, motive (.bool b)) (int : ∀ i, motive (.int i)) (float : ∀ x, motive (.float x))
    (string : ∀ text, motive (.string text))
    (sequence : ∀ items, (∀ v ∈ items, motive v) → motive (.sequence items))
    (mapping : ∀ entries, (∀ entry ∈ entries, motive entry.2) → motive (.mapping entries))
    (tagged : ∀ tag v, motive (.tagged tag v)) : ∀ v, motive v
  | .null => null
  | .bool b => bool b
  | .int i => int i
  | .float x => float x
  | .string text => string text
  | .sequence items => sequence items fun v hv =>
    nodes_induction null bool int float string sequence mapping tagged v
  | .mapping entries => mapping entries fun entry hentry => by
    have hentry := List.sizeOf_lt_of_mem hentry
    exact nodes_induction null bool int float string sequence mapping tagged entry.2
  | .tagged tag v => tagged tag v
termination_by v => sizeOf v
decreasing_by
  · have := List.sizeOf_lt_of_mem hv
    simp only [Value.sequence.sizeOf_spec]
    omega
  · obtain ⟨key, v⟩ := entry
    simp only [Value.mapping.sizeOf_spec, Prod.mk.sizeOf_spec] at hentry ⊢
    omega

namespace Spec

/-! ### What a value stands for -/

/-- The entries are those of a lead and what it leads: two entries, under the keys `prefix` and
`spec`, in either order. -/
inductive LeadForm : List (Value × Value) → Value → Value → Prop
  | leadFirst (lead v : Value) : LeadForm [(.string "prefix", lead), (.string "spec", v)] lead v
  | leadLast (lead v : Value) : LeadForm [(.string "spec", v), (.string "prefix", lead)] lead v

/-- An entry stands for an association: its key is a name, tagged or not, and its value stands for
what is nested under the name. -/
inductive Entry (denotes : Value → Spec → Prop) : Value × Value → Spec → Prop
  | mk {key v : Value} {name : String} {sub : Spec} (hkey : key.text? = some name)
      (hname : name ≠ "") (hsub : denotes v sub) : Entry denotes (key, v) (nested name sub)

theorem LeadForm.exists_mem {entries : List (Value × Value)} {lead v : Value}
    (h : LeadForm entries lead v) : ∃ key, (key, v) ∈ entries := by
  cases h <;> exact ⟨.string "spec", by simp⟩

theorem Entry.imp {denotes denotes' : Value → Spec → Prop} {entry : Value × Value} {s : Spec}
    (himp : ∀ sub, denotes entry.2 sub → denotes' entry.2 sub) (h : Entry denotes entry s) :
    Entry denotes' entry s := by
  obtain ⟨hkey, hname, hsub⟩ := h
  exact ⟨hkey, hname, himp _ hsub⟩

/-- A value stands for a specification. -/
inductive Denotes : Value → Spec → Prop
  | relation {name : String} (hname : name ≠ "") : Denotes (.string name) (relation name)
  | seq {items : List Value} {specs : List Spec} (hitems : List.Forall₂ Denotes items specs) :
    Denotes (.sequence items) (seq specs)
  | prefixed {entries : List (Value × Value)} {lead v : Value} {text : String} {sub : Spec}
      (hform : LeadForm entries lead v) (hlead : lead.text? = some text) (hsub : Denotes v sub) :
    Denotes (.mapping entries) (prefixed text sub)
  | association {entry : Value × Value} {s : Spec} (hentry : Entry Denotes entry s) :
    Denotes (.mapping [entry]) s
  /-- Several entries are siblings, unless they are those of a lead. -/
  | associations {entries : List (Value × Value)} {specs : List Spec} (hlength : 2 ≤ entries.length)
      (hform : ∀ lead v, ¬LeadForm entries lead v)
      (hentries : List.Forall₂ (Entry Denotes) entries specs) :
    Denotes (.mapping entries) (Spec.seq specs)

/-- The first node of a value that is not acceptable, by its place in the value and what is wrong
with it. -/
inductive Offends : Value → SpecPlace → SpecFault → Prop
  | null : Offends .null [] .foundNull
  | bool (b : Bool) : Offends (.bool b) [] .foundTruth
  | int (i : Int) : Offends (.int i) [] .foundNumber
  | float (x : Binary64) : Offends (.float x) [] .foundNumber
  | tagged (tag : String) (v : Value) : Offends (.tagged tag v) [] (.foundTagged tag)
  | emptyName : Offends (.string "") [] .emptyName
  | emptyMapping : Offends (.mapping []) [] .emptyMapping
  /-- The items before the offending one are acceptable; nothing is asked of those after it. -/
  | item {before after : List Value} {specs : List Spec} {v : Value} {place : SpecPlace}
      {fault : SpecFault} (hbefore : List.Forall₂ Denotes before specs)
      (hitem : Offends v place fault) :
    Offends (.sequence (before ++ v :: after)) (place ++ [.item before.length]) fault
  /-- The lead is not a string. -/
  | lead {entries : List (Value × Value)} {lead v : Value} (hform : LeadForm entries lead v)
      (hlead : lead.text? = none) : Offends (.mapping entries) [.lead] .leadNotText
  /-- The offending node is in what the lead leads. -/
  | led {entries : List (Value × Value)} {lead v : Value} {text : String} {place : SpecPlace}
      {fault : SpecFault} (hform : LeadForm entries lead v) (hlead : lead.text? = some text)
      (hsub : Offends v place fault) : Offends (.mapping entries) (place ++ [.spec]) fault
  /-- A key that is not a name is an offence of the mapping. -/
  | key {before after : List (Value × Value)} {specs : List Spec} {key v : Value}
      (hform : ∀ lead w, ¬LeadForm (before ++ (key, v) :: after) lead w)
      (hbefore : List.Forall₂ (Entry Denotes) before specs)
      (hkey : key.text? = none ∨ key.text? = some "") :
    Offends (.mapping (before ++ (key, v) :: after)) [] .keyNotName
  | value {before after : List (Value × Value)} {specs : List Spec} {key v : Value} {name : String}
      {place : SpecPlace} {fault : SpecFault}
      (hform : ∀ lead w, ¬LeadForm (before ++ (key, v) :: after) lead w)
      (hbefore : List.Forall₂ (Entry Denotes) before specs) (hkey : key.text? = some name)
      (hname : name ≠ "") (hvalue : Offends v place fault) :
    Offends (.mapping (before ++ (key, v) :: after)) (place ++ [.under name]) fault

variable {items before after : List Value} {entries : List (Value × Value)} {specs : List Spec}
  {lead v : Value} {s : Spec} {place outer : SpecPlace} {fault : SpecFault}
  {e : QueryError}

/-! ### The reader -/

/-- Wherever a value stands, the reader returns the specification. -/
def Reads (v : Value) (s : Spec) : Prop := ∀ outer, ofValueAt outer v = .ok s

/-- Wherever a value stands, the reader refuses the node at a place in it. -/
def Refuses (v : Value) (place : SpecPlace) (fault : SpecFault) : Prop :=
  ∀ outer, ofValueAt outer v = .error (.invalidSpecification (place ++ outer) fault)

/-- After an item that is read the reader goes on with the rest. -/
theorem itemsOfValues_cons {index : Nat} (h : ofValueAt (.item index :: outer) v = .ok s) :
    itemsOfValues outer index (v :: items) =
      (itemsOfValues outer (index + 1) items).map (s :: ·) := by
  rw [itemsOfValues, h]
  cases itemsOfValues outer (index + 1) items <;> rfl

theorem itemsOfValues_of_reads (h : List.Forall₂ Reads items specs) (index : Nat) :
    itemsOfValues outer index items = .ok specs := by
  induction h generalizing index with
  | nil => rfl
  | cons hitem _ ih =>
    rw [itemsOfValues_cons (hitem _), ih]
    rfl

/-- The reader stops at the first item that it refuses. -/
theorem itemsOfValues_of_refuses (hbefore : List.Forall₂ Reads before specs)
    (hitem : Refuses v place fault) (index : Nat) :
    itemsOfValues outer index (before ++ v :: after) = .error
      (.invalidSpecification (place ++ .item (index + before.length) :: outer) fault) := by
  induction hbefore generalizing index with
  | nil =>
    rw [List.nil_append, itemsOfValues, hitem]
    rfl
  | cons hfirst _ ih =>
    rw [List.cons_append, itemsOfValues_cons (hfirst _), ih, List.length_cons, Nat.add_right_comm,
      Nat.add_assoc]
    rfl

/-- After an entry that is read the reader goes on with the rest. -/
theorem entriesOfValues_cons {entry : Value × Value} (h : Entry Reads entry s) :
    entriesOfValues outer (entry :: entries) = (entriesOfValues outer entries).map (s :: ·) := by
  obtain ⟨hkey, hname, hsub⟩ := h
  rw [entriesOfValues, hkey]
  simp only [if_neg hname, hsub _]
  cases entriesOfValues outer entries <;> rfl

theorem entriesOfValues_of_reads (h : List.Forall₂ (Entry Reads) entries specs) :
    entriesOfValues outer entries = .ok specs := by
  induction h with
  | nil => rfl
  | cons hentry _ ih =>
    rw [entriesOfValues_cons hentry, ih]
    rfl

/-- The reader stops at the first entry that it refuses. -/
theorem entriesOfValues_append {first rest : List (Value × Value)}
    (hbefore : List.Forall₂ (Entry Reads) first specs) (h : entriesOfValues outer rest = .error e) :
    entriesOfValues outer (first ++ rest) = .error e := by
  induction hbefore with
  | nil => exact h
  | cons hentry _ ih =>
    rw [List.cons_append, entriesOfValues_cons hentry, ih]
    rfl

/-- A lead and what it leads are read as such. -/
theorem ofValueAt_of_leadForm {text : String} (hform : LeadForm entries lead v)
    (hlead : lead.text? = some text) :
    ofValueAt outer (.mapping entries) = (ofValueAt (.spec :: outer) v).map (prefixed text) := by
  cases hform <;> simp [ofValueAt, hlead]

theorem ofValueAt_of_leadForm_of_none (hform : LeadForm entries lead v)
    (hlead : lead.text? = none) :
    ofValueAt outer (.mapping entries) = refuse (.lead :: outer) .leadNotText := by
  cases hform <;> simp [ofValueAt, hlead]

/-- The entries of any other mapping are read one by one. -/
theorem ofValueAt_mapping (hentries : entries ≠ []) (hform : ∀ lead v, ¬LeadForm entries lead v) :
    ofValueAt outer (.mapping entries) = (entriesOfValues outer entries).map ofEntries := by
  by_cases htexts : ∃ k v l w, entries = [(.string k, v), (.string l, w)]
  · obtain ⟨k, v, l, w, rfl⟩ := htexts
    rw [ofValueAt, if_neg, if_neg]
    · rintro ⟨rfl, rfl⟩
      exact hform w v (.leadLast w v)
    · rintro ⟨rfl, rfl⟩
      exact hform v w (.leadFirst v w)
  · rw [ofValueAt]
    · exact hentries
    · exact fun k v l w h => htexts ⟨k, v, l, w, h⟩

theorem ofEntries_eq_seq (h : 2 ≤ specs.length) : ofEntries specs = seq specs := by
  rcases specs with _ | ⟨s, _ | ⟨t, rest⟩⟩
  · simp at h
  · simp at h
  · rfl

/-! ### The reader and the grammar -/

/-- A value that stands for a specification is read as this specification. -/
theorem reads_of_denotes (v : Value) : ∀ {s}, Denotes v s → Reads v s := by
  induction v using Value.nodes_induction with
  | null => rintro s ⟨⟩
  | bool b => rintro s ⟨⟩
  | int i => rintro s ⟨⟩
  | float x => rintro s ⟨⟩
  | tagged tag v => rintro s ⟨⟩
  | string text =>
    rintro s ⟨hname⟩ outer
    rw [ofValueAt, if_neg hname]
  | sequence items ih =>
    intro s h outer
    cases h with
    | seq hitems =>
      have hreads : List.Forall₂ Reads items _ :=
        ((List.forall₂_and_left _ _).2 ⟨@ih, hitems⟩).imp fun _ _ h => h.1 h.2
      rw [ofValueAt, itemsOfValues_of_reads hreads]
      rfl
  | mapping entries ih =>
    intro s h outer
    cases h with
    | prefixed hform hlead hsub =>
      obtain ⟨key, hmem⟩ := hform.exists_mem
      rw [ofValueAt_of_leadForm hform hlead, ih _ hmem hsub]
      rfl
    | association hentry =>
      have hreads : Entry Reads _ s := hentry.imp fun _ => ih _ (List.mem_singleton_self _)
      rw [ofValueAt_mapping (by simp) (by rintro lead v ⟨⟩),
        entriesOfValues_of_reads (.cons hreads .nil)]
      rfl
    | associations hlength hform hentries =>
      have hreads : List.Forall₂ (Entry Reads) entries _ :=
        ((List.forall₂_and_left _ _).2 ⟨@ih, hentries⟩).imp fun _ _ h => h.2.imp fun _ => h.1
      have hnonempty : entries ≠ [] := by
        rintro rfl
        simp at hlength
      rw [ofValueAt_mapping hnonempty hform, entriesOfValues_of_reads hreads]
      rw [hentries.length_eq] at hlength
      exact congrArg Except.ok (ofEntries_eq_seq hlength)

/-- A value with an offending node is refused at that node. -/
theorem refuses_of_offends (h : Offends v place fault) : Refuses v place fault := by
  induction h with
  | null => exact fun outer => rfl
  | bool b => exact fun outer => rfl
  | int i => exact fun outer => rfl
  | float x => exact fun outer => rfl
  | tagged tag v => exact fun outer => rfl
  | emptyName => exact fun outer => rfl
  | emptyMapping => exact fun outer => rfl
  | item hbefore _ ih =>
    intro outer
    have hreads := hbefore.imp fun _ _ => reads_of_denotes _
    rw [ofValueAt, itemsOfValues_of_refuses hreads ih, Nat.zero_add, List.append_assoc]
    rfl
  | lead hform hlead =>
    intro outer
    rw [ofValueAt_of_leadForm_of_none hform hlead]
    rfl
  | led hform hlead _ ih =>
    intro outer
    rw [ofValueAt_of_leadForm hform hlead, ih, List.append_assoc]
    rfl
  | key hform hbefore hkey =>
    intro outer
    have hreads := hbefore.imp fun _ _ h => h.imp fun _ => reads_of_denotes _
    rw [ofValueAt_mapping (by simp) hform, entriesOfValues_append hreads]
    · rfl
    · rcases hkey with hkey | hkey <;> simp [entriesOfValues, hkey, refuse]
  | value hform hbefore hkey hname _ ih =>
    intro outer
    have hreads := hbefore.imp fun _ _ h => h.imp fun _ => reads_of_denotes _
    rw [ofValueAt_mapping (by simp) hform, entriesOfValues_append hreads]
    · rfl
    · rw [entriesOfValues, hkey]
      simp only [if_neg hname, ih _, List.append_assoc]
      rfl

/-- Entries other than a lead and what it leads stand for associations, or one of them offends. -/
theorem denotes_or_offends_of_entries (hform : ∀ lead v, ¬LeadForm entries lead v)
    (ih : ∀ entry ∈ entries,
      (∃ s, Denotes entry.2 s) ∨ ∃ place fault, Offends entry.2 place fault) :
    (∃ s, Denotes (.mapping entries) s)
      ∨ ∃ place fault, Offends (.mapping entries) place fault := by
  rcases forall₂_or_exists_first (Entry Denotes) entries with
    ⟨specs, hspecs⟩ | ⟨before, ⟨key, v⟩, after, specs, rfl, hbefore, hentry⟩
  · -- The number of entries says what they stand for.
    cases hspecs with
    | nil => exact .inr ⟨_, _, .emptyMapping⟩
    | cons hfirst hrest =>
      cases hrest with
      | nil => exact .inl ⟨_, .association hfirst⟩
      | cons hsecond hrest =>
        exact .inl ⟨_, .associations (by simp) hform (.cons hfirst (.cons hsecond hrest))⟩
  · right
    cases hkey : key.text? with
    | none => exact ⟨_, _, .key hform hbefore (.inl hkey)⟩
    | some name =>
      by_cases hname : name = ""
      · exact ⟨_, _, .key hform hbefore (.inr (hname ▸ hkey))⟩
      -- With a name for a key, an entry stands for nothing because its value does.
      · rcases ih (key, v) (by simp) with ⟨s, hs⟩ | ⟨place, fault, hv⟩
        · exact absurd ⟨hkey, hname, hs⟩ (hentry _)
        · exact ⟨_, _, .value hform hbefore hkey hname hv⟩

/-- Every value stands for a specification or has an offending node. -/
theorem denotes_or_offends (v : Value) :
    (∃ s, Denotes v s) ∨ ∃ place fault, Offends v place fault := by
  induction v using Value.nodes_induction with
  | null => exact .inr ⟨_, _, .null⟩
  | bool b => exact .inr ⟨_, _, .bool b⟩
  | int i => exact .inr ⟨_, _, .int i⟩
  | float x => exact .inr ⟨_, _, .float x⟩
  | tagged tag v => exact .inr ⟨_, _, .tagged tag v⟩
  | string text =>
    by_cases htext : text = ""
    · subst htext
      exact .inr ⟨_, _, .emptyName⟩
    · exact .inl ⟨_, .relation htext⟩
  | sequence items ih =>
    rcases forall₂_or_exists_first Denotes items with
      ⟨specs, hspecs⟩ | ⟨before, v, after, specs, rfl, hbefore, hitem⟩
    · exact .inl ⟨_, .seq hspecs⟩
    · obtain ⟨place, fault, hv⟩ := (ih v (by simp)).resolve_left (not_exists.2 hitem)
      exact .inr ⟨_, _, .item hbefore hv⟩
  | mapping entries ih =>
    by_cases hform : ∃ lead v, LeadForm entries lead v
    · obtain ⟨lead, v, hform⟩ := hform
      obtain ⟨key, hmem⟩ := hform.exists_mem
      cases hlead : lead.text? with
      | none => exact .inr ⟨_, _, .lead hform hlead⟩
      | some text =>
        rcases ih _ hmem with ⟨sub, hsub⟩ | ⟨place, fault, hv⟩
        · exact .inl ⟨_, .prefixed hform hlead hsub⟩
        · exact .inr ⟨_, _, .led hform hlead hv⟩
    · refine denotes_or_offends_of_entries (fun lead v h => ?_) ih
      exact hform ⟨lead, v, h⟩

theorem ofValue_of_offends (h : Offends v place fault) :
    ofValue v = .error (.invalidSpecification place fault) := by
  rw [ofValue, refuses_of_offends h, List.append_nil]

theorem ofValue_eq_ok_iff : ofValue v = .ok s ↔ Denotes v s := by
  refine ⟨fun h => ?_, fun h => reads_of_denotes v h []⟩
  rcases denotes_or_offends v with ⟨s', hs'⟩ | ⟨place, fault, hv⟩
  · obtain rfl := Except.ok.inj (h.symm.trans (reads_of_denotes v hs' []))
    exact hs'
  · cases h.symm.trans (ofValue_of_offends hv)

/-- The second of the siblings under an association is not acceptable. -/
example :
    (ofValue (.mapping [(.string "comments", .sequence [.string "author", .int 42])])).mapError
        QueryError.message
      = .error ("[QE001] Invalid nested specification at $.comments[1]: "
        ++ "expected an association, sequence, or mapping, found a number") := by
  rfl

end Spec

end JoinGraph
