import JoinGraph.Proofs.Blog
import JoinGraph.Proofs.Catalog.Declarations
import Mathlib.Logic.Relation

/-!
# Catalogs Are What Schemas Declare

A schema gives a catalog exactly when it is valid, and the catalog then answers every lookup as the
schema declares. A schema that is not valid is refused with the first declaration that is wrong;
only when none is, with an association whose target is undeclared, and then with any such
association, as the order of the closing check has it (`Catalog.addSchema_exact`).

## Main definitions

* `Schema.Valid` — the rules a schema has to keep.
* `Catalog.Reflects` — a catalog answers as a schema declares.
-/

namespace JoinGraph

/-- Names are declared once, keys are given where they have no default, and associations lead to
declared relations. -/
structure Schema.Valid (s : Schema) : Prop where
  /-- No relation is declared twice. -/
  relations_nodup : (s.relations.map (·.name)).Nodup
  /-- No relation declares two associations of one name. -/
  associations_nodup : ∀ r ∈ s.relations, (r.associations.map (·.name)).Nodup
  /-- A key on the other side is given. -/
  key_given : ∀ r ∈ s.relations, ∀ d ∈ r.associations, d.kind ≠ .belongsTo → d.relatedKey ≠ none
  /-- Associations lead to declared relations. -/
  target_declared : ∀ r ∈ s.relations, ∀ d ∈ r.associations, ∃ t ∈ s.relations, t.name = d.related

/-- A schema declares an association, and `a` is what the declaration stands for. -/
def Schema.Declares (s : Schema) (relation : RelationName) (name : String) (a : Association) :
    Prop :=
  ∃ r ∈ s.relations, r.name = relation
    ∧ ∃ d ∈ r.associations, d.name = name ∧ d.Denotes relation a

/-- An association of the catalog leads from one relation to another. -/
def Catalog.Leads (c : Catalog) (source target : RelationName) : Prop :=
  ∃ name a, c.association? source name = some a ∧ a.related = target

/-- The catalog answers every lookup as the schema declares. -/
structure Catalog.Reflects (c : Catalog) (s : Schema) : Prop where
  /-- An association is found when it is declared, with the data that the declaration stands for. -/
  association?_iff : ∀ relation name a,
    c.association? relation name = some a ↔ s.Declares relation name a
  /-- Every declared association is found. -/
  association?_isSome_iff : ∀ relation name, (c.association? relation name).isSome = true ↔
    ∃ r ∈ s.relations, r.name = relation ∧ ∃ d ∈ r.associations, d.name = name
  hasField_iff : ∀ relation field, c.hasField relation field = true ↔
    ∃ r ∈ s.relations, r.name = relation ∧ field ∈ r.fields
  contains_iff : ∀ relation, c.contains relation = true ↔ ∃ r ∈ s.relations, r.name = relation
  size_eq : c.size = s.relations.length
  /-- However many associations are followed, they stay among the declared relations. -/
  contains_of_leads : ∀ source target, c.contains source = true →
    Relation.ReflTransGen c.Leads source target → c.contains target = true

namespace Schema

variable {s : Schema}

/-- A schema is valid when nothing is wrong with its declarations and their links. -/
theorem valid_iff (origin : String) :
    s.Valid ↔ Faultless (RelationDecl.Fault origin) s.relations ∧ TargetsDeclared s.relations := by
  rw [RelationDecl.faultless_iff, TargetsDeclared]
  simp only [AssociationDecl.faultless_iff, List.mem_map]
  constructor
  · intro h
    exact ⟨⟨h.relations_nodup, fun r hr => ⟨h.associations_nodup r hr, h.key_given r hr⟩⟩,
      h.target_declared⟩
  · rintro ⟨⟨hnodup, hinside⟩, htarget⟩
    exact {
      relations_nodup := hnodup
      associations_nodup := fun r hr => (hinside r hr).1
      key_given := fun r hr => (hinside r hr).2
      target_declared := htarget }

end Schema

namespace Catalog

variable {c : Catalog} {s : Schema}

/-- In a catalog that holds distinct relations, a relation is found by its name. -/
theorem relation?_eq_some_iff (h : (c.relations.map (·.name)).Nodup) {name : RelationName}
    {r : CatalogRelation} : c.relation? name = some r ↔ r ∈ c.relations ∧ r.name = name :=
  find?_eq_some_iff_of_nodup h

/-- A catalog that holds the relations of a valid schema finds exactly the declared associations. -/
theorem Holds.association?_eq_some_iff (h : c.Holds s.relations) (hv : s.Valid)
    {relation : RelationName} {name : String} {a : Association} :
    c.association? relation name = some a ↔ s.Declares relation name a := by
  have hnodup : (c.relations.map (·.name)).Nodup := by
    rw [h.map_name]
    exact hv.relations_nodup
  rw [association?, Option.bind_eq_some_iff]
  constructor
  · -- What the catalog keeps comes from a declaration, relations as well as associations.
    rintro ⟨r, hfound, ha⟩
    obtain ⟨hr, rfl⟩ := (relation?_eq_some_iff hnodup).1 hfound
    obtain ⟨d, hd, hdr⟩ := exists_left_of_forall₂ h hr
    obtain ⟨b, hb, hba⟩ := exists_left_of_forall₂ hdr.associations (List.mem_of_find?_eq_some ha)
    have hname : a.name = name := by simpa using List.find?_some ha
    rw [← hdr.name] at hba
    exact ⟨d, hd, hdr.name.symm, b, hb, hba.name.symm.trans hname, hba⟩
  · -- What is declared is kept, and found because no other declaration has its name.
    rintro ⟨d, hd, rfl, b, hb, rfl, ha⟩
    obtain ⟨r, hr, hdr⟩ := exists_right_of_forall₂ h hd
    obtain ⟨a', ha', hba⟩ := exists_right_of_forall₂ hdr.associations hb
    obtain rfl := hba.unique ha
    refine ⟨r, (relation?_eq_some_iff hnodup).2 ⟨hr, hdr.name⟩, ?_⟩
    have hinner : (r.associations.map (·.name)).Nodup := by
      rw [map_eq_of_forall₂ hdr.associations fun _ _ hd => AssociationDecl.Denotes.name hd]
      exact hv.associations_nodup d hd
    exact (find?_eq_some_iff_of_nodup hinner).2 ⟨ha', hba.name⟩

/-- A catalog that holds the relations of a valid schema reflects the schema. -/
theorem Holds.reflects (h : c.Holds s.relations) (hv : s.Valid) : c.Reflects s := by
  have hnodup : (c.relations.map (·.name)).Nodup := by
    rw [h.map_name]
    exact hv.relations_nodup
  have hcontains : ∀ relation, c.contains relation = true ↔
      ∃ r ∈ s.relations, r.name = relation := by
    intro relation
    rw [contains_eq_true_iff, h.map_name, List.mem_map]
  have hleads : ∀ source target, c.Leads source target → c.contains target = true := by
    rintro source target ⟨name, a, ha, rfl⟩
    obtain ⟨r, hr, -, d, hd, -, hda⟩ := (h.association?_eq_some_iff hv).1 ha
    rw [hcontains, hda.related]
    exact hv.target_declared r hr d hd
  refine {
    association?_iff := fun _ _ _ => h.association?_eq_some_iff hv
    association?_isSome_iff := fun relation name => ?_
    hasField_iff := fun relation field => ?_
    contains_iff := hcontains
    size_eq := (List.Forall₂.length_eq h).symm
    contains_of_leads := fun source target hsource hpath => ?_ }
  · simp only [Option.isSome_iff_exists, h.association?_eq_some_iff hv]
    constructor
    · rintro ⟨a, r, hr, hname, d, hd, hdname, -⟩
      exact ⟨r, hr, hname, d, hd, hdname⟩
    · rintro ⟨r, hr, hname, d, hd, hdname⟩
      obtain ⟨a, -, ha⟩ := AssociationDecl.exists_resolve_eq_ok relation (hv.key_given r hr d hd)
      exact ⟨a, r, hr, hname, d, hd, hdname, ha⟩
  · rw [hasField]
    constructor
    · intro hfield
      split at hfield
      · rename_i r hfound
        obtain ⟨hr, rfl⟩ := (relation?_eq_some_iff hnodup).1 hfound
        obtain ⟨d, hd, hdr⟩ := exists_left_of_forall₂ h hr
        refine ⟨d, hd, hdr.name.symm, ?_⟩
        rw [← hdr.fields]
        simpa using hfield
      · cases hfield
    · rintro ⟨d, hd, rfl, hfield⟩
      obtain ⟨r, hr, hdr⟩ := exists_right_of_forall₂ h hd
      rw [(relation?_eq_some_iff hnodup).2 ⟨hr, hdr.name⟩]
      simpa [hdr.fields] using hfield
  · -- The last step of a path leads to a declared relation, and the empty path stays at one.
    cases hpath with
    | refl => exact hsource
    | tail _ hstep => exact hleads _ _ hstep

/-- An attempt to load gives a catalog exactly when the schema is valid, and the catalog reflects
the schema. -/
structure Loads (s : Schema) (attempt : Except LoadError Catalog) : Prop where
  exists_eq_ok_iff : (∃ c, attempt = .ok c) ↔ s.Valid
  reflects : ∀ c, attempt = .ok c → c.Reflects s

theorem loads_addSchema (s : Schema) (origin : String) (order : VisitOrder) :
    Loads s ((empty.addSchema s origin).bind (validate order)) := by
  have hloop := reportsFirst_addRelations origin []
  refine ⟨?_, fun c hc => ?_⟩
  · rw [Schema.valid_iff origin]
    exact exists_bind_validate_eq_ok_iff hloop holds_empty
  · obtain ⟨hfaultless, htargets, hholds⟩ := holds_of_bind_validate hloop holds_empty hc
    exact hholds.reflects ((Schema.valid_iff origin).2 ⟨hfaultless, htargets⟩)

theorem ofSchema_eq (s : Schema) (order : VisitOrder) :
    ofSchema s order = (empty.addSchema s inlineOrigin).bind (validate order) := by
  rw [ofSchema]
  cases empty.addSchema s inlineOrigin <;> rfl

/-- Adding a schema to the empty catalog and closing the catalog succeeds exactly when the schema is
valid, and the catalog then reflects the schema. A declaration that is wrong gives its error, the
first one if there are several, and so far the order of the closing check does not matter. When no
declaration is wrong, the errors that some order gives are those of the associations whose target is
undeclared. -/
theorem addSchema_exact (s : Schema) (origin : String) :
    (∀ order, (∃ c, (empty.addSchema s origin).bind (validate order) = .ok c) ↔ s.Valid)
      ∧ (∀ order c, (empty.addSchema s origin).bind (validate order) = .ok c → c.Reflects s)
      ∧ (∀ e, FirstFault (RelationDecl.Fault origin) s.relations e →
          ∀ order, (empty.addSchema s origin).bind (validate order) = .error e)
      ∧ ∀ e, (∃ order, (empty.addSchema s origin).bind (validate order) = .error e) ↔
          Violation (RelationDecl.Fault origin) s.relations s.relations e := by
  have hloop := reportsFirst_addRelations origin []
  exact ⟨fun order => (loads_addSchema s origin order).exists_eq_ok_iff,
    fun order => (loads_addSchema s origin order).reflects,
    fun e he order => bind_validate_eq_error_of_firstFault hloop holds_empty he,
    fun e => exists_bind_validate_eq_error_iff hloop holds_empty⟩

/-- A relation whose author is a user. -/
def authored (name : RelationName) : RelationDecl :=
  ⟨name, [], [⟨"author", .belongsTo, Blog.users, none, none⟩]⟩

theorem faultless_authored (origin : String) :
    Faultless (RelationDecl.Fault origin) [authored Blog.posts, authored Blog.comments] := by
  refine RelationDecl.faultless_iff.2 ⟨by decide, ?_⟩
  simp [authored, AssociationDecl.faultless_iff]

/-- The blog's schema is valid and its catalog reflects it. Declaring everything twice is refused
because of the first relation, in every order. Posts and comments that lead to undeclared users are
not valid, and either of the two may be reported. -/
theorem addSchema_exact_blog :
    Blog.schema.Valid ∧ Blog.catalog.Reflects Blog.schema
      ∧ FirstFault (RelationDecl.Fault "blog.yml") (Blog.schema ++ Blog.schema).relations
          (.duplicateRelation Blog.posts "blog.yml")
      ∧ (∀ order, (empty.addSchema (Blog.schema ++ Blog.schema) "blog.yml").bind (validate order)
          = .error (.duplicateRelation Blog.posts "blog.yml"))
      ∧ ¬(⟨[authored Blog.posts, authored Blog.comments]⟩ : Schema).Valid
      ∧ ∀ owner ∈ [Blog.posts, Blog.comments], ∃ order,
          ofSchema ⟨[authored Blog.posts, authored Blog.comments]⟩ order
            = .error (.unknownRelatedRelation owner "author" Blog.users) := by
  obtain ⟨hvalid, hreflects, -⟩ := addSchema_exact Blog.schema inlineOrigin
  obtain ⟨-, -, htwice, -⟩ := addSchema_exact (Blog.schema ++ Blog.schema) "blog.yml"
  obtain ⟨hvalid', -, -, herrors⟩ :=
    addSchema_exact ⟨[authored Blog.posts, authored Blog.comments]⟩ inlineOrigin
  have hok : (empty.addSchema Blog.schema inlineOrigin).bind (validate .declared)
      = .ok Blog.catalog := by
    rw [← ofSchema_eq]
    exact Blog.ofSchema_schema
  have hfirst : FirstFault (RelationDecl.Fault "blog.yml") (Blog.schema ++ Blog.schema).relations
      (.duplicateRelation Blog.posts "blog.yml") := by
    refine ⟨Blog.schema.relations, _, Blog.schema.relations.tail, rfl, ?_, .repeated (by decide)⟩
    refine RelationDecl.faultless_iff.2 ⟨by decide, ?_⟩
    simp [Blog.schema, AssociationDecl.faultless_iff]
  have hnamed : ∀ owner ∈ [Blog.posts, Blog.comments], ∃ order,
      ofSchema ⟨[authored Blog.posts, authored Blog.comments]⟩ order
        = .error (.unknownRelatedRelation owner "author" Blog.users) := by
    intro owner howner
    simp only [ofSchema_eq]
    refine (herrors _).2 (.closing (faultless_authored inlineOrigin) ?_)
    have hmem : authored owner ∈ [authored Blog.posts, authored Blog.comments] :=
      List.mem_map_of_mem (f := authored) howner
    exact ⟨_, hmem, _, List.mem_singleton_self _, by decide, rfl⟩
  refine ⟨(hvalid .declared).1 ⟨_, hok⟩, hreflects .declared _ hok, hfirst, htwice _ hfirst,
    fun hv => ?_, hnamed⟩
  -- A valid schema is let through in every order, but some order names the author of posts.
  obtain ⟨order, herror⟩ := hnamed Blog.posts (by simp)
  obtain ⟨c, hc⟩ := (hvalid' order).2 hv
  rw [ofSchema_eq, hc] at herror
  cases herror

end Catalog

/-- What is wrong with the declaration of a relation, judged where it stands and together with the
targets of its associations. -/
inductive RelationDecl.FaultInPlace (origin : String) (declared : List RelationName)
    (before : List RelationDecl) (d : RelationDecl) : LoadError → Prop where
  | declaring {e : LoadError} (h : d.Fault origin before e) :
    FaultInPlace origin declared before d e
  | target {a : AssociationDecl} (ha : a ∈ d.associations) (h : a.related ∉ declared) :
    FaultInPlace origin declared before d (.unknownRelatedRelation d.name a.name a.related)

/-- The error need not be the first violation in the order of the declarations. Even if associations
are visited in that order, a relation that is declared again is reported before an association that
stands earlier and leads nowhere; and if nothing is wrong but that associations lead nowhere, some
order of the visits names a later one. -/
theorem Catalog.not_firstFault_inPlace :
    (¬∀ (s : Schema) (origin : String) (e : LoadError),
        (empty.addSchema s origin).bind (validate .declared) = .error e →
        FirstFault (RelationDecl.FaultInPlace origin (s.relations.map (·.name))) s.relations e)
      ∧ ¬∀ (order : VisitOrder) (s : Schema) (origin : String) (e : LoadError),
          Faultless (RelationDecl.Fault origin) s.relations →
          (empty.addSchema s origin).bind (validate order) = .error e →
          FirstFault (RelationDecl.FaultInPlace origin (s.relations.map (·.name)))
            s.relations e := by
  -- In both schemas the posts come first, and their author leads nowhere.
  have hposts : ∀ e, ¬(authored Blog.posts).Fault inlineOrigin [] e :=
    faultless_authored inlineOrigin [] _ _ rfl
  refine ⟨fun h => ?_, fun h => ?_⟩
  · have hrun : (empty.addSchema ⟨[authored Blog.posts, ⟨Blog.posts, [], []⟩]⟩ inlineOrigin).bind
        (validate .declared) = .error (.duplicateRelation Blog.posts inlineOrigin) := rfl
    have hhead := (h _ _ _ hrun).of_head (.target (List.mem_singleton_self _) (by decide))
    cases hhead with
    | declaring hfault => exact hposts _ hfault
  · have hrun : (empty.addSchema ⟨[authored Blog.posts, authored Blog.comments]⟩ inlineOrigin).bind
        (validate (.startingAt Blog.comments "author" Blog.users))
        = .error (.unknownRelatedRelation Blog.comments "author" Blog.users) := rfl
    have hhead := (h _ _ _ _ (faultless_authored _) hrun).of_head
      (.target (List.mem_singleton_self _) (by decide))
    generalize herror : LoadError.unknownRelatedRelation _ _ _ = e at hhead
    cases hhead with
    | declaring hfault => exact hposts _ hfault
    | target _ _ =>
      have howner : Blog.comments = Blog.posts := (LoadError.unknownRelatedRelation.inj herror).1
      exact absurd howner (by decide)

end JoinGraph
