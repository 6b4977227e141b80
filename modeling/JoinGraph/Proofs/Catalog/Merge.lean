import JoinGraph.Catalog.Load
import JoinGraph.Proofs.Catalog.Exact

/-!
# Merging Schema Files

Files are added one after the other and the targets of associations are looked at once, after the
last file. Loading files is therefore loading what they declare together, and their order decides
nothing but the error (`Catalog.loadAll_merges`).

## Main definitions

* `Catalog.declared` — what files declare together.
* `Catalog.FileFault` — what can be wrong with a file that comes after others.
* `Catalog.SameAnswers`, `Catalog.Agree` — catalogs and attempts to load that no lookup can tell
  apart.
-/

namespace JoinGraph.Catalog

variable {files : FileTree} {paths : List String} {order order' : VisitOrder} {c d : Catalog}
  {s t : Schema}

/-! ## Catalogs that answer alike -/

/-- Two catalogs give the same answer to every lookup. -/
structure SameAnswers (c d : Catalog) : Prop where
  association? : ∀ relation name, c.association? relation name = d.association? relation name
  hasField : ∀ relation field, c.hasField relation field = d.hasField relation field
  contains : ∀ relation, c.contains relation = d.contains relation
  size : c.size = d.size

/-- Two attempts to load both give a catalog, and the catalogs answer alike, or neither does. -/
structure Agree (first second : Except LoadError Catalog) : Prop where
  exists_eq_ok_iff : (∃ c, first = .ok c) ↔ ∃ d, second = .ok d
  sameAnswers : ∀ c d, first = .ok c → second = .ok d → SameAnswers c d

/-- Catalogs that reflect the same declarations, in whatever order, answer alike. -/
theorem Reflects.sameAnswers (hc : c.Reflects s) (hd : d.Reflects t)
    (h : s.relations.Perm t.relations) : SameAnswers c d where
  association? relation name := by
    refine Option.ext fun a => ?_
    rw [hc.association?_iff, hd.association?_iff, Schema.Declares, Schema.Declares]
    simp only [h.mem_iff]
  hasField relation field := by
    rw [Bool.eq_iff_iff, hc.hasField_iff, hd.hasField_iff]
    simp only [h.mem_iff]
  contains relation := by
    rw [Bool.eq_iff_iff, hc.contains_iff, hd.contains_iff]
    simp only [h.mem_iff]
  size := by rw [hc.size_eq, hd.size_eq, h.length_eq]

/-- A schema stays valid when its relations are declared in another order. -/
theorem valid_of_perm (h : s.relations.Perm t.relations) (hs : s.Valid) : t.Valid where
  relations_nodup := (h.map _).nodup_iff.1 hs.relations_nodup
  associations_nodup r hr := hs.associations_nodup r (h.mem_iff.2 hr)
  key_given r hr := hs.key_given r (h.mem_iff.2 hr)
  target_declared r hr a ha := by
    obtain ⟨u, hu, hname⟩ := hs.target_declared r (h.mem_iff.2 hr) a ha
    exact ⟨u, h.mem_iff.1 hu, hname⟩

theorem Loads.agree {first second : Except LoadError Catalog} (hs : Loads s first)
    (ht : Loads t second) (h : s.relations.Perm t.relations) : Agree first second where
  exists_eq_ok_iff := by
    rw [hs.exists_eq_ok_iff, ht.exists_eq_ok_iff]
    exact ⟨valid_of_perm h, valid_of_perm h.symm⟩
  sameAnswers c d hc hd := (hs.reflects c hc).sameAnswers (ht.reflects d hd) h

/-! ## Files as declarations -/

/-- What a file declares; nothing if it cannot be read. -/
def declarations (files : FileTree) (path : String) : List RelationDecl :=
  match readSchema files path with
  | .ok schema => schema.relations
  | .error _ => []

/-- What files declare together. -/
def declared (files : FileTree) (paths : List String) : List RelationDecl :=
  paths.flatMap (declarations files)

/-- What is wrong with a file that comes after others. -/
inductive FileFault (files : FileTree) (before : List String) (path : String) : LoadError → Prop
  /-- It cannot be read, or it does not hold a schema. -/
  | unread {e : LoadError} (h : readSchema files path = .error e) : FileFault files before path e
  /-- A declaration in it is wrong after those of the files before it. -/
  | inside {schema : Schema} {e : LoadError} (h : readSchema files path = .ok schema)
    (hfirst : FirstFault (fun relations => RelationDecl.Fault path
      (declared files before ++ relations)) schema.relations e) : FileFault files before path e

/-- Files are added one after the other, and the first fault is reported. -/
theorem reportsFirst_addFiles (files : FileTree) :
    ReportsFirst (FileFault files) (fun before c => c.Holds (declared files before))
      (addFiles files) id where
  finishes c := rfl
  stops := by
    intro before c path e hc hfault rest
    have hadd : c.addFile files path = .error e := by
      cases hfault with
      | unread h => rw [addFile, h]
      | inside h hfirst =>
        rw [addFile, h]
        refine (reportsFirst_addRelations path (declared files before)).eq_error_of_firstFault
          ?_ hfirst
        rwa [List.append_nil]
    rw [addFiles, hadd]
  passes := by
    intro before c path hc hok
    cases hread : readSchema files path with
    | error e => exact absurd (.unread hread) (hok e)
    | ok schema =>
      have hloop := reportsFirst_addRelations path (declared files before)
      have hfaultless := faultless_of_not_firstFault fun e he => hok e (.inside hread he)
      obtain ⟨c', hc', hadd⟩ := hloop.exists_stands (by rwa [List.append_nil]) hfaultless
      refine ⟨c', ?_, fun rest => ?_⟩
      · simpa [declared, declarations, hread] using hc'
      · rw [addFiles, addFile, hread]
        dsimp only
        rw [addSchema, hadd]
        rfl

/-- No file is wrong when all can be read and nothing is wrong with what they declare together. -/
theorem faultless_fileFault_iff :
    Faultless (FileFault files) paths ↔
      (∀ path ∈ paths, ∃ schema, readSchema files path = .ok schema)
        ∧ Faultless (RelationDecl.Fault inlineOrigin) (declared files paths) := by
  induction paths using List.reverseRecOn with
  | nil => simp [faultless_nil, declared]
  | append_singleton paths path ih =>
    rw [faultless_concat_iff, ih]
    -- A file that cannot be read declares nothing, so it is wrong without any wrong declaration.
    cases hread : readSchema files path with
    | error e =>
      refine iff_of_false (fun h => h.2 e (.unread hread)) fun h => ?_
      obtain ⟨schema, hschema⟩ := h.1 path (by simp)
      rw [hread] at hschema
      cases hschema
    | ok schema =>
      have hpath : (∀ e, ¬FileFault files paths path e) ↔
          Faultless (fun relations => RelationDecl.Fault path (declared files paths ++ relations))
            schema.relations := by
        refine ⟨fun h => faultless_of_not_firstFault fun e he => h e (.inside hread he), ?_⟩
        intro h e he
        cases he with
        | unread hunread => rw [hread] at hunread; cases hunread
        | inside hschema hfirst =>
          rw [hread] at hschema
          obtain rfl := Except.ok.inj hschema
          exact h.not_firstFault hfirst
      -- What is faultless does not depend on the name that an error would give to the file.
      have horigin : Faultless (RelationDecl.Fault inlineOrigin) (declared files paths) ↔
          Faultless (RelationDecl.Fault path) (declared files paths) := by
        rw [RelationDecl.faultless_iff, RelationDecl.faultless_iff]
      have hdeclared : declared files (paths ++ [path])
          = declared files paths ++ schema.relations := by
        simp [declared, declarations, hread]
      rw [hpath, horigin, and_assoc, ← faultless_append_iff, RelationDecl.faultless_iff,
        hdeclared, RelationDecl.faultless_iff]
      simp [or_imp, forall_and, hread]

/-! ## Loading files -/

theorem loadAll_eq (files : FileTree) (paths : List String) (order : VisitOrder) :
    loadAll files paths order = (addFiles files empty paths).bind (validate order) := by
  rw [loadAll]
  cases addFiles files empty paths <;> rfl

/-- Files that can all be read load as what they declare together. -/
theorem loads_loadAll (h : ∀ path ∈ paths, ∃ schema, readSchema files path = .ok schema) :
    Loads ⟨declared files paths⟩ (loadAll files paths order) := by
  have hloop := reportsFirst_addFiles files
  have hvalid : (⟨declared files paths⟩ : Schema).Valid ↔
      Faultless (FileFault files) paths ∧ TargetsDeclared (declared files paths) := by
    rw [Schema.valid_iff inlineOrigin, faultless_fileFault_iff, and_assoc, and_iff_right h]
  rw [loadAll_eq]
  refine ⟨?_, fun c hc => ?_⟩
  · rw [hvalid]
    exact exists_bind_validate_eq_ok_iff hloop holds_empty
  · obtain ⟨hfaultless, hclosed, hholds⟩ := holds_of_bind_validate hloop holds_empty hc
    exact Holds.reflects (s := ⟨declared files paths⟩) hholds (hvalid.2 ⟨hfaultless, hclosed⟩)

/-- Files load only if they can all be read. -/
theorem readable_of_loadAll (h : loadAll files paths order = .ok c) :
    ∀ path ∈ paths, ∃ schema, readSchema files path = .ok schema := by
  rw [loadAll_eq] at h
  obtain ⟨hfaultless, -⟩ := holds_of_bind_validate (reportsFirst_addFiles files) holds_empty h
  exact (faultless_fileFault_iff.1 hfaultless).1

/-- A file that is wrong after those before it is reported, in whatever order the closing check
would have gone. -/
theorem loadAll_eq_error_of_firstFault {e : LoadError} (h : FirstFault (FileFault files) paths e) :
    loadAll files paths order = .error e := by
  rw [loadAll_eq]
  exact bind_validate_eq_error_of_firstFault (reportsFirst_addFiles files) holds_empty h

/-- The errors of loading files, over all orders of the closing check. -/
theorem exists_loadAll_eq_error_iff {e : LoadError} :
    (∃ order, loadAll files paths order = .error e) ↔
      Violation (FileFault files) paths (declared files paths) e := by
  simp only [loadAll_eq]
  exact exists_bind_validate_eq_error_iff (reportsFirst_addFiles files) holds_empty

/-- No file and no declaration is wrong because of the target of an association. -/
theorem FileFault.ne_unknownRelatedRelation {before : List String} {path : String} {e : LoadError}
    (h : FileFault files before path e) (relation : RelationName) (name : String)
    (related : RelationName) : e ≠ .unknownRelatedRelation relation name related := by
  rintro rfl
  cases h with
  | unread hread =>
    rw [readSchema] at hread
    split at hread
    · cases hread
    · split at hread <;> cases hread
  | inside _ hfirst =>
    obtain ⟨_, _, _, -, -, hrelation⟩ := hfirst
    cases hrelation with
    | inside _ hinside =>
      obtain ⟨_, _, _, -, -, hassociation⟩ := hinside
      cases hassociation

/-- The declarations of several schemas, one schema after the other. -/
def joined (schemas : List Schema) : Schema := ⟨schemas.flatMap (·.relations)⟩

theorem readable_of_forall₂ {schemas : List Schema}
    (h : List.Forall₂ (fun path schema => readSchema files path = .ok schema) paths schemas) :
    (∀ path ∈ paths, ∃ schema, readSchema files path = .ok schema)
      ∧ declared files paths = (joined schemas).relations := by
  induction h with
  | nil => exact ⟨by simp, rfl⟩
  | cons hread _ ih =>
    obtain ⟨hreadable, hdeclared⟩ := ih
    refine ⟨List.forall_mem_cons.2 ⟨⟨_, hread⟩, hreadable⟩, ?_⟩
    rw [declared, joined] at hdeclared ⊢
    simp [declarations, hread, hdeclared]

/-- Files that declare given schemas load as the schema that joins them. -/
theorem loads_loadAll_joined {schemas : List Schema}
    (h : List.Forall₂ (fun path schema => readSchema files path = .ok schema) paths schemas) :
    Loads (joined schemas) (loadAll files paths order) := by
  obtain ⟨hreadable, hdeclared⟩ := readable_of_forall₂ h
  have hloads : Loads ⟨declared files paths⟩ (loadAll files paths order) := loads_loadAll hreadable
  rwa [hdeclared] at hloads

/-- A single file loads as what it declares. -/
theorem loads_load {path : String} (h : readSchema files path = .ok s) :
    Loads s (load files path order) := by
  have hread : List.Forall₂ (fun path schema => readSchema files path = .ok schema) [path] [s] :=
    .cons h .nil
  have hjoined : joined [s] = s := by simp [joined]
  rw [load, ← hjoined]
  exact loads_loadAll_joined hread

/-- Files load the same in any order. -/
theorem agree_of_perm {paths' : List String} (h : paths.Perm paths') :
    Agree (loadAll files paths order) (loadAll files paths' order') := by
  by_cases hreadable : ∀ path ∈ paths, ∃ schema, readSchema files path = .ok schema
  · have hreadable' : ∀ path ∈ paths', ∃ schema, readSchema files path = .ok schema :=
      fun path hpath => hreadable path (h.mem_iff.2 hpath)
    exact (loads_loadAll hreadable).agree (loads_loadAll hreadable')
      (h.flatMap_right (declarations files))
  · -- The file that cannot be read is in both lists, so neither loads.
    have hnot : ∀ c, loadAll files paths order ≠ .ok c := fun c hc =>
      hreadable (readable_of_loadAll hc)
    have hnot' : ∀ c, loadAll files paths' order' ≠ .ok c := fun c hc =>
      hreadable fun path hpath => readable_of_loadAll hc path (h.mem_iff.1 hpath)
    exact ⟨iff_of_false (fun ⟨c, hc⟩ => hnot c hc) (fun ⟨c, hc⟩ => hnot' c hc),
      fun c _ hc => absurd hc (hnot c)⟩

/-- An association is refused because of its target only if no file declares the target. -/
theorem not_mem_declared_of_loadAll {relation related : RelationName} {name : String}
    (h : loadAll files paths order = .error (.unknownRelatedRelation relation name related)) :
    related ∉ (declared files paths).map (·.name) := by
  cases exists_loadAll_eq_error_iff.1 ⟨order, h⟩ with
  | adding hfirst =>
    obtain ⟨_, _, _, -, -, hfault⟩ := hfirst
    exact absurd rfl (hfault.ne_unknownRelatedRelation relation name related)
  | closing _ hundeclared =>
    obtain ⟨_, _, _, _, hundeclared, herror⟩ := hundeclared
    obtain ⟨-, -, rfl⟩ := LoadError.unknownRelatedRelation.inj herror
    exact hundeclared

/-- Loading files is loading the concatenation of what they declare, from a schema or from one file
that holds it; any other order of the files loads the same. If a file is wrong, the error is that of
the first one, whatever comes after it; and an association is never refused while some file declares
its target. All of this holds in whatever order the closing check of each attempt goes. -/
theorem loadAll_merges (files : FileTree) (paths : List String) :
    (∀ schemas,
        List.Forall₂ (fun path schema => readSchema files path = .ok schema) paths schemas →
        ∀ order order', Agree (loadAll files paths order) (ofSchema (joined schemas) order')
          ∧ ∀ other single, readSchema other single = .ok (joined schemas) →
              Agree (loadAll files paths order) (load other single order'))
      ∧ (∀ paths', paths.Perm paths' →
          ∀ order order', Agree (loadAll files paths order) (loadAll files paths' order'))
      ∧ (∀ earlier path later e, paths = earlier ++ path :: later →
          Faultless (FileFault files) earlier → FileFault files earlier path e →
          ∀ order, loadAll files paths order = .error e)
      ∧ ∀ order relation name related,
          loadAll files paths order = .error (.unknownRelatedRelation relation name related) →
          related ∉ (declared files paths).map (·.name) := by
  refine ⟨fun schemas hschemas order order' => ?_, fun paths' hperm order order' =>
    agree_of_perm hperm, ?_, fun order relation name related => not_mem_declared_of_loadAll⟩
  · have hloads : Loads (joined schemas) (loadAll files paths order) :=
      loads_loadAll_joined hschemas
    rw [ofSchema_eq]
    exact ⟨hloads.agree (loads_addSchema _ _ _) (.refl _),
      fun other single hsingle => hloads.agree (loads_load hsingle) (.refl _)⟩
  · intro earlier path later e hpaths hearlier hpath order
    exact loadAll_eq_error_of_firstFault ⟨earlier, path, later, hpaths, hearlier, hpath⟩

/-! ## Two files -/

/-- A file with posts, whose author is in the other file. -/
def postsText : String :=
  "relations:\n- name: posts\n  associations:\n"
    ++ "  - name: author\n    kind: belongs_to\n    related: users\n"

/-- A file with users. -/
def usersText : String := "relations:\n- name: users\n"

/-- What the file with posts declares. -/
def postsSchema : Schema :=
  ⟨[⟨Blog.posts, [], [⟨"author", .belongsTo, Blog.users, none, none⟩]⟩]⟩

/-- What the file with users declares. -/
def usersSchema : Schema := ⟨[⟨Blog.users, [], []⟩]⟩

/-- The two files. -/
def twoFiles : FileTree := ⟨[(["p"], postsText.toUTF8), (["u"], usersText.toUTF8)], []⟩

theorem readSchema_eq_ok {path : String} (text : String)
    (htarget : files.target? path = some (.file text.toUTF8))
    (htext : Schema.ofText? text = some s) : readSchema files path = .ok s := by
  have hread : files.read? path = some text := by
    rw [FileTree.read?, htarget]
    simp [String.fromUTF8?, String.fromUTF8, String.isValidUTF8]
  rw [readSchema, hread]
  dsimp only
  rw [htext]

theorem components_twoFiles : FileTree.components "p" = ["p"] ∧ FileTree.components "u" = ["u"]
    ∧ FileTree.components "q" = ["q"] := by
  refine ⟨?_, ?_, ?_⟩ <;>
    rw [FileTree.components, String.splitOn, if_neg (by decide), String.splitOnAux,
      if_neg (by decide), if_neg (by decide), String.splitOnAux, if_pos (by decide)] <;>
    decide

/-- Which file a path leads to does not depend on what is in the files. -/
theorem target?_twoFiles (first second : ByteArray) :
    let tree : FileTree := ⟨[(["p"], first), (["u"], second)], []⟩
    tree.target? "p" = some (.file first) ∧ tree.target? "u" = some (.file second)
      ∧ tree.target? "q" = none := by
  obtain ⟨hp, hu, hq⟩ := components_twoFiles
  refine ⟨?_, ?_, ?_⟩ <;>
    rw [FileTree.target?, if_neg (by decide), if_neg (by simp [FileTree.isAbsolute])]
  · rw [hp]
    rfl
  · rw [hu]
    rfl
  · rw [hq]
    rfl

theorem readSchema_twoFiles :
    readSchema twoFiles "p" = .ok postsSchema ∧ readSchema twoFiles "u" = .ok usersSchema
      ∧ readSchema twoFiles "q" = .error (.unreadable "q") := by
  obtain ⟨hp, hu, hq⟩ := target?_twoFiles postsText.toUTF8 usersText.toUTF8
  refine ⟨readSchema_eq_ok postsText hp (by decide +kernel),
    readSchema_eq_ok usersText hu (by decide +kernel), ?_⟩
  rw [readSchema, FileTree.read?, twoFiles, hq]

/-- The posts may come before the users they lead to. A third file that is missing is reported
although the posts are declared again after it, and alone the posts lead nowhere. -/
theorem loadAll_merges_twoFiles :
    List.Forall₂ (fun path schema => readSchema twoFiles path = .ok schema) ["p", "u"]
        [postsSchema, usersSchema]
      ∧ (∃ c, loadAll twoFiles ["p", "u"] = .ok c)
      ∧ Agree (loadAll twoFiles ["p", "u"]) (loadAll twoFiles ["u", "p"])
      ∧ loadAll twoFiles ["p", "q", "p"] = .error (.unreadable "q")
      ∧ Blog.users ∉ (declared twoFiles ["p"]).map (·.name) := by
  obtain ⟨hp, hu, hq⟩ := readSchema_twoFiles
  have hfiles : List.Forall₂ (fun path schema => readSchema twoFiles path = .ok schema) ["p", "u"]
      [postsSchema, usersSchema] := .cons hp (.cons hu .nil)
  obtain ⟨hjoined, hperm, -, -⟩ := loadAll_merges twoFiles ["p", "u"]
  obtain ⟨-, -, hfirst, -⟩ := loadAll_merges twoFiles ["p", "q", "p"]
  obtain ⟨-, -, -, hundeclared⟩ := loadAll_merges twoFiles ["p"]
  have hearlier : Faultless (FileFault twoFiles) ["p"] := by
    refine faultless_fileFault_iff.2 ⟨by simpa using ⟨_, hp⟩, ?_⟩
    rw [RelationDecl.faultless_iff]
    simp [declared, declarations, hp, postsSchema, AssociationDecl.faultless_iff]
  have halone : loadAll twoFiles ["p"]
      = .error (.unknownRelatedRelation Blog.posts "author" Blog.users) := by
    rw [loadAll, addFiles, addFile, hp]
    rfl
  exact ⟨hfiles, (hjoined _ hfiles .declared .declared).1.exists_eq_ok_iff.2 ⟨_, rfl⟩,
    hperm _ (List.Perm.swap _ _ _) .declared .declared,
    hfirst ["p"] "q" ["p"] _ rfl hearlier (.unread hq) .declared, hundeclared _ _ _ _ halone⟩

end JoinGraph.Catalog
