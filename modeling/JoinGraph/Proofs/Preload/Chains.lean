import JoinGraph.Proofs.Preload.Algebra

/-!
# Chains of Associations

The way from the top of a preload forest down to a node is a chain of association names and aliases
(`Chain`, `forestChains`). A merge compares aliases only: the chain of aliases to a node of the
incoming forest is always there afterwards (`exists_mem_forestChains_merge`), but the names on it
may be those of nodes that came before.

A node keeps its names when no node before it has other names under the same aliases
(`mem_forestChains_merge`). This holds whatever is repeated in the incoming forest. In forests
without repetitions more can be said: of the nodes with the same chain of aliases the first one
gives its name (`firstName?_merge`), and this determines the chains
(`mem_forestChains_iff_firstName?`).
-/

namespace JoinGraph

/-- The way from the top down to a node, outermost node first: the association name and the alias of
each node on it. -/
abbrev Chain := List (String × String)

namespace Chain

/-- The aliases along a chain. -/
def path (chain : Chain) : List String := chain.map Prod.snd

/-- The association name of the node that a chain leads to. -/
def name? (chain : Chain) : Option String := chain.getLast?.map Prod.fst

/-- Where the nodes have the aliases of the chain, from the top down, they have its names. -/
def Consistent (nodes : List Chain) (chain : Chain) : Prop :=
  ∀ node ∈ nodes, node.path <+: chain.path → node <+: chain

/-- The node is one of the nodes, and those before it have its names where they have its aliases. -/
def Uncontested (nodes : List Chain) (node : Chain) : Prop :=
  ∃ before after, nodes = before ++ node :: after ∧ Consistent before node

/-- The association name of the first of the nodes with these aliases. -/
def firstName? (nodes : List Chain) (p : List String) : Option String :=
  nodes.findSome? fun node => if node.path = p then node.name? else none

variable {chain : Chain} {link : String × String} {nodes more : List Chain} {p : List String}

theorem path_cons (link : String × String) (chain : Chain) :
    path (link :: chain) = link.2 :: chain.path := rfl

theorem path_eq_nil_iff : chain.path = [] ↔ chain = [] := List.map_eq_nil_iff

/-- A chain that goes on leads where the rest of it leads. -/
theorem name?_cons (hchain : chain ≠ []) : name? (link :: chain) = chain.name? := by
  obtain ⟨link', rest, rfl⟩ := List.exists_cons_of_ne_nil hchain
  rw [name?, List.getLast?_cons_cons, name?]

theorem consistent_nil (chain : Chain) : Consistent [] chain :=
  fun _ h => absurd h List.not_mem_nil

theorem consistent_of_nil (nodes : List Chain) : Consistent nodes [] := by
  intro node _ haliases
  exact List.prefix_nil.2 (path_eq_nil_iff.1 (List.prefix_nil.1 haliases))

theorem consistent_append_iff :
    Consistent (nodes ++ more) chain ↔ Consistent nodes chain ∧ Consistent more chain :=
  List.forall_mem_append

theorem Uncontested.mem (h : Uncontested nodes chain) : chain ∈ nodes := by
  obtain ⟨before, after, rfl, -⟩ := h
  exact List.mem_append_right before List.mem_cons_self

/-- A node that is uncontested is found uncontested in the first part, or in the second part and
then the first one does not contest it either. -/
theorem Uncontested.of_append (h : Uncontested (nodes ++ more) chain) :
    Uncontested nodes chain ∨ Consistent nodes chain ∧ Uncontested more chain := by
  obtain ⟨before, after, heq, hbefore⟩ := h
  rcases List.append_eq_append_iff.1 heq with ⟨rest, rfl, hmore⟩ | ⟨rest, hnodes, hafter⟩
  · obtain ⟨hnodes, hrest⟩ := consistent_append_iff.1 hbefore
    exact .inr ⟨hnodes, rest, after, hmore, hrest⟩
  · cases rest with
    | nil =>
      rw [List.append_nil] at hnodes
      exact .inr ⟨hnodes ▸ hbefore, [], after, hafter.symm, consistent_nil chain⟩
    | cons node rest =>
      obtain ⟨rfl, -⟩ := List.cons.inj hafter
      exact .inl ⟨before, rest, hnodes, hbefore⟩

/-- What is uncontested below a node is so among the nodes below it. -/
theorem Uncontested.of_map_cons {chain' : Chain}
    (h : Uncontested (nodes.map (link :: ·)) chain') :
    ∃ chain, chain' = link :: chain ∧ Uncontested nodes chain := by
  obtain ⟨before', after', heq, hbefore⟩ := h
  obtain ⟨before, rest, rfl, rfl, hrest⟩ := List.map_eq_append_iff.1 heq
  obtain ⟨chain, after, rfl, rfl, rfl⟩ := List.map_eq_cons_iff.1 hrest
  refine ⟨chain, rfl, before, after, rfl, fun node hnode haliases => ?_⟩
  have hcons := hbefore (link :: node) (List.mem_map_of_mem hnode)
    (List.cons_prefix_cons.2 ⟨rfl, haliases⟩)
  exact (List.cons_prefix_cons.1 hcons).2

theorem firstName?_nil (p : List String) : firstName? [] p = none := rfl

theorem firstName?_append : firstName? (nodes ++ more) p
    = (firstName? nodes p).or (firstName? more p) := List.findSome?_append

/-- There is no name at the end of no aliases. -/
theorem firstName?_of_nil (nodes : List Chain) : firstName? nodes [] = none := by
  rw [firstName?, List.findSome?_eq_none_iff]
  intro node _
  split
  · rename_i haliases
    rw [path_eq_nil_iff.1 haliases]
    rfl
  · rfl

/-- Nodes that are all below one node have no name under other aliases. -/
theorem firstName?_map_cons_of_ne {text : String} (h : link.2 ≠ text) :
    firstName? (nodes.map (link :: ·)) (text :: p) = none := by
  rw [firstName?, List.findSome?_eq_none_iff]
  intro node hnode
  obtain ⟨below, -, rfl⟩ := List.mem_map.1 hnode
  exact if_neg fun haliases => h (List.cons.inj haliases).1

theorem firstName?_map_cons (hp : p ≠ []) :
    firstName? (nodes.map (link :: ·)) (link.2 :: p) = firstName? nodes p := by
  rw [firstName?, List.findSome?_map, firstName?]
  refine congrArg (List.findSome? · nodes) (funext fun node => ?_)
  have hiff : path (link :: node) = link.2 :: p ↔ path node = p := by
    rw [path_cons, List.cons.injEq, and_iff_right rfl]
  simp only [Function.comp_apply, hiff]
  split
  · rename_i haliases
    exact name?_cons fun hnil => hp (haliases ▸ path_eq_nil_iff.2 hnil)
  · rfl

end Chain

namespace PreloadTree

open Chain

variable {association text : String} {name : Alias} {t : PreloadTree} {f g : List PreloadTree}
  {chain rest : Chain} {link : String × String} {p : List String}

mutual

/-- The chains from a tree to its nodes, in preorder. -/
def chains : PreloadTree → List Chain
  | ⟨association, name, children⟩ =>
    [(association, name.text)] :: (forestChains children).map ((association, name.text) :: ·)

/-- The chains from the trees of a forest to their nodes, in preorder. -/
def forestChains : List PreloadTree → List Chain
  | [] => []
  | tree :: rest => tree.chains ++ forestChains rest

end

theorem chains_eq (t : PreloadTree) : t.chains = [(t.association, t.name.text)] ::
    (forestChains t.children).map ((t.association, t.name.text) :: ·) := by
  obtain ⟨association, name, children⟩ := t
  rw [chains]

theorem forestChains_nil : forestChains [] = [] := by rw [forestChains]

theorem forestChains_cons (t : PreloadTree) (f : List PreloadTree) :
    forestChains (t :: f) = t.chains ++ forestChains f := by rw [forestChains]

theorem forestChains_singleton (t : PreloadTree) : forestChains [t] = t.chains := by
  rw [forestChains_cons, forestChains_nil, List.append_nil]

theorem forestChains_append (f g : List PreloadTree) :
    forestChains (f ++ g) = forestChains f ++ forestChains g := by
  induction f with
  | nil => rw [forestChains_nil, List.nil_append, List.nil_append]
  | cons t rest ih =>
    rw [List.cons_append, forestChains_cons, forestChains_cons, ih, List.append_assoc]

theorem cons_mem_chains_iff : link :: rest ∈ t.chains ↔
    link = (t.association, t.name.text) ∧ (rest = [] ∨ rest ∈ forestChains t.children) := by
  rw [chains_eq, List.mem_cons, List.mem_map, List.cons.injEq]
  constructor
  · rintro (⟨hlink, hrest⟩ | ⟨rest', hrest', heq⟩)
    · exact ⟨hlink, .inl hrest⟩
    · obtain ⟨rfl, rfl⟩ := List.cons.inj heq
      exact ⟨rfl, .inr hrest'⟩
  · rintro ⟨rfl, hrest | hrest⟩
    · exact .inl ⟨rfl, hrest⟩
    · exact .inr ⟨rest, hrest, rfl⟩

theorem mem_forestChains_iff : chain ∈ forestChains f ↔ ∃ t ∈ f, chain ∈ t.chains := by
  induction f with
  | nil => simp [forestChains_nil]
  | cons t rest ih => simp [forestChains_cons, ih]

theorem ne_nil_of_mem_chains (h : chain ∈ t.chains) : chain ≠ [] := by
  rintro rfl
  rw [chains_eq] at h
  simp at h

theorem ne_nil_of_mem_forestChains (h : chain ∈ forestChains f) : chain ≠ [] := by
  obtain ⟨t, -, ht⟩ := mem_forestChains_iff.1 h
  exact ne_nil_of_mem_chains ht

/-! ### Aliases -/

mutual

private theorem map_path_chains :
    ∀ t : PreloadTree, t.chains.map Chain.path = t.branches.map (·.map (·.text))
  | ⟨association, name, children⟩ => by
    have hbelow := congrArg (List.map (name.text :: ·)) (map_path_forestChains children)
    rw [List.map_map, List.map_map] at hbelow
    rw [chains, branches, List.map_cons, List.map_cons, List.map_map, List.map_map]
    exact congrArg ([name.text] :: ·) hbelow

/-- The aliases along the chains are the branches. -/
theorem map_path_forestChains :
    ∀ f : List PreloadTree,
      (forestChains f).map Chain.path = (forestBranches f).map (·.map (·.text))
  | [] => by rw [forestChains, forestBranches, List.map_nil, List.map_nil]
  | t :: rest => by
    rw [forestChains, forestBranches, List.map_append, List.map_append, map_path_chains t,
      map_path_forestChains rest]

end

/-- The aliases of every incoming node are found in the forest after a merge. -/
theorem exists_mem_forestChains_merge (f : List PreloadTree) (h : chain ∈ forestChains g) :
    ∃ chain' ∈ forestChains (merge f g), chain'.path = chain.path := by
  have hbranch : chain.path ∈ (forestBranches g).map (·.map (·.text)) := by
    rw [← map_path_forestChains]
    exact List.mem_map_of_mem h
  obtain ⟨p, hp, haliases⟩ := List.mem_map.1 hbranch
  have hmerge : chain.path ∈ (forestChains (merge f g)).map Chain.path := by
    rw [map_path_forestChains]
    exact List.mem_map.2 ⟨p, mem_forestBranches_merge_iff.2 (.inr hp), haliases⟩
  exact List.mem_map.1 hmerge

/-! ### Nodes that keep their names -/

/-- A forest that is kept in place keeps its chains. -/
theorem Keeps.mem_forestChains (h : Keeps f g) (hchain : chain ∈ forestChains f) :
    chain ∈ forestChains g := by
  induction h generalizing chain with
  | nil _ => cases hchain
  | @cons t u f g hassociation hname _ _ ihchildren ihrest =>
    rw [forestChains_cons, List.mem_append] at hchain ⊢
    refine hchain.imp (fun ht => ?_) ihrest
    obtain ⟨link, rest, rfl⟩ := List.exists_cons_of_ne_nil (ne_nil_of_mem_chains ht)
    rw [cons_mem_chains_iff] at ht ⊢
    rw [hassociation, hname]
    exact ht.imp_right (.imp_right ihchildren)

/-- A tree is consistent with a chain when it is elsewhere, or has the first name of the chain and
is consistent with the rest below it. -/
theorem consistent_chains_iff : Consistent t.chains ((association, text) :: rest) ↔
    (t.name.text = text →
      t.association = association ∧ Consistent (forestChains t.children) rest) := by
  constructor
  · rintro h rfl
    have hroot := h [(t.association, t.name.text)] (cons_mem_chains_iff.2 ⟨rfl, .inl rfl⟩)
      (List.cons_prefix_cons.2 ⟨rfl, List.nil_prefix⟩)
    obtain ⟨hassociation, -⟩ := Prod.mk.inj (List.cons_prefix_cons.1 hroot).1
    refine ⟨hassociation, fun node hnode haliases => ?_⟩
    have hcons := h ((t.association, t.name.text) :: node)
      (cons_mem_chains_iff.2 ⟨rfl, .inr hnode⟩) (List.cons_prefix_cons.2 ⟨rfl, haliases⟩)
    exact (List.cons_prefix_cons.1 hcons).2
  · intro h node hnode haliases
    obtain ⟨link, below, rfl⟩ := List.exists_cons_of_ne_nil (ne_nil_of_mem_chains hnode)
    obtain ⟨rfl, hbelow⟩ := cons_mem_chains_iff.1 hnode
    obtain ⟨htext, hrest⟩ := List.cons_prefix_cons.1 haliases
    obtain ⟨hassociation, hchildren⟩ := h htext
    refine List.cons_prefix_cons.2 ⟨Prod.ext hassociation htext, ?_⟩
    rcases hbelow with rfl | hbelow
    · exact List.nil_prefix
    · exact hchildren below hbelow hrest

/-- What is merged is consistent with a chain when both forests are. -/
theorem consistent_merge (hf : Consistent (forestChains f) chain)
    (hg : Consistent (forestChains g) chain) : Consistent (forestChains (merge f g)) chain := by
  have hrules : MergeRules fun f g r => ∀ chain, Consistent (forestChains f) chain →
      Consistent (forestChains g) chain → Consistent (forestChains r) chain :=
    { nil := fun _ _ hf _ => hf
      cons := by
        intro f t rest ht hrest chain hf hg
        rw [forestChains_cons, consistent_append_iff] at hg
        refine hrest chain (ht chain hf ?_) hg.2
        rw [forestChains_singleton]
        exact hg.1
      append := by
        intro f t _ chain hf hg
        rw [forestChains_append]
        exact consistent_append_iff.2 ⟨hf, hg⟩
      update := by
        intro before u after t hname _ hchildren chain hf hg
        rw [forestChains_append, forestChains_cons, consistent_append_iff,
          consistent_append_iff] at hf ⊢
        rw [forestChains_singleton] at hg
        refine ⟨hf.1, ?_, hf.2.2⟩
        cases chain with
        | nil => exact consistent_of_nil _
        | cons link rest =>
          -- Either both trees are elsewhere, or both have the name of the chain.
          refine consistent_chains_iff.2 fun htext => ?_
          obtain ⟨hassociation, hu⟩ := consistent_chains_iff.1 hf.2.1 htext
          obtain ⟨-, ht⟩ := consistent_chains_iff.1 hg (hname ▸ htext)
          exact ⟨hassociation, hchildren rest hu ht⟩ }
  exact merge_induction hrules f g chain hf hg

/-- What is uncontested in a tree is its root, or uncontested below it. -/
private theorem uncontested_chains (h : Uncontested t.chains chain) :
    ∃ rest, chain = (t.association, t.name.text) :: rest
      ∧ (rest = [] ∨ Uncontested (forestChains t.children) rest) := by
  rw [chains_eq, ← List.singleton_append] at h
  rcases h.of_append with hroot | ⟨-, hbelow⟩
  · exact ⟨[], List.mem_singleton.1 hroot.mem, .inl rfl⟩
  · obtain ⟨rest, rfl, hrest⟩ := hbelow.of_map_cons
    exact ⟨rest, rfl, .inr hrest⟩

/-- An incoming node keeps its names when neither the forest nor an incoming node before it has
other names under its aliases. -/
theorem mem_forestChains_merge (hf : Consistent (forestChains f) chain)
    (hg : Uncontested (forestChains g) chain) : chain ∈ forestChains (merge f g) := by
  have hrules : MergeRules fun f g r => ∀ chain, Consistent (forestChains f) chain →
      Uncontested (forestChains g) chain → chain ∈ forestChains r :=
    { nil := by
        intro f chain _ hg
        rw [forestChains_nil] at hg
        exact absurd hg.mem List.not_mem_nil
      cons := by
        intro f t rest ht hrest chain hf hg
        rw [forestChains_cons, ← forestChains_singleton] at hg
        rcases hg.of_append with hgt | ⟨hgt, hgrest⟩
        · -- Later trees are merged into a forest that has the node.
          exact (keeps_merge (merge f [t]) rest).mem_forestChains (ht chain hf hgt)
        · exact hrest chain (consistent_merge hf hgt) hgrest
      append := by
        intro f t _ chain _ hg
        rw [forestChains_append]
        exact List.mem_append_right _ hg.mem
      update := by
        intro before u after t hname _ hchildren chain hf hg
        rw [forestChains_append, forestChains_cons, consistent_append_iff,
          consistent_append_iff] at hf
        rw [forestChains_singleton] at hg
        obtain ⟨rest, rfl, hrest⟩ := uncontested_chains hg
        obtain ⟨hassociation, hu⟩ :=
          consistent_chains_iff.1 hf.2.1 (congrArg Alias.text hname)
        rw [forestChains_append, forestChains_cons, List.mem_append, List.mem_append,
          cons_mem_chains_iff]
        refine .inr (.inl ⟨?_, hrest.imp_right (hchildren rest hu)⟩)
        rw [← hassociation, ← hname] }
  exact merge_induction hrules f g chain hf hg

/-! ### First names -/

/-- In a tree, a path of aliases that starts with that of the tree ends at the tree or goes on below
it. -/
theorem firstName?_chains_cons : firstName? t.chains (text :: p)
    = if t.name.text = text then
        if p = [] then some t.association else firstName? (forestChains t.children) p
      else none := by
  have hroot : firstName? [[(t.association, t.name.text)]] (text :: p)
      = if t.name.text = text ∧ p = [] then some t.association else none := by
    have hiff : path [(t.association, t.name.text)] = text :: p
        ↔ t.name.text = text ∧ p = [] := by
      rw [path_cons, List.cons.injEq]
      exact and_congr_right fun _ => eq_comm
    simp only [firstName?, List.findSome?_singleton, hiff]
    rfl
  rw [chains_eq, ← List.singleton_append, firstName?_append, hroot]
  by_cases htext : t.name.text = text
  · rw [if_pos htext]
    by_cases hp : p = []
    · rw [if_pos ⟨htext, hp⟩, if_pos hp, Option.some_or]
    · rw [if_neg fun h => hp h.2, if_neg hp, Option.none_or, ← htext]
      exact firstName?_map_cons hp
  · rw [if_neg fun h => htext h.1, if_neg htext, Option.none_or]
    exact firstName?_map_cons_of_ne htext

private theorem text_not_mem_of_not_mem (h : name ∉ f.map (·.name)) :
    name.text ∉ f.map (·.name.text) := by
  intro hmem
  obtain ⟨t, ht, htext⟩ := List.mem_map.1 hmem
  exact h (List.mem_map.2 ⟨t, ht, Alias.ext htext⟩)

theorem firstName?_forestChains_eq_none (h : text ∉ f.map (·.name.text)) :
    firstName? (forestChains f) (text :: p) = none := by
  induction f with
  | nil => rfl
  | cons t rest ih =>
    rw [List.map_cons, List.mem_cons, not_or] at h
    rw [forestChains_cons, firstName?_append, firstName?_chains_cons, if_neg (Ne.symm h.1),
      Option.none_or, ih h.2]

/-- When siblings have different aliases, only the tree of the first alias gives a name. -/
theorem firstName?_forestChains_of_mem (hf : (f.map (·.name)).Nodup) (ht : t ∈ f) :
    firstName? (forestChains f) (t.name.text :: p)
      = if p = [] then some t.association else firstName? (forestChains t.children) p := by
  induction f with
  | nil => cases ht
  | cons u rest ih =>
    obtain ⟨hu, hrest⟩ := List.nodup_cons.1 hf
    rw [forestChains_cons, firstName?_append]
    rcases List.mem_cons.1 ht with rfl | ht
    · rw [firstName?_forestChains_eq_none (text_not_mem_of_not_mem hu), Option.or_none,
        firstName?_chains_cons, if_pos rfl]
    · have hne : u.name.text ≠ t.name.text := fun htext =>
        hu (List.mem_map.2 ⟨t, ht, (Alias.ext htext).symm⟩)
      rw [firstName?_chains_cons, if_neg hne, Option.none_or, ih hrest ht]

/-- In forests without repetitions, the first of the nodes with the same chain of aliases gives its
name to the node of the merged forest. The incoming trees themselves may share aliases. -/
theorem firstName?_merge (hf : Unrepeated f) (hg : ∀ t ∈ g, Unrepeated t.children) :
    firstName? (forestChains (merge f g)) p
      = (firstName? (forestChains f) p).or (firstName? (forestChains g) p) := by
  have hrules : MergeRules fun f g r => Unrepeated f → (∀ t ∈ g, Unrepeated t.children) →
      ∀ p, firstName? (forestChains r) p
        = (firstName? (forestChains f) p).or (firstName? (forestChains g) p) :=
    { nil := by
        intro f _ _ p
        rw [forestChains_nil, firstName?_nil, Option.or_none]
      cons := by
        intro f t rest ht hrest hf hg p
        obtain ⟨hgt, hgrest⟩ := List.forall_mem_cons.1 hg
        have hgt' : ∀ u ∈ [t], Unrepeated u.children := List.forall_mem_singleton.2 hgt
        rw [hrest (hf.merge_of_forall hgt') hgrest, ht hf hgt', forestChains_singleton,
          forestChains_cons, firstName?_append, Option.or_assoc]
      append := by
        intro f t _ _ _ p
        rw [forestChains_append, firstName?_append]
      update := by
        intro before u after t hname hbefore hchildren hf hg p
        have hu : Unrepeated u.children := hf.of_mem (List.mem_append_right _ List.mem_cons_self)
        have ht : Unrepeated t.children := hg t List.mem_cons_self
        have hnames := hf.names
        rw [List.map_append, List.map_cons, List.nodup_append, List.nodup_cons] at hnames
        rw [forestChains_append, forestChains_append, forestChains_cons, forestChains_cons,
          forestChains_singleton]
        simp only [firstName?_append]
        cases p with
        | nil => simp only [firstName?_of_nil, Option.or_none]
        | cons text p =>
          simp only [firstName?_chains_cons, ← hname]
          by_cases htext : u.name.text = text
          · -- No other tree has the alias, so the names come from the two trees.
            rw [firstName?_forestChains_eq_none
                (htext ▸ text_not_mem_of_not_mem (hname ▸ hbefore)),
              firstName?_forestChains_eq_none (htext ▸ text_not_mem_of_not_mem hnames.2.1.1)]
            simp only [if_pos htext, Option.none_or, Option.or_none]
            by_cases hp : p = []
            · simp only [if_pos hp, Option.some_or]
            · simp only [if_neg hp]
              exact hchildren hu (fun v hv => ht.of_mem hv) p
          · simp only [if_neg htext, Option.none_or, Option.or_none] }
  exact merge_induction hrules f g hf hg p

/-- When siblings have different aliases, what a chain below a tree says is right in the forest when
it is right below the tree. -/
private theorem firstName?_cons_iff (hf : (f.map (·.name)).Nodup) (ht : t ∈ f) {below : Chain} :
    firstName? (forestChains f) (path ((t.association, t.name.text) :: below))
        = name? ((t.association, t.name.text) :: below)
      ↔ firstName? (forestChains t.children) below.path = below.name? := by
  rw [path_cons, firstName?_forestChains_of_mem hf ht]
  by_cases hbelow : below = []
  · subst hbelow
    exact iff_of_true rfl (firstName?_of_nil _)
  · rw [if_neg (mt path_eq_nil_iff.1 hbelow), name?_cons hbelow]

/-- The chains of a forest without repetitions are those all of whose parts, from the top down, lead
to a node of their last name. -/
theorem mem_forestChains_iff_firstName? (hf : Unrepeated f) (hchain : chain ≠ []) :
    chain ∈ forestChains f ↔
      ∀ part : Chain, part <+: chain → firstName? (forestChains f) part.path = part.name? := by
  induction chain generalizing f with
  | nil => exact absurd rfl hchain
  | cons link rest ih =>
    obtain ⟨association, text⟩ := link
    constructor
    · intro h part hpart
      obtain ⟨t, ht, hmem⟩ := mem_forestChains_iff.1 h
      obtain ⟨hlink, hrest⟩ := cons_mem_chains_iff.1 hmem
      obtain ⟨rfl, rfl⟩ := Prod.mk.inj hlink
      rcases List.prefix_cons_iff.1 hpart with rfl | ⟨below, rfl, hbelow⟩
      · exact firstName?_of_nil _
      · rw [firstName?_cons_iff hf.names ht]
        rcases hrest with rfl | hrest
        · rw [List.prefix_nil.1 hbelow]
          exact firstName?_of_nil _
        · exact (ih (hf.of_mem ht) (ne_nil_of_mem_forestChains hrest)).1 hrest below hbelow
    · intro h
      -- The part of one link says which tree it is, the others what is below it.
      have hroot : firstName? (forestChains f) [text] = some association :=
        h [(association, text)] (List.cons_prefix_cons.2 ⟨rfl, List.nil_prefix⟩)
      have hmem : text ∈ f.map (·.name.text) := Decidable.byContradiction fun hmem => by
        rw [firstName?_forestChains_eq_none hmem] at hroot
        cases hroot
      obtain ⟨t, ht, rfl⟩ := List.mem_map.1 hmem
      rw [firstName?_forestChains_of_mem hf.names ht, if_pos rfl] at hroot
      obtain rfl := Option.some.inj hroot
      refine mem_forestChains_iff.2 ⟨t, ht, cons_mem_chains_iff.2 ⟨rfl, ?_⟩⟩
      by_cases hrest : rest = []
      · exact .inl hrest
      · refine .inr ((ih (hf.of_mem ht) hrest).2 fun below hbelow => ?_)
        exact (firstName?_cons_iff hf.names ht).1 (h _ (List.cons_prefix_cons.2 ⟨rfl, hbelow⟩))

end PreloadTree

end JoinGraph
