import JoinGraph.Catalog
import JoinGraph.Expansion

/-!
# A Running Example

Posts have comments, a comment has an author, and an author has posts. Later modules show their
results at work on queries over these relations.
-/

namespace JoinGraph.Blog

/-- The relation of posts. -/
def posts : RelationName := ⟨"posts", by decide⟩

/-- The relation of comments. -/
def comments : RelationName := ⟨"comments", by decide⟩

/-- The relation of users. -/
def users : RelationName := ⟨"users", by decide⟩

/-- The associations between the three relations. -/
def provider : Provider := fun relation name =>
  if relation = posts ∧ name = "comments" then
    some ⟨"comments", .hasMany, posts, comments, "id", "post_id"⟩
  else if relation = comments ∧ name = "author" then
    some ⟨"author", .belongsTo, comments, users, "user_id", "id"⟩
  else if relation = users ∧ name = "posts" then
    some ⟨"posts", .hasMany, users, posts, "id", "author_id"⟩
  else none

/-- Expansion of these associations to left joins. -/
def expander : Expander := ⟨provider, .left⟩

/-- Declarations of the three relations that leave most keys to their defaults. -/
def schema : Schema := ⟨[
  ⟨posts, [], [⟨"comments", .hasMany, comments, none, some "post_id"⟩]⟩,
  ⟨comments, [], [⟨"author", .belongsTo, users, some "user_id", none⟩]⟩,
  ⟨users, [], [⟨"posts", .hasMany, posts, none, some "author_id"⟩]⟩]⟩

/-- The catalog of these declarations. -/
def catalog : Catalog := ⟨[
  ⟨posts, [], [⟨"comments", .hasMany, posts, comments, "id", "post_id"⟩], Catalog.inlineOrigin⟩,
  ⟨comments, [], [⟨"author", .belongsTo, comments, users, "user_id", "id"⟩],
    Catalog.inlineOrigin⟩,
  ⟨users, [], [⟨"posts", .hasMany, users, posts, "id", "author_id"⟩], Catalog.inlineOrigin⟩]⟩

theorem ofSchema_schema : Catalog.ofSchema schema = .ok catalog := by rfl

/-- The alias of joined comments. -/
def commentsAlias : Alias := ⟨"comments", by decide⟩

/-- The alias of the joined authors of comments. -/
def authorAlias : Alias := ⟨"author", by decide⟩

/-- A join of comments to the post with binding 0, under a binding that the condition names. -/
def commentsRequest (index : Binding) : JoinRequest where
  qualifier := .left
  source := .table comments
  on := .equals (.field index "post_id") (.field Binding.root "id")

/-- A join of comments whose condition compares two bindings, not necessarily its own. -/
def comparing (index left right : Binding) : Join :=
  ⟨index, none, .left, .table comments, .equals (.field left "id") (.field right "id")⟩

end JoinGraph.Blog
