/-!
# Vocabularies

A closed vocabulary is a finite type each of whose members is written as one exact word: join
kinds, severities, removal policies. Reading a word is the inverse of writing it, and no other
text is read.
-/

namespace JoinGraph

/-- A type whose members are written as words of their own. -/
class Vocabulary (α : Type) where
  /-- The word for a member. -/
  word : α → String
  /-- All members. -/
  all : List α
  /-- Looking a word up gives the member it was written for. -/
  find_word : ∀ a, all.find? (fun b => decide (word b = word a)) = some a

namespace Vocabulary

variable {α : Type} [Vocabulary α]

/-- The member that `text` is the exact word for. -/
def ofWord? (text : String) : Option α :=
  all.find? fun a => decide (word a = text)

@[simp] theorem ofWord?_word (a : α) : ofWord? (word a) = some a :=
  find_word a

end Vocabulary

end JoinGraph
