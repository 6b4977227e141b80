/-!
# Tags of nodes

A tag says of what type a node is. It is a sequence of octets rather than a text: an escape spells
one octet, and octets that are spelt so need not be the encoding of a text. A zero octet ends a tag.

A tag that starts with an exclamation mark is the document's own. Its name is what follows the mark;
a mark that stands alone is its own name.
-/

namespace JoinGraph.Yaml

/-- The tag of a node. -/
structure Tag where
  /-- Its octets. -/
  octets : List UInt8
deriving DecidableEq

namespace Tag

/-- The tag that octets spell, which ends before the first zero. -/
def ofOctets (octets : List UInt8) : Tag := ⟨octets.takeWhile fun o => o ≠ 0⟩

/-- The tag that is written as a text. -/
def ofString (text : String) : Tag := ofOctets text.toUTF8.data.toList

/-- One tag after the other: an abbreviated tag is what its handle stands for and its own rest. -/
instance : Append Tag := ⟨fun s t => ⟨s.octets ++ t.octets⟩⟩

/-- The octet of the exclamation mark. -/
def mark : UInt8 := 0x21

/-- The tag that is a mark alone. -/
def bareMark : Tag := ⟨[mark]⟩

/-- The tag is the document's own. -/
def isOwn (t : Tag) : Bool := t.octets.head? = some mark

/-- The name of a tag of the document's own, if its octets are a text. -/
def ownName? (t : Tag) : Option String :=
  if t = bareMark then some "!"
  else if t.isOwn then String.fromUTF8? ⟨(t.octets.drop 1).toArray⟩
  else none

/-- What the tags of the standard types start with. -/
def standardLead : Tag := ofString "tag:yaml.org,2002:"

/-- The tag of a standard type. -/
def standard (name : String) : Tag := standardLead ++ ofString name

end Tag

end JoinGraph.Yaml
