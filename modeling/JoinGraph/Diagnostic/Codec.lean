import JoinGraph.Diagnostic
import JoinGraph.Schema.Codec

/-!
# JSON form of diagnostics
-/

namespace JoinGraph.Diagnostic

/-- The JSON form of a diagnostic. -/
def toJson (d : Diagnostic) : Json :=
  .object [("alias", optionalTextToJson d.name),
    ("binding", (d.binding.map fun b => Json.int b).getD .null), ("code", wordToJson d.code),
    ("message", .string d.message), ("pass_name", .string d.passName),
    ("severity", wordToJson d.severity)]

/-- Read a diagnostic. -/
def ofJson : Decoder Diagnostic := fun v => do
  let ms ← Decoder.members v
  let name ← Decoder.nullable ms "alias" Decoder.text
  let binding ← Decoder.nullable ms "binding" Decoder.natural
  let code ← Decoder.field ms "code" Decoder.word
  let message ← Decoder.field ms "message" Decoder.text
  let passName ← Decoder.field ms "pass_name" Decoder.text
  let severity ← Decoder.field ms "severity" Decoder.word
  return ⟨← Decoder.require code, ← Decoder.require severity, ← Decoder.require message, name,
    binding, ← Decoder.require passName⟩

end JoinGraph.Diagnostic
