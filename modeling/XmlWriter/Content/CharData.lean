import XmlWriter.Content.Legal
import XmlWriter.Content.Reference

/-!
# Character data

Text between tags. The markup characters `&`, `<` and `>` are written as references, so no `<` can
open markup and `]]>` cannot occur.
-/

namespace XmlWriter

namespace CharData

/-- The part of a document that character data is, in messages. -/
def context : Text := Text.ofString "text"

/-- What character data writes as references. -/
def references : List Reference := [.amp, .lt, .gt]

/-- What is wrong with a text as character data. -/
def flaw? (t : Text) : Option Flaw := charFlaw? context t

/-- A text written as character data. -/
def encode (t : Text) : Text := Reference.encode references t

/-- A text written as character data, unless it is refused. -/
def write (enforce : Bool) (t : Text) : Except Flaw Text := do
  vet enforce (flaw? t)
  return encode t

end CharData

end XmlWriter
