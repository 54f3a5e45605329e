import XmlWriter.Content.Legal
import XmlWriter.Content.Reference

/-!
# Attribute values

The value of an attribute, between double quotes. Beside the markup characters the quote is written
as a reference, and so are tab, line feed and carriage return, which a reader would turn into
spaces.
-/

namespace XmlWriter

namespace AttValue

/-- The part of a document that an attribute value is, in messages. -/
def context : Text := Text.ofString "attribute value"

/-- What an attribute value writes as references. -/
def references : List Reference := [.amp, .lt, .gt, .quot, .tab, .lineFeed, .carriageReturn]

/-- What is wrong with a text as an attribute value. -/
def flaw? (t : Text) : Option Flaw := charFlaw? context t

/-- A text written as an attribute value, without its quotes. -/
def encode (t : Text) : Text := Reference.encode references t

/-- A text written as an attribute value, unless it is refused. -/
def write (enforce : Bool) (t : Text) : Except Flaw Text := do
  vet enforce (flaw? t)
  return encode t

end AttValue

end XmlWriter
