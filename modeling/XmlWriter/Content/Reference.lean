import XmlWriter.Text.Basic

/-!
# References

A unit that may not stand as itself in some place is written as a reference: one of the predefined
entities, or a decimal character reference for white space that a reader would change. Each place
has its own list of references (`CharData.references`, `AttValue.references`), and
`Reference.encode` writes a text with the references of a list and all other units as they are.
Main statement: what is written for a text is written unit by unit (`Reference.encode_append`).
-/

namespace XmlWriter

/-- A reference that the writer uses. -/
inductive Reference where
  | amp
  | lt
  | gt
  | quot
  | tab
  | lineFeed
  | carriageReturn
  deriving DecidableEq, Repr

namespace Reference

/-- The unit that a reference stands for. -/
def unit : Reference → UInt16
  | .amp => Text.unit '&'
  | .lt => Text.unit '<'
  | .gt => Text.unit '>'
  | .quot => Text.unit '"'
  | .tab => Text.unit '\t'
  | .lineFeed => Text.unit '\n'
  | .carriageReturn => Text.unit '\r'

/-- How a reference is written. -/
def text : Reference → Text
  | .amp => Text.ofString "&amp;"
  | .lt => Text.ofString "&lt;"
  | .gt => Text.ofString "&gt;"
  | .quot => Text.ofString "&quot;"
  | .tab => Text.ofString "&#9;"
  | .lineFeed => Text.ofString "&#10;"
  | .carriageReturn => Text.ofString "&#13;"

/-- The reference of a list that stands for a unit. -/
def for? (references : List Reference) (u : UInt16) : Option Reference :=
  references.find? fun r => r.unit = u

/-- What is written for a unit. -/
def encodeUnit (references : List Reference) (u : UInt16) : Text :=
  match for? references u with
  | some r => r.text
  | none => [u]

/-- A text with references in place of the units that have one. -/
def encode (references : List Reference) (t : Text) : Text := t.flatMap (encodeUnit references)

@[simp] theorem encode_nil (references : List Reference) : encode references [] = [] := rfl

@[simp] theorem encode_cons (references : List Reference) (u : UInt16) (t : Text) :
    encode references (u :: t) = encodeUnit references u ++ encode references t := rfl

/-- A text is written unit by unit. -/
@[simp] theorem encode_append (references : List Reference) (s t : Text) :
    encode references (s ++ t) = encode references s ++ encode references t := by
  simp [encode]

end Reference

end XmlWriter
