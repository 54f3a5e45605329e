import XmlWriter.Flaw

/-!
# XML declarations

The declaration at the start of a document names the version and, each optional, the encoding and
whether the document stands alone. Only the version is checked: `1.` and at least one digit.
-/

namespace XmlWriter

/-- An XML declaration. -/
structure XmlDecl where
  version : Text
  encoding : Option Text
  standalone : Option Bool
  deriving DecidableEq, Repr

namespace XmlDecl

/-- Whether a unit is a decimal digit. -/
def isDigit (u : UInt16) : Bool :=
  (Text.unit '0').toNat ≤ u.toNat && u.toNat ≤ (Text.unit '9').toNat

/-- Whether a text is `1.` followed by digits, at least one. -/
def isVersion : Text → Bool
  | a :: b :: first :: rest =>
    [a, b] = Text.ofString "1." && (first :: rest).all isDigit
  | _ => false

/-- What is wrong with a declaration. -/
def flaw? (d : XmlDecl) : Option Flaw :=
  if isVersion d.version then none else some (.badVersion d.version)

/-- A part of a declaration as it is written: a name and a value in quotes. -/
def part (name : String) (value : Text) : Text :=
  Text.unit ' ' :: Text.ofString name ++ Text.ofString "=\"" ++ value ++ [Text.unit '"']

/-- How the optional part on standing alone spells its two values. -/
def standaloneText (b : Bool) : Text := Text.ofString (if b then "yes" else "no")

/-- A declaration as it is written. -/
def encode (d : XmlDecl) : Text :=
  Text.ofString "<?xml" ++ part "version" d.version ++
    (d.encoding.elim [] (part "encoding")) ++
    (d.standalone.elim [] fun b => part "standalone" (standaloneText b)) ++ Text.ofString "?>"

/-- A declaration as it is written, unless it is refused. -/
def write (enforce : Bool) (d : XmlDecl) : Except Flaw Text := do
  vet enforce d.flaw?
  return d.encode

end XmlDecl

end XmlWriter
