import XmlWriter.Content.CharData
import XmlWriter.Content.AttValue
import XmlWriter.Content.CDSect
import XmlWriter.Content.Comment
import XmlWriter.Content.Instruction
import XmlWriter.Content.XmlDecl

/-!
# Pieces of markup

The writer hands its markup on in pieces: what is written at once, so that an outlet can refuse one
and keep those before it. A piece is kept as what it means, with names and values as they will be
read back; `Piece.render` is the text that is handed on.
-/

namespace XmlWriter

/-- A namespace declaration: the default one, or that of a prefix. The empty value stands for no
namespace. -/
structure NsDecl where
  pre : Option Text
  value : Text
  deriving DecidableEq, Repr

namespace NsDecl

/-- The name of the attribute that makes the declaration. -/
def name (d : NsDecl) : QName :=
  match d.pre with
  | none => ⟨none, xmlnsPrefix⟩
  | some p => ⟨some xmlnsPrefix, p⟩

end NsDecl

/-- An attribute as it stands in a tag: a space, its name and its value in double quotes. -/
def attributeText (name : QName) (value : Text) : Text :=
  Text.unit ' ' :: name.text ++ Text.ofString "=\"" ++ AttValue.encode value ++ [Text.unit '"']

/-- A piece of markup. -/
inductive Piece where
  /-- The beginning of a start tag, with the declaration that the writer adds for the name. -/
  | head (name : QName) (own : Option NsDecl)
  /-- A declaration that the writer adds for the attribute after it. -/
  | generated (d : NsDecl)
  /-- An attribute of the caller, declarations included. -/
  | attribute (name : QName) (value : Text)
  /-- The slash of an empty-element tag, with or without a space before it. -/
  | slash (spaced : Bool)
  /-- The end of a start tag. -/
  | tagEnd
  /-- An end tag. -/
  | endTag (name : QName)
  | text (t : Text)
  | cdata (t : Text)
  | comment (t : Text)
  | instruction (target data : Text)
  | doctype (t : Text)
  | declaration (d : XmlDecl)
  deriving DecidableEq, Repr

namespace Piece

/-- The text of a piece. -/
def render : Piece → Text
  | .head name none => Text.unit '<' :: name.text
  | .head name (some d) => Text.unit '<' :: name.text ++ attributeText d.name d.value
  | .generated d => attributeText d.name d.value
  | .attribute name value => attributeText name value
  | .slash spaced => if spaced then Text.ofString " /" else Text.ofString "/"
  | .tagEnd => Text.ofString ">"
  | .endTag name => Text.ofString "</" ++ name.text ++ Text.ofString ">"
  | .text t => CharData.encode t
  | .cdata t => CDSect.encode t
  | .comment t => Comment.encode t
  | .instruction target data => Instruction.encode target data
  | .doctype t => Text.ofString "<!DOCTYPE " ++ t ++ Text.ofString ">"
  | .declaration d => d.encode

end Piece

end XmlWriter
