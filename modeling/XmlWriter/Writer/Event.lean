import XmlWriter.Content.XmlDecl
import XmlWriter.Name.Basic

/-!
# Events

A caller drives the writer by events in document order. Each start of an element is matched by one
close, with the element's content in between; what becomes of a sequence that breaks this rule is
part of the writer's behaviour too, and a close with nothing open gives a warning.
-/

namespace XmlWriter

/-- What a caller asks the writer to do. -/
inductive Event where
  /-- Opens an element; `childless` announces that it is closed next. -/
  | start (name : Name) (attributes : List Attribute) (childless : Bool)
  /-- Closes the innermost element. -/
  | close (name : Name)
  | text (t : Text)
  | cdata (t : Text)
  | comment (t : Text)
  | instruction (target data : Text)
  | doctype (t : Text)
  | declaration (d : XmlDecl)
  deriving DecidableEq, Repr

/-- What the writer tolerates and reports. -/
inductive Warning where
  /-- A close came with nothing open; it named an element with this local part. -/
  | nothingOpen (localPart : Text)
  deriving DecidableEq, Repr

namespace Warning

/-- The message of a warning. -/
def message : Warning → Text
  | .nothingOpen localPart =>
    Text.ofString "endElement() called for \"" ++ localPart ++
      Text.ofString "\" with no open element"

end Warning

end XmlWriter
