import XmlWriter.Text.Basic

/-!
# Void elements of HTML

Some elements of the HTML namespace never have content. A document that is also read as HTML writes
their tags with a space before the slash, as in `<br />`.
-/

namespace XmlWriter

/-- The namespace of HTML elements. -/
def htmlNamespace : Text := Text.ofString "http://www.w3.org/1999/xhtml"

/-- The local names of the HTML elements that never have content. -/
def voidElements : List Text :=
  ["area", "base", "basefont", "bgsound", "br", "col", "embed", "frame", "hr", "img", "input",
    "keygen", "link", "meta", "param", "source", "track", "wbr"].map Text.ofString

/-- Whether a name is that of a void element: a local name of the list in the HTML namespace. -/
def isVoidElement (space : Option Text) (localPart : Text) : Bool :=
  space = some htmlNamespace && localPart ∈ voidElements

end XmlWriter
