import XmlWriter.Html
import XmlWriter.Tag.Attributes

/-!
# Start tags

A start tag is written up to its last character, and gives the element that is then open. The tag of
an element without content is closed by a slash, with a space before it where HTML would expect one.
-/

namespace XmlWriter

namespace OpenElement

/-- Writes the start tag of an element in a scope, all but its end. -/
def start (enforce : Bool) (scope : Scope) (name : Name) (attributes : List Attribute)
    (childless : Bool) : Emit Counter OpenElement := do
  Emit.demand enforce (LocalPart.flaw? .element name.localPart)
  let d := Declarations.collect scope.prefixes attributes
  let r ← Resolution.of enforce d scope.inherited name
  Emit.write (.head r.name r.own)
  let prefixes ← Attribute.writeAll ⟨enforce, d, r.dropsDefault⟩ [] r.prefixes attributes
  if childless then
    Emit.write (.slash (isVoidElement name.space name.localPart))
  return ⟨r.name, childless, ⟨prefixes, r.inherited⟩⟩

end OpenElement

end XmlWriter
