import XmlWriter.PrefixMap.Basic

/-!
# Scopes and open elements

The content of an element is written in the scope that its start tag leaves: the prefixes recorded
so far and the namespace that a name without a prefix is taken to be in. The elements that are open
form a stack, the innermost first.
-/

namespace XmlWriter

/-- What a start tag is resolved against. -/
structure Scope where
  /-- The prefixes recorded so far. -/
  prefixes : PrefixMap
  /-- The namespace that the element inherits. -/
  inherited : Option Text
  deriving DecidableEq, Repr

/-- An element that is open. -/
structure OpenElement where
  /-- The name that the start tag was written with. -/
  name : QName
  /-- Whether the tag was written as an empty-element tag, which needs no end tag. -/
  selfClosed : Bool
  /-- The scope of the content. -/
  scope : Scope
  deriving DecidableEq, Repr

/-- The open elements, innermost first. -/
abbrev OpenElements := List OpenElement

namespace OpenElements

/-- How deep the innermost element lies. -/
def depth (s : OpenElements) : Nat := s.length

/-- Opens an element inside the others. -/
def push (s : OpenElements) (e : OpenElement) : OpenElements := e :: s

/-- The innermost element, if any is open. -/
def innermost? (s : OpenElements) : Option OpenElement := s.head?

/-- The elements that stay open when the innermost is closed. -/
def pop (s : OpenElements) : OpenElements := s.tail

@[simp] theorem depth_push (s : OpenElements) (e : OpenElement) :
    (s.push e).depth = s.depth + 1 := rfl

@[simp] theorem innermost?_push (s : OpenElements) (e : OpenElement) :
    (s.push e).innermost? = some e := rfl

@[simp] theorem pop_push (s : OpenElements) (e : OpenElement) : (s.push e).pop = s := rfl

/-- No element is innermost exactly when none is open. -/
theorem innermost?_eq_none_iff {s : OpenElements} : s.innermost? = none ↔ s.depth = 0 := by
  cases s <;> simp [innermost?, depth]

end OpenElements

end XmlWriter
