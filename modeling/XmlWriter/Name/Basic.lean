import XmlWriter.Text.Basic

/-!
# Names

A name of the caller has a local part and, each optional, a namespace name and the prefix that the
caller would like to see written. "None" may be said in three ways, by leaving a part out, by a null
value or by the empty text; `NamePart.value?` makes one of them, and nothing else reads a part. What
is written is a qualified name (`QName`): a local part with or without a prefix.
-/

namespace XmlWriter

/-- An optional part of a name as the caller gives it. -/
inductive NamePart where
  | absent
  | null
  | given (t : Text)
  deriving DecidableEq, Repr

namespace NamePart

/-- What a part says; the empty text says nothing, like a part that is left out. -/
def value? : NamePart → Option Text
  | .absent | .null | .given [] => none
  | .given (u :: rest) => some (u :: rest)

@[simp] theorem value?_absent : value? .absent = none := rfl
@[simp] theorem value?_null : value? .null = none := rfl
@[simp] theorem value?_given_nil : value? (.given []) = none := rfl

/-- What a part says is never empty. -/
theorem value?_ne_some_nil (p : NamePart) : p.value? ≠ some [] := by
  cases p with
  | absent | null => simp
  | given t => cases t <;> simp [value?]

end NamePart

/-- A text read as the name of a namespace: the empty text names none. -/
def namespaceOf (t : Text) : Option Text := (NamePart.given t).value?

@[simp] theorem namespaceOf_nil : namespaceOf [] = none := rfl

/-- A nonempty text names the namespace of that name. -/
theorem namespaceOf_eq_some_iff {t s : Text} : namespaceOf t = some s ↔ t = s ∧ t ≠ [] := by
  cases t <;> simp [namespaceOf, NamePart.value?]

/-- A name as the caller gives it. Two names are the same name when their namespaces and local parts
agree; the prefix is a wish. -/
structure Name where
  localPart : Text
  prefixPart : NamePart := .absent
  namespacePart : NamePart := .absent
  deriving DecidableEq, Repr

namespace Name

/-- The namespace of a name, if it is in one. -/
def space (n : Name) : Option Text := n.namespacePart.value?

/-- The prefix that the caller would like to see, if any. -/
def wish (n : Name) : Option Text := n.prefixPart.value?

end Name

/-- A qualified name as it is written. -/
structure QName where
  pre : Option Text
  localPart : Text
  deriving DecidableEq, Repr

namespace QName

/-- The text of a qualified name: the prefix and a colon, if there is a prefix, and the local
part. -/
def text (q : QName) : Text :=
  match q.pre with
  | none => q.localPart
  | some p => p ++ Text.unit ':' :: q.localPart

@[simp] theorem text_none (l : Text) : text ⟨none, l⟩ = l := rfl

@[simp] theorem text_some (p l : Text) : text ⟨some p, l⟩ = p ++ Text.unit ':' :: l := rfl

end QName

/-- An attribute as the caller gives it. The namespace declarations of an element are among its
attributes: `xmlns="…"` has the local part `xmlns` and no prefix, `xmlns:p="…"` has the local part
`p` and the prefix `xmlns`, and both are in the namespace of declarations. -/
structure Attribute where
  name : Name
  value : Text
  deriving DecidableEq, Repr

/-- The namespace that the prefix `xml` is bound to by definition. -/
def xmlNamespace : Text := Text.ofString "http://www.w3.org/XML/1998/namespace"

/-- The namespace of namespace declarations. -/
def xmlnsNamespace : Text := Text.ofString "http://www.w3.org/2000/xmlns/"

/-- The prefix of the XML namespace. -/
def xmlPrefix : Text := Text.ofString "xml"

/-- The name that declarations are made with: the local part of a default declaration and the prefix
of all others. -/
def xmlnsPrefix : Text := Text.ofString "xmlns"

end XmlWriter
