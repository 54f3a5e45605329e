import XmlWriter.Tag.Resolution

/-!
# The attributes of a start tag

The attributes are written in their order. An attribute in a namespace takes a recorded prefix; if
there is none, one is generated and declared just before it. A declaration is left out where the
tag or the scope already says what it says.
-/

namespace XmlWriter

/-- What the attributes of a tag need to know of it. -/
structure TagContext where
  enforce : Bool
  /-- The declarations among the attributes. -/
  declarations : Declarations
  /-- Whether the default declaration is left out. -/
  dropsDefault : Bool

namespace Attribute

/-- Namespace and local part, which make two attributes the same. -/
def key (a : Attribute) : Option Text × Text := (a.name.space, a.name.localPart)

/-- The name that a caller gave, as messages show it. -/
def wishedName (a : Attribute) : QName := ⟨a.name.wish, a.name.localPart⟩

/-- What is wrong with an attribute after others with the given keys. -/
def duplicateFlaw? (seen : List (Option Text × Text)) (a : Attribute) : Option Flaw :=
  if a.key ∈ seen then some (.duplicateAttribute a.wishedName) else none

/-- Whether a declaration is left out: one of the XML namespace, a default declaration that the tag
makes up for, and a prefix declaration that the map holds and the attributes do not make anew. -/
def isLeftOut (c : TagContext) (m : PrefixMap) (a : Attribute) : Bool :=
  a.value = xmlNamespace ||
    match a.name.wish with
    | none => c.dropsDefault
    | some _ =>
      c.declarations.valueOf? a.name.localPart ≠ some a.value &&
        m.holds (namespaceOf a.value) a.name.localPart

/-- What is wrong with a declaration that is not left out. -/
def declarationFlaw? (a : Attribute) : Option Flaw :=
  if a.value = xmlnsNamespace then some (.bindsXmlns a.wishedName)
  else if a.value = [] then some (.undeclares a.wishedName)
  else none

/-- What is wrong with the name of an attribute: its local part, or that it is `xmlns` in no
namespace. -/
def nameFlaw? (a : Attribute) : Option Flaw :=
  (LocalPart.flaw? .attribute a.name.localPart).or
    (if a.name.localPart = xmlnsPrefix ∧ a.name.space = none then some .bareXmlns else none)

/-- Checks an attribute and writes it with the given prefix. -/
def writeWith (enforce : Bool) (a : Attribute) (pre : Option Text) : Emit Counter Unit := do
  Emit.demand enforce a.nameFlaw?
  Emit.demand enforce (AttValue.flaw? a.value)
  Emit.write (.attribute ⟨pre, a.name.localPart⟩ a.value)

/-- Writes a declaration, unless it is left out. -/
def writeDeclaration (c : TagContext) (m : PrefixMap) (a : Attribute) : Emit Counter Unit := do
  if a.isLeftOut c m then
    return ()
  else
    Emit.demand c.enforce a.declarationFlaw?
    a.writeWith c.enforce (a.name.wish.map fun _ => xmlnsPrefix)

/-- Makes up a prefix for a namespace and declares it. -/
def declarePrefix (enforce : Bool) (space : Text) : Emit Counter Text := do
  let pre ← Counter.take
  Emit.demand enforce (AttValue.flaw? space)
  Emit.write (.generated ⟨some pre, space⟩)
  return pre

/-- Writes an attribute and gives the prefix map for the next one. -/
def write (c : TagContext) (m : PrefixMap) (a : Attribute) : Emit Counter PrefixMap := do
  match a.name.space with
  | none =>
    a.writeWith c.enforce none
    return m
  | some space =>
    if a.isDeclaration then
      a.writeDeclaration c m
      return m
    else
      match m.preferred? (some space) a.name.wish with
      | some pre =>
        a.writeWith c.enforce (some pre)
        return m
      | none =>
        let pre ← declarePrefix c.enforce space
        a.writeWith c.enforce (some pre)
        return m.add (some space) pre

/-- Writes attributes in their order. An attribute that repeats the namespace and local part of an
earlier one is at fault even if that one was left out. -/
def writeAll (c : TagContext) (seen : List (Option Text × Text)) (m : PrefixMap) :
    List Attribute → Emit Counter PrefixMap
  | [] => return m
  | a :: rest => do
    Emit.demand c.enforce (a.duplicateFlaw? seen)
    let m' ← a.write c m
    writeAll c (a.key :: seen) m' rest

end Attribute

end XmlWriter
