import XmlWriter.Emit
import XmlWriter.Name.LocalPart
import XmlWriter.Number.Counter
import XmlWriter.Tag.Declarations

/-!
# The written name of an element

`Resolution.of` finds the qualified name that an element is written with, and the declaration that
its tag adds so that the name is read back in the element's namespace. An element in the namespace
that it inherits needs no prefix. Any other takes a recorded prefix if there is one; else the prefix
that the caller wishes is declared, unless the element's own attributes bind it to something else,
which calls for a generated one; and without a wish the default namespace is declared.
-/

namespace XmlWriter

/-- How an element is written. -/
structure Resolution where
  /-- The name that the tag shows. -/
  name : QName
  /-- The declaration that the tag adds. -/
  own : Option NsDecl
  /-- The namespace that the content inherits. -/
  inherited : Option Text
  /-- The prefixes recorded for the attributes and the content. -/
  prefixes : PrefixMap
  /-- Whether the default declaration among the attributes is left out. -/
  dropsDefault : Bool
  deriving DecidableEq, Repr

namespace Counter

/-- Takes the next generated prefix. -/
def take : Emit Counter Text := do
  let n ← Emit.get
  Emit.modify Binary64.next
  return generated n

end Counter

namespace Resolution

/-- The namespace that the content inherits once the default declaration among the attributes is
taken into account. -/
def inheritedWith (default? inherited : Option Text) : Option Text :=
  match default? with
  | none => inherited
  | some v => namespaceOf v

/-- An element in the namespace that it inherits, written without a declaration. -/
def inPlace (d : Declarations) (inherited : Option Text) (localPart : Text) : Resolution where
  name := ⟨if inherited = some xmlNamespace then some xmlPrefix else none, localPart⟩
  own := none
  inherited := inherited
  prefixes := d.prefixes
  dropsDefault := d.default?.isSome

/-- An element written with a recorded prefix. A default declaration for the XML namespace says
nothing about the content. -/
def withRecorded (d : Declarations) (inherited : Option Text) (pre localPart : Text) :
    Resolution where
  name := ⟨some pre, localPart⟩
  own := none
  inherited := if d.default? = some xmlNamespace then inherited else inheritedWith d.default? inherited
  prefixes := d.prefixes
  dropsDefault := false

/-- An element whose tag declares a prefix for it. -/
def withDeclared (d : Declarations) (inherited space : Option Text) (pre localPart : Text) :
    Resolution where
  name := ⟨some pre, localPart⟩
  own := some ⟨some pre, space.getD []⟩
  inherited := inheritedWith d.default? inherited
  prefixes := d.prefixes.add space pre
  dropsDefault := false

/-- An element whose tag declares its namespace as the default one, in place of the declaration
among its attributes. -/
def withDefault (d : Declarations) (space : Option Text) (localPart : Text) : Resolution where
  name := ⟨none, localPart⟩
  own := some ⟨none, space.getD []⟩
  inherited := space
  prefixes := d.prefixes
  dropsDefault := true

/-- An element whose attributes declare its namespace as the default one. -/
def withOwnDefault (d : Declarations) (space : Option Text) (localPart : Text) : Resolution where
  name := ⟨none, localPart⟩
  own := none
  inherited := space
  prefixes := d.prefixes
  dropsDefault := false

/-- The prefix that an element takes over: the one of declarations if the caller insists, else a
recorded one. -/
def candidate? (d : Declarations) (space wish : Option Text) : Option Text :=
  if wish = some xmlnsPrefix then wish else d.prefixes.preferred? space wish

/-- The prefix that a tag declares when the caller wishes `wish`. -/
def declared (d : Declarations) (wish : Text) : Emit Counter Text :=
  if d.binds wish then Counter.take else return wish

/-- How an element is written that has the given declarations and inherits a namespace. -/
def of (enforce : Bool) (d : Declarations) (inherited : Option Text) (name : Name) :
    Emit Counter Resolution := do
  let space := name.space
  let namespaceFlaw? := AttValue.flaw? (space.getD [])
  if inherited = space then
    return inPlace d inherited name.localPart
  else
    Emit.demand enforce
      (if name.wish = some xmlnsPrefix then some (.xmlnsElement name.localPart) else none)
    match candidate? d space name.wish, name.wish with
    | some pre, _ => return withRecorded d inherited pre name.localPart
    | none, some wish =>
      let pre ← declared d wish
      Emit.demand enforce namespaceFlaw?
      return withDeclared d inherited space pre name.localPart
    | none, none =>
      if d.default?.isSome ∧ d.default? = space then
        return withOwnDefault d space name.localPart
      else
        Emit.demand enforce namespaceFlaw?
        return withDefault d space name.localPart

end Resolution

end XmlWriter
