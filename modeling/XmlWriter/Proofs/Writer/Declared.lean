import XmlWriter.Proofs.Tag.Legal
import XmlWriter.Proofs.Writer.Resolved

/-!
# Whether the caller's declarations are in force

A prefix declaration among the attributes of an element is left out of the tag if the prefix map
holds the prefix for that namespace already. What the map holds has been declared in the tag or
around it, so the declaration has been made in any case; but the map does not say whether the prefix
has been declared for another namespace since, by a tag in between or by the tag itself.
`Writer.honours_iff_of_walk` says that this is all that can be wrong, in any walk that does not
fail, and `Writer.not_honours_of_redeclared` that it does go wrong.
-/

namespace XmlWriter

/-- Texts that name one namespace, or none, are the same. -/
theorem namespaceOf_inj {v v' : Text} (h : namespaceOf v = namespaceOf v') : v = v' := by
  rw [← getD_namespaceOf v, h, getD_namespaceOf]

/-- A prefix that has been declared with a value has that value exactly if it has not been
overridden. -/
theorem InForce.value?_eq_some_iff {s : InForce} {pre v : Text} (hm : ⟨some pre, v⟩ ∈ s) :
    s.value? (some pre) = some v ↔ ¬ s.Overridden pre (namespaceOf v) := by
  have hs : namespaceOf v ≠ some [] := NamePart.value?_ne_some_nil _
  have hiff : s.expand? none ⟨some pre, []⟩ = some ⟨namespaceOf v, []⟩ ↔
      ¬ s.Overridden pre (namespaceOf v) :=
    expand?_eq_some_iff hs (by rwa [getD_namespaceOf])
  rw [← hiff]
  constructor
  · intro h
    simp [expand?, h]
  · intro h
    obtain ⟨v', hv, he⟩ := Option.map_eq_some_iff.1 h
    rw [hv, namespaceOf_inj (congrArg ExpandedName.space he)]

/-- Whether a prefix has the value in a start tag that an attribute declares it with. -/
def ReadTag.Honours (t : ReadTag) (a : Attribute) : Prop :=
  t.scope.value? (some a.name.localPart) = some a.value

instance (t : ReadTag) (a : Attribute) : Decidable (t.Honours a) :=
  inferInstanceAs (Decidable (_ = _))

/-- What the attributes of a tag declare has been declared in the tag or around it, and is in force
unless the prefix has been overridden. -/
theorem OpenElement.Started.honours_iff {scope : Scope} {name : Name} {attributes : List Attribute}
    {childless : Bool} {n n' : Counter} {ps : List Piece} {e : OpenElement}
    {context : Option Text} {tags : List StartTag}
    (h : Started true scope name attributes childless n ps e n')
    (hb : ∀ b ∈ scope.prefixes.bindings, Bound .standard tags b.space b.pre) {a : Attribute}
    (ha : a ∈ attributes) (hp : a.IsPrefixDeclaration) (hx : a.value ≠ xmlNamespace) :
    let t : ReadTag := ⟨.ofPieces ps, InForce.inside context (.ofPieces ps :: tags)⟩
    ⟨some a.name.localPart, a.value⟩ ∈ t.scope ∧
      (t.Honours a ↔ ¬ t.scope.Overridden a.name.localPart (namespaceOf a.value)) := by
  intro t
  have hrec := h.mem_bindings_of_isPrefixDeclaration ha hp hx
  have hm : ⟨some a.name.localPart, (namespaceOf a.value).getD []⟩ ∈ t.scope :=
    (h.bound hb hrec).mem_inside context
  rw [getD_namespaceOf] at hm
  exact ⟨hm, InForce.value?_eq_some_iff hm⟩

namespace Writer

variable {ω : Type} [Outlet ω]

/-- With checks enforced and the standard prefixes, in a walk that does not fail, what the
attributes of an element declare a prefix with has been declared in its start tag or in one around
it, and the prefix has that value in the element exactly if it has not been declared for another
namespace since. What is declared for the XML namespace needs no declaration. -/
theorem honours_iff_of_walk (o : Options) (ho : o.enforce = true) (hp : o.prefixes = .standard)
    (out : ω) (ns : List Node)
    (hw : ((new o).walk out (Node.eventsOfAll ns)).failure = none) :
    List.Forall₂
      (fun el t => ∀ a ∈ el.2, a.IsPrefixDeclaration → a.value ≠ xmlNamespace →
        ⟨some a.name.localPart, a.value⟩ ∈ t.scope ∧
          (ReadTag.Honours t a ↔
            ¬ t.scope.Overridden a.name.localPart (namespaceOf a.value)))
      (Node.elements ns)
      (readTags o.context.value? [] .blank ((new o).pieces (Node.eventsOfAll ns))) := by
  obtain ⟨n', h⟩ := writtenAll_of_walk hw
  have he : (new o).enforce = true := ho
  rw [he] at h
  refine h.forall₂_of_readTags (P := fun _ => True)
    (I := fun scope tags => ∀ b ∈ scope.prefixes.bindings, Bound .standard tags b.space b.pre)
    (fun ht _ hb => ?_) (fun _ _ => trivial) (reflects_root o hp).bound
  exact ⟨fun _ hm => ht.bound hb hm, fun _ ha hp hx => ht.honours_iff hb ha hp hx⟩

/-- A declaration that is left out, since the element around makes it. -/
theorem honours_iff_of_repeated :
    let declared : Name := ⟨Text.ofString "p", .given xmlnsPrefix, .given xmlnsNamespace⟩
    let name := fun l => (⟨Text.ofString l, .absent, .absent⟩ : Name)
    let a : Attribute := ⟨declared, Text.ofString "urn:x"⟩
    let ns := [Node.element (name "a") [a] [.element (name "b") [a] []]]
    ((new {}).walk TextBuffer.empty (Node.eventsOfAll ns)).failure = none ∧
      List.Forall₂
        (fun el t => ∀ a ∈ el.2, a.IsPrefixDeclaration → a.value ≠ xmlNamespace →
          ⟨some a.name.localPart, a.value⟩ ∈ t.scope ∧
            (ReadTag.Honours t a ↔
              ¬ t.scope.Overridden a.name.localPart (namespaceOf a.value)))
        (Node.elements ns) (readTags none [] .blank ((new {}).pieces (Node.eventsOfAll ns))) := by
  intro declared name a ns
  have hw : ((new {}).walk TextBuffer.empty (Node.eventsOfAll ns)).failure = none := by
    decide +kernel
  exact ⟨hw, honours_iff_of_walk {} rfl rfl TextBuffer.empty ns hw⟩

/-- Not every declaration is in force: one that the map still holds is left out although an element
in between declares the prefix for another namespace. -/
theorem not_honours_of_redeclared :
    let declared : Name := ⟨Text.ofString "p", .given xmlnsPrefix, .given xmlnsNamespace⟩
    let name := fun l => (⟨Text.ofString l, .absent, .absent⟩ : Name)
    let a := fun v => (⟨declared, Text.ofString v⟩ : Attribute)
    let ns := [Node.element (name "a") [a "urn:x"] [.element (name "b") [a "urn:y"]
      [.element (name "c") [a "urn:x"] []]]]
    ((new {}).walk TextBuffer.empty (Node.eventsOfAll ns)).failure = none ∧
      ¬ List.Forall₂
        (fun el t => ∀ a ∈ el.2, a.IsPrefixDeclaration → a.value ≠ xmlNamespace →
          ReadTag.Honours t a)
        (Node.elements ns) (readTags none [] .blank ((new {}).pieces (Node.eventsOfAll ns))) := by
  decide +kernel

/-- The tag itself can do so as well, when it declares the prefix for the element. -/
example :
    let p := NamePart.given (Text.ofString "p")
    let a : Attribute := ⟨⟨Text.ofString "p", .given xmlnsPrefix, .given xmlnsNamespace⟩,
      Text.ofString "urn:x"⟩
    let ns := [Node.element ⟨Text.ofString "a", .absent, .absent⟩ [a]
      [.element ⟨Text.ofString "b", p, .given (Text.ofString "urn:y")⟩ [a] []]]
    ((new {}).walk TextBuffer.empty (Node.eventsOfAll ns)).failure = none ∧
      ¬ List.Forall₂
        (fun el t => ∀ a ∈ el.2, a.IsPrefixDeclaration → a.value ≠ xmlNamespace →
          ReadTag.Honours t a)
        (Node.elements ns) (readTags none [] .blank ((new {}).pieces (Node.eventsOfAll ns))) := by
  decide +kernel

end Writer

end XmlWriter
