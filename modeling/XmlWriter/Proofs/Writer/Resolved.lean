import XmlWriter.Proofs.Writer.Forest
import XmlWriter.Proofs.Writer.Inherited
import XmlWriter.Proofs.Writer.Recorded

/-!
# How the written names resolve

Whether the names of the start tags, read by the declarations in force, are in the namespaces that
the caller gave. A name without a prefix always is, and so is one whose prefix has one declaration
in force; but the prefix map does not forget, and a prefix that has been declared again for another
namespace is still taken for the one it was recorded for. `Writer.readsAs_iff_of_walk` says that
this is all that can go wrong: in a walk that does not fail, a start tag reads as its element
exactly if none of its prefixes has been overridden so. `Writer.not_readsAs_of_rebound` shows that
it does go wrong.
-/

namespace XmlWriter

namespace Event

/-- The name and the attributes of the element that an event starts. -/
def started? : Event → Option (Name × List Attribute)
  | .start name attributes _ => some (name, attributes)
  | _ => none

end Event

namespace Node

/-- The elements among some nodes and inside them, in document order. -/
def elements (ns : List Node) : List (Name × List Attribute) :=
  (eventsOfAll ns).filterMap Event.started?

@[simp] theorem elements_nil : elements [] = [] := rfl

@[simp] theorem elements_element (name : Name) (attributes : List Attribute)
    (children rest : List Node) :
    elements (.element name attributes children :: rest) =
      (name, attributes) :: (elements children ++ elements rest) := by
  simp [elements, eventsOfAll, events, Event.started?, List.filterMap_cons]

/-- A node other than an element adds none. -/
theorem elements_of_content? {node : Node} {c : Option Flaw × Piece} (h : node.content? = some c)
    (rest : List Node) : elements (node :: rest) = elements rest := by
  cases node with
  | element => cases h
  | text | cdata | comment | instruction | doctype =>
    simp [elements, eventsOfAll, events, Event.started?, List.filterMap_cons]

end Node

namespace ReadTag

/-- Whether a start tag is read as that of an element: its name, and its ordinary attributes with
their values, are those of the element, in the same namespaces. -/
def ReadsAs (t : ReadTag) (el : Name × List Attribute) : Prop :=
  t.scope.expand? t.scope.default t.tag.name = some ⟨el.1.space, el.1.localPart⟩ ∧
  List.Forall₂
    (fun a x => t.scope.expand? none x.1 = some ⟨a.name.space, a.name.localPart⟩ ∧ x.2 = a.value)
    (el.2.filter fun a => !a.isDeclaration) t.tag.ordinary

instance (t : ReadTag) (el : Name × List Attribute) : Decidable (t.ReadsAs el) :=
  inferInstanceAs (Decidable (_ ∧ _))

/-- Whether the names in the start tag of an element have prefixes that have not been overridden,
and none of its ordinary attributes has the name of a declaration. -/
def KeepsPrefixes (t : ReadTag) (el : Name × List Attribute) : Prop :=
  (∀ p, t.tag.name.pre = some p → ¬ t.scope.Overridden p el.1.space) ∧
  List.Forall₂ (fun a x => ∀ p, x.1.pre = some p → ¬ t.scope.Overridden p a.name.space)
    (el.2.filter fun a => !a.isDeclaration) t.tag.ordinary

end ReadTag

/-- A scope that is what a reader has inside some open tags, but for what is overridden: each
recorded prefix has been declared for its namespace, `xml` is recorded, and the inherited namespace
is the default namespace or the XML namespace. -/
structure Scope.Reflects (s : Scope) (context : Option Text) (tags : List StartTag) : Prop where
  bound : ∀ b ∈ s.prefixes.bindings, Bound .standard tags b.space b.pre
  xml : ⟨some xmlNamespace, xmlPrefix⟩ ∈ s.prefixes.bindings
  inherited : s.inherited = (InForce.inside context tags).default ∨ s.inherited = some xmlNamespace

/-- What is bound has a declaration in force. -/
theorem Bound.mem_inside {tags : List StartTag} {space : Option Text} {pre : Text}
    (h : Bound .standard tags space pre) (context : Option Text) :
    ⟨some pre, space.getD []⟩ ∈ InForce.inside context tags := by
  rcases h with h | ⟨t, ht, hd⟩
  · obtain ⟨rfl, rfl⟩ := PrefixMap.mem_standard_iff.1 h
    clear h
    induction tags with
    | nil => exact .tail _ (.head _)
    | cons t ts ih => exact List.mem_append_right _ ih
  · induction tags with
    | nil => cases ht
    | cons t' ts ih =>
      rcases List.mem_cons.1 ht with rfl | ht
      · exact List.mem_append_left _ (List.mem_reverse.2 hd)
      · exact List.mem_append_right _ (ih ht)

/-- The scope of the outermost elements is what a reader begins with. -/
theorem Writer.reflects_root (o : Options) (hp : o.prefixes = .standard) :
    (new o).scope.Reflects o.context.value? [] where
  bound b hb := .inl (hp ▸ hb)
  xml := by
    show _ ∈ o.prefixes.bindings
    rw [hp]
    exact PrefixMap.mem_bindings_add _ _ _
  inherited := .inl (InForce.default_root (NamePart.value?_ne_some_nil _)).symm

namespace OpenElement

section
variable {scope : Scope} {name : Name} {attributes : List Attribute} {childless : Bool}
  {n n' : Counter} {ps : List Piece} {e : OpenElement} {context : Option Text}
  {tags : List StartTag}

/-- A start tag written in such a scope leaves one. -/
theorem Started.reflects (h : Started true scope name attributes childless n ps e n')
    (hn : ∀ a ∈ attributes, a.DefaultNamed) (hs : scope.Reflects context tags) :
    e.scope.Reflects context (.ofPieces ps :: tags) where
  bound _ hb := h.bound hs.bound hb
  xml := h.bindings_subset hs.xml
  inherited := (h.tracks hn hs.xml hs.inherited).1

/-- The name of an element is read in the element's namespace exactly if its prefix has not been
overridden. -/
theorem Started.expand?_name_iff (h : Started true scope name attributes childless n ps e n')
    (hn : ∀ a ∈ attributes, a.DefaultNamed) (hs : scope.Reflects context tags) :
    let s := InForce.inside context (.ofPieces ps :: tags)
    s.expand? s.default (StartTag.ofPieces ps).name = some ⟨name.space, name.localPart⟩ ↔
      ∀ p, (StartTag.ofPieces ps).name.pre = some p → ¬ s.Overridden p name.space := by
  intro s
  rw [h.name_ofPieces, ← h.localPart]
  rcases hq : e.name with ⟨_ | p, l⟩
  · have hd : name.space = s.default := (h.tracks hn hs.xml hs.inherited).2 (by rw [hq])
    simp [InForce.expand?, hd]
  · have hm : ⟨some p, name.space.getD []⟩ ∈ s := by
      rcases h.bound_name hs.bound (by rw [hq]) with hb | ⟨rfl, hx⟩
      · exact hb.mem_inside context
      · have hb := (h.reflects hn hs).bound _ (h.bindings_subset hs.xml)
        rw [hx]
        exact hb.mem_inside context
    rw [InForce.expand?_eq_some_iff name.space_ne_some_nil hm]
    simp

/-- The ordinary attributes are read as what they are exactly if none has the name of a declaration
and none of their prefixes has been overridden. -/
theorem Started.forall₂_ordinary_iff (h : Started true scope name attributes childless n ps e n')
    (hn : ∀ a ∈ attributes, a.DefaultNamed) (hs : scope.Reflects context tags) :
    let s := InForce.inside context (.ofPieces ps :: tags)
    List.Forall₂
        (fun a x => s.expand? none x.1 = some ⟨a.name.space, a.name.localPart⟩ ∧ x.2 = a.value)
        (attributes.filter fun a => !a.isDeclaration) (StartTag.ofPieces ps).ordinary ↔
      List.Forall₂ (fun a x => ∀ p, x.1.pre = some p → ¬ s.Overridden p a.name.space)
        (attributes.filter fun a => !a.isDeclaration) (StartTag.ofPieces ps).ordinary := by
  intro s
  have hr := (h.reflects hn hs).bound
  cases h with
  | @mk r m n₁ n₂ body _ _ ha =>
    obtain ⟨-, hall⟩ := ha.spelled.ordinary hn
    rw [StartTag.ordinary_start ha.spelled]
    have key : ∀ (a : Attribute) (x : QName × Text),
        x = (⟨x.1.pre, a.name.localPart⟩, a.value) ∧
          Attribute.RecordedAs m a.name.space x.1.pre ∧ a.Passes true →
        (s.expand? none x.1 = some ⟨a.name.space, a.name.localPart⟩ ∧ x.2 = a.value ↔
          ∀ p, x.1.pre = some p → ¬ s.Overridden p a.name.space) := by
      rintro a ⟨⟨pre, l⟩, v⟩ ⟨hx, hR, -⟩
      cases hx
      rcases hR with ⟨hsp, rfl⟩ | ⟨v, p, hsp, rfl, hb⟩
      · simp [InForce.expand?, hsp]
      · have hm := (hr ⟨some v, p⟩ hb).mem_inside context
        rw [← hsp] at hm
        rw [InForce.expand?_eq_some_iff a.name.space_ne_some_nil hm]
        simp only [Option.some.injEq, forall_eq', and_true]
        rfl
    constructor
    · intro hf
      exact (hall hf.length_eq.symm).mp (fun a x hx => (key a x hx).1) hf
    · intro hf
      exact (hall hf.length_eq.symm).mp (fun a x hx => (key a x hx).2) hf

/-- A start tag reads as its element exactly if its prefixes have not been overridden. -/
theorem Started.readsAs_iff (h : Started true scope name attributes childless n ps e n')
    (hn : ∀ a ∈ attributes, a.DefaultNamed) (hs : scope.Reflects context tags) :
    let t : ReadTag := ⟨.ofPieces ps, InForce.inside context (.ofPieces ps :: tags)⟩
    t.ReadsAs (name, attributes) ↔ t.KeepsPrefixes (name, attributes) :=
  and_congr (h.expand?_name_iff hn hs) (h.forall₂_ordinary_iff hn hs)

/-- A reader that comes to a start tag reads it, and goes on inside it or after it. -/
theorem Started.readTags (h : Started true scope name attributes childless n ps e n')
    (rest : List Piece) :
    XmlWriter.readTags context tags .blank (ps ++ .tagEnd :: rest) =
      ⟨.ofPieces ps, InForce.inside context (.ofPieces ps :: tags)⟩ ::
        XmlWriter.readTags context (if childless then tags else .ofPieces ps :: tags) .blank
          rest := by
  rw [readTags_append_of_isInTag h.isInTag, ← h.isEmpty_ofPieces]
  rfl

end

end OpenElement

namespace Node

/-- Content between tags does not matter to a reader of tags. -/
theorem readTags_content {node : Node} {flaw? : Option Flaw} {p : Piece}
    (h : node.content? = some (flaw?, p)) (context : Option Text) (tags : List StartTag)
    (rest : List Piece) :
    readTags context tags .blank (p :: rest) = readTags context tags .blank rest := by
  cases node with
  | element => cases h
  | text | cdata | comment | instruction | doctype =>
    cases h
    rfl

/-- What holds of a start tag and its element wherever `I` holds of the scope and the tags around
them, and `I` again of those inside, holds of all elements of nodes that have been written, one by
one; and then the reader stands where it began. -/
theorem WrittenAll.forall₂_readTags {scope : Scope} {context : Option Text} {tags : List StartTag}
    {n n' : Counter} {ns : List Node} {ps : List Piece} (h : WrittenAll true scope n ns ps n')
    {P : List Attribute → Prop} {I : Scope → List StartTag → Prop}
    {Q : Name × List Attribute → ReadTag → Prop}
    (step : ∀ {scope name attributes childless n tag el n' tags},
      OpenElement.Started true scope name attributes childless n tag el n' → P attributes →
      I scope tags → I el.scope (.ofPieces tag :: tags) ∧
        Q (name, attributes) ⟨.ofPieces tag, InForce.inside context (.ofPieces tag :: tags)⟩)
    (hn : ∀ el ∈ elements ns, P el.2) (hs : I scope tags) (rest : List Piece) :
    ∃ ts, XmlWriter.readTags context tags .blank (ps ++ rest) =
        ts ++ XmlWriter.readTags context tags .blank rest ∧
      List.Forall₂ Q (elements ns) ts := by
  induction h generalizing tags rest with
  | nil => exact ⟨[], rfl, .nil⟩
  | content hc _ _ ih =>
    rw [elements_of_content? hc] at hn ⊢
    rw [List.cons_append, readTags_content hc]
    exact ih hn hs rest
  | @childless _ _ _ _ name attributes ns tag ps _ ht _ ih =>
    rw [elements_element, elements_nil, List.nil_append] at hn ⊢
    obtain ⟨-, hq⟩ := step ht (hn _ (.head _)) hs
    obtain ⟨ts, hr, hf⟩ := ih (fun el hel => hn el (.tail _ hel)) hs rest
    refine ⟨_ :: ts, ?_, .cons hq hf⟩
    rw [List.append_assoc, List.cons_append, ht.readTags, if_pos rfl, hr, List.cons_append]
  | @element _ _ _ _ _ name attributes children ns tag inner ps el _ ht _ _ ihi ihr =>
    rw [elements_element] at hn ⊢
    obtain ⟨hi, hq⟩ := step ht (hn _ (.head _)) hs
    obtain ⟨ts, hr, hf⟩ := ihr
      (fun el hel => hn el (.tail _ (List.mem_append_right _ hel))) hs rest
    obtain ⟨ts', hr', hf'⟩ := ihi
      (fun el hel => hn el (.tail _ (List.mem_append_left _ hel))) hi
      (.endTag el.name :: (ps ++ rest))
    refine ⟨_ :: (ts' ++ ts), ?_, .cons hq (List.rel_append hf' hf)⟩
    rw [List.append_assoc, List.cons_append, List.append_assoc, List.cons_append, ht.readTags,
      if_neg Bool.false_ne_true, hr', List.cons_append, List.append_assoc, ← hr]
    rfl

/-- In nodes that have been written on their own there are no other start tags. -/
theorem WrittenAll.forall₂_of_readTags {scope : Scope} {context : Option Text} {n n' : Counter}
    {ns : List Node} {ps : List Piece} (h : WrittenAll true scope n ns ps n')
    {P : List Attribute → Prop} {I : Scope → List StartTag → Prop}
    {Q : Name × List Attribute → ReadTag → Prop}
    (step : ∀ {scope name attributes childless n tag el n' tags},
      OpenElement.Started true scope name attributes childless n tag el n' → P attributes →
      I scope tags → I el.scope (.ofPieces tag :: tags) ∧
        Q (name, attributes) ⟨.ofPieces tag, InForce.inside context (.ofPieces tag :: tags)⟩)
    (hn : ∀ el ∈ elements ns, P el.2) (hs : I scope []) :
    List.Forall₂ Q (elements ns) (XmlWriter.readTags context [] .blank ps) := by
  obtain ⟨ts, hr, hf⟩ := h.forall₂_readTags step hn hs []
  rw [List.append_nil, XmlWriter.readTags, List.append_nil] at hr
  exact hr ▸ hf

/-- The start tags of nodes that have been written read as the elements, one by one, exactly if
their prefixes have not been overridden. -/
theorem WrittenAll.readTags {scope : Scope} {context : Option Text} {tags : List StartTag}
    {n n' : Counter} {ns : List Node} {ps : List Piece} (h : WrittenAll true scope n ns ps n')
    (hn : ∀ el ∈ elements ns, ∀ a ∈ el.2, a.DefaultNamed) (hs : scope.Reflects context tags)
    (rest : List Piece) :
    ∃ ts, XmlWriter.readTags context tags .blank (ps ++ rest) =
        ts ++ XmlWriter.readTags context tags .blank rest ∧
      List.Forall₂ (fun el t => t.ReadsAs el ↔ t.KeepsPrefixes el) (elements ns) ts :=
  h.forall₂_readTags (P := fun as => ∀ a ∈ as, a.DefaultNamed)
    (I := fun scope tags => scope.Reflects context tags)
    (fun ht ha hs => ⟨ht.reflects ha hs, ht.readsAs_iff ha hs⟩) hn hs rest

end Node

namespace Writer

variable {ω : Type} [Outlet ω]

/-- With checks enforced and the standard prefixes, the start tags that a walk has written when it
does not fail are one for each element, and each of them reads as its element exactly if its
prefixes have not been overridden: an element or an attribute that is read in another namespace has
a prefix that was declared for its own and is now declared for the other. The default declarations
among the attributes must have their name. -/
theorem readsAs_iff_of_walk (o : Options) (ho : o.enforce = true) (hp : o.prefixes = .standard)
    (out : ω) (ns : List Node) (hn : ∀ el ∈ Node.elements ns, ∀ a ∈ el.2, a.DefaultNamed)
    (hw : ((new o).walk out (Node.eventsOfAll ns)).failure = none) :
    List.Forall₂ (fun el t => t.ReadsAs el ↔ t.KeepsPrefixes el) (Node.elements ns)
      (readTags o.context.value? [] .blank ((new o).pieces (Node.eventsOfAll ns))) := by
  obtain ⟨n', h⟩ := writtenAll_of_walk hw
  have he : (new o).enforce = true := ho
  rw [he] at h
  obtain ⟨ts, hr, hf⟩ := h.readTags hn (reflects_root o hp) []
  rw [List.append_nil, readTags, List.append_nil] at hr
  exact hr ▸ hf

/-- A prefix that is declared for one namespace and then for another. -/
theorem readsAs_iff_of_redeclared :
    let name := fun (l v : String) => (⟨Text.ofString l, .given (Text.ofString "p"),
      .given (Text.ofString v)⟩ : Name)
    let ns := [Node.element (name "a" "urn:x") [] [.element (name "b" "urn:y") [] []]]
    ((new {}).walk TextBuffer.empty (Node.eventsOfAll ns)).failure = none ∧
      List.Forall₂ (fun el t => t.ReadsAs el ↔ t.KeepsPrefixes el) (Node.elements ns)
        (readTags none [] .blank ((new {}).pieces (Node.eventsOfAll ns))) := by
  intro name ns
  have hw : ((new {}).walk TextBuffer.empty (Node.eventsOfAll ns)).failure = none := by
    decide +kernel
  exact ⟨hw, readsAs_iff_of_walk {} rfl rfl TextBuffer.empty ns (by decide +kernel) hw⟩

/-- Not every element is read in its namespace: a prefix that has been declared again is still taken
for the namespace that it was declared for first. -/
theorem not_readsAs_of_rebound :
    let name := fun (l v : String) => (⟨Text.ofString l, .given (Text.ofString "p"),
      .given (Text.ofString v)⟩ : Name)
    let ns := [Node.element (name "a" "urn:x") [] [.element (name "b" "urn:y") []
      [.element (name "c" "urn:x") [] []]]]
    ((new {}).walk TextBuffer.empty (Node.eventsOfAll ns)).failure = none ∧
      ¬ List.Forall₂ (fun el t => ReadTag.ReadsAs t el) (Node.elements ns)
        (readTags none [] .blank ((new {}).pieces (Node.eventsOfAll ns))) := by
  decide +kernel

end Writer

end XmlWriter
