import Mathlib.Data.List.Forall2
import XmlWriter.Document

/-!
# Parts of names that say nothing

A namespace or a prefix that is left out, one that is null and an empty one say the same: nothing.
They are different values all the same, and a prefix map tells "no namespace" from the namespace
with the empty name, so each function that reads a name has to take them for one. `NamePart.Alike`
relates parts that say the same, and names, attributes, events and trees are alike if they differ in
such parts only. Every step of the writer is shown to be the same for what is alike, from the
declarations of a tag up to events (`Event.emit_eq_of_alike`). Main statement:
`Writer.eq_of_alike`.
-/

namespace XmlWriter

namespace NamePart

/-- The parts that say nothing. -/
inductive IsUnsaid : NamePart → Prop
  | absent : IsUnsaid .absent
  | null : IsUnsaid .null
  | empty : IsUnsaid (.given [])

/-- Parts are alike if they are the same or both say nothing. -/
def Alike (p q : NamePart) : Prop := p = q ∨ p.IsUnsaid ∧ q.IsUnsaid

/-- A part that says nothing has no value. -/
theorem IsUnsaid.value?_eq {p : NamePart} (h : p.IsUnsaid) : p.value? = none := by
  cases h <;> rfl

/-- Parts that are alike have the same value. -/
theorem Alike.value?_eq {p q : NamePart} (h : p.Alike q) : p.value? = q.value? := by
  rcases h with rfl | ⟨hp, hq⟩
  · rfl
  · rw [hp.value?_eq, hq.value?_eq]

end NamePart

/-- Names are alike if they differ only in parts that say nothing. -/
structure Name.Alike (n n' : Name) : Prop where
  localPart : n.localPart = n'.localPart
  prefixPart : n.prefixPart.Alike n'.prefixPart
  namespacePart : n.namespacePart.Alike n'.namespacePart

/-- Names that are alike wish for the same prefix. -/
theorem Name.Alike.wish {n n' : Name} (h : n.Alike n') : n.wish = n'.wish := h.prefixPart.value?_eq

/-- Names that are alike are in the same namespace. -/
theorem Name.Alike.space {n n' : Name} (h : n.Alike n') : n.space = n'.space :=
  h.namespacePart.value?_eq

/-- Attributes are alike if their names are, and they have the same value. -/
structure Attribute.Alike (a a' : Attribute) : Prop where
  name : a.name.Alike a'.name
  value : a.value = a'.value

/-- Events are alike if the names in them are. -/
inductive Event.Alike : Event → Event → Prop
  | refl {e : Event} : Alike e e
  | start {name name' : Name} {attributes attributes' : List Attribute} {childless : Bool}
      (hn : name.Alike name') (ha : List.Forall₂ Attribute.Alike attributes attributes') :
      Alike (.start name attributes childless) (.start name' attributes' childless)
  | close {name name' : Name} (hn : name.Alike name') : Alike (.close name) (.close name')

/-! ## Attributes -/

namespace Attribute

section
variable {a a' : Attribute} (h : a.Alike a')
include h

/-- Alike attributes are both declarations or both none. -/
theorem Alike.isDeclaration : a.isDeclaration = a'.isDeclaration := by
  rw [Attribute.isDeclaration, Attribute.isDeclaration, h.name.space]

/-- Alike attributes have the same key. -/
theorem Alike.key : a.key = a'.key := by
  rw [Attribute.key, Attribute.key, h.name.space, h.name.localPart]

/-- Messages show alike attributes in the same way. -/
theorem Alike.wishedName : a.wishedName = a'.wishedName := by
  rw [Attribute.wishedName, Attribute.wishedName, h.name.wish, h.name.localPart]

/-- Alike attributes repeat an earlier one in the same cases. -/
theorem Alike.duplicateFlaw? (seen : List (Option Text × Text)) :
    a.duplicateFlaw? seen = a'.duplicateFlaw? seen := by
  rw [Attribute.duplicateFlaw?, Attribute.duplicateFlaw?, h.key, h.wishedName]

/-- Alike declarations are left out in the same cases. -/
theorem Alike.isLeftOut (c : TagContext) (m : PrefixMap) : a.isLeftOut c m = a'.isLeftOut c m := by
  rw [Attribute.isLeftOut, Attribute.isLeftOut, h.value, h.name.wish, h.name.localPart]

/-- Alike declarations have the same flaw, if any. -/
theorem Alike.declarationFlaw? : a.declarationFlaw? = a'.declarationFlaw? := by
  rw [Attribute.declarationFlaw?, Attribute.declarationFlaw?, h.value, h.wishedName]

/-- Alike attributes have the same flaw in their names, if any. -/
theorem Alike.nameFlaw? : a.nameFlaw? = a'.nameFlaw? := by
  rw [Attribute.nameFlaw?, Attribute.nameFlaw?, h.name.localPart, h.name.space]

/-- With the same prefix alike attributes are written in the same way. -/
theorem Alike.writeWith (enforce : Bool) (pre : Option Text) :
    a.writeWith enforce pre = a'.writeWith enforce pre := by
  rw [Attribute.writeWith, Attribute.writeWith, h.nameFlaw?, h.value, h.name.localPart]

/-- Alike declarations are written in the same way. -/
theorem Alike.writeDeclaration (c : TagContext) (m : PrefixMap) :
    a.writeDeclaration c m = a'.writeDeclaration c m := by
  simp only [Attribute.writeDeclaration, h.isLeftOut, h.declarationFlaw?, h.name.wish, h.writeWith]

/-- Alike attributes are written in the same way. -/
theorem Alike.write (c : TagContext) (m : PrefixMap) : a.write c m = a'.write c m := by
  simp only [Attribute.write, h.name.space, h.name.wish, h.isDeclaration, h.writeWith,
    h.writeDeclaration]

/-- Alike attributes add the same to the collected declarations. -/
theorem Alike.collectOne (d : Declarations) : d.collectOne a = d.collectOne a' := by
  simp only [Declarations.collectOne, h.isDeclaration, h.name.wish, h.name.localPart, h.value]

end

variable {as as' : List Attribute}

/-- Attributes that are alike one by one are written in the same way. -/
theorem writeAll_eq_of_alike (h : List.Forall₂ Alike as as') (c : TagContext)
    (seen : List (Option Text × Text)) (m : PrefixMap) :
    writeAll c seen m as = writeAll c seen m as' := by
  induction h generalizing seen m with
  | nil => rfl
  | cons ha _ ih => simp only [writeAll, ha.duplicateFlaw?, ha.write, ha.key, ih]

/-- They have the same declarations among them. -/
theorem collect_eq_of_alike (h : List.Forall₂ Alike as as') (m : PrefixMap) :
    Declarations.collect m as = Declarations.collect m as' := by
  unfold Declarations.collect
  generalize (⟨m, [], none⟩ : Declarations) = d
  induction h generalizing d with
  | nil => rfl
  | cons ha _ ih => rw [List.foldl_cons, List.foldl_cons, ha.collectOne, ih]

end Attribute

/-! ## Events -/

/-- Elements with alike names are written in the same way. -/
theorem Resolution.of_eq_of_alike {name name' : Name} (h : name.Alike name') (enforce : Bool)
    (d : Declarations) (inherited : Option Text) :
    of enforce d inherited name = of enforce d inherited name' := by
  simp only [of, h.space, h.wish, h.localPart]

/-- Start tags with alike names and attributes are written in the same way. -/
theorem OpenElement.start_eq_of_alike {name name' : Name} {attributes attributes' : List Attribute}
    (hn : name.Alike name') (ha : List.Forall₂ Attribute.Alike attributes attributes')
    (enforce : Bool) (scope : Scope) (childless : Bool) :
    start enforce scope name attributes childless =
      start enforce scope name' attributes' childless := by
  simp only [start, Attribute.collect_eq_of_alike ha, Resolution.of_eq_of_alike hn,
    Attribute.writeAll_eq_of_alike ha, hn.localPart, hn.space]

/-- Events that are alike do the same. -/
theorem Event.emit_eq_of_alike {e e' : Event} (h : e.Alike e') : e.emit = e'.emit := by
  cases h with
  | refl => rfl
  | start hn ha => simp only [emit, emitStart, OpenElement.start_eq_of_alike hn ha]
  | close hn => simp only [emit, emitClose, hn.localPart]

namespace Writer

variable {ω : Type} [Outlet ω] {es es' : List Event}

/-- A writer performs alike events in the same way. -/
theorem perform_eq_of_alike {e e' : Event} (h : e.Alike e') (w : Writer) (out : ω) :
    w.perform out e = w.perform out e' := by
  rw [perform, perform, Event.emit_eq_of_alike h]

/-- Events that are alike one by one do the same, those after a failure included. -/
theorem performAll_eq_of_alike (h : List.Forall₂ Event.Alike es es') (w : Writer) (out : ω) :
    w.performAll out es = w.performAll out es' := by
  induction h generalizing w out with
  | nil => rfl
  | cons he _ ih => rw [performAll, performAll, perform_eq_of_alike he, ih]

/-- Events that are alike one by one are walked in the same way. -/
theorem walk_eq_of_alike (h : List.Forall₂ Event.Alike es es') (w : Writer) (out : ω) :
    w.walk out es = w.walk out es' := by
  induction h generalizing w out with
  | nil => rfl
  | cons he _ ih => simp only [walk, perform_eq_of_alike he, ih]

end Writer

/-! ## Trees -/

/-- Nodes are alike one by one if the names in them are, at any depth. -/
inductive Node.AlikeAll : List Node → List Node → Prop
  | nil : AlikeAll [] []
  | same {n : Node} {rest rest' : List Node} (hr : AlikeAll rest rest') :
      AlikeAll (n :: rest) (n :: rest')
  | element {name name' : Name} {attributes attributes' : List Attribute}
      {children children' rest rest' : List Node} (hn : name.Alike name')
      (ha : List.Forall₂ Attribute.Alike attributes attributes')
      (hc : AlikeAll children children') (hr : AlikeAll rest rest') :
      AlikeAll (.element name attributes children :: rest)
        (.element name' attributes' children' :: rest')

/-- Sources are alike if the names in them are. -/
inductive Source.Alike : Source → Source → Prop
  | document {d d' : Document} (hd : d.declaration = d'.declaration)
      (hc : Node.AlikeAll d.children d'.children) : Alike (.document d) (.document d')
  | node {n n' : Node} (hn : Node.AlikeAll [n] [n']) : Alike (.node n) (.node n')
  | walker {walk walk' : Extent → List Event}
      (hw : ∀ extent, List.Forall₂ Event.Alike (walk extent) (walk' extent)) :
      Alike (.walker walk) (.walker walk')

/-- Events are alike if they are the same. -/
theorem Event.forall₂_alike_refl (es : List Event) : List.Forall₂ Alike es es :=
  List.forall₂_same.2 fun _ _ => .refl

namespace Node

variable {ns ns' : List Node}

/-- Of lists of nodes that are alike none or both are empty. -/
theorem AlikeAll.isEmpty (h : AlikeAll ns ns') : ns.isEmpty = ns'.isEmpty := by
  cases h <;> rfl

/-- Nodes that are alike have events that are. -/
theorem AlikeAll.eventsOfAll (h : AlikeAll ns ns') :
    List.Forall₂ Event.Alike (eventsOfAll ns) (eventsOfAll ns') := by
  induction h with
  | nil => exact .nil
  | same _ ih => exact List.rel_append (Event.forall₂_alike_refl _) ih
  | @element name name' attributes attributes' _ _ _ _ hn ha hc _ ihc ihr =>
    refine List.rel_append ?_ ihr
    rw [events, events, hc.isEmpty]
    exact .cons (.start hn ha) (List.rel_append ihc (.cons (.close hn) .nil))

end Node

/-- Nodes that are alike have events that are, with or without the tags of the node. -/
theorem Node.AlikeAll.events {n n' : Node} (h : AlikeAll [n] [n']) (extent : Extent) :
    List.Forall₂ Event.Alike ((Source.node n).events extent) ((Source.node n').events extent) := by
  have hw : List.Forall₂ Event.Alike n.events n'.events := by
    simpa [Node.eventsOfAll] using h.eventsOfAll
  cases h with
  | same => exact Event.forall₂_alike_refl _
  | element _ _ hc =>
    cases extent with
    | whole => exact hw
    | content => exact hc.eventsOfAll

/-- Sources that are alike have events that are. -/
theorem Source.Alike.events {s s' : Source} (h : s.Alike s') (extent : Extent) :
    List.Forall₂ Event.Alike (s.events extent) (s'.events extent) := by
  cases h with
  | document hd hc =>
    rw [Source.events, Source.events, Document.events, Document.events, hd]
    exact List.rel_append (Event.forall₂_alike_refl _) hc.eventsOfAll
  | node hn => exact hn.events extent
  | walker hw => exact hw extent

/-! ## Runs -/

/-- A run begins with the same writer under contexts that are alike. -/
theorem Writer.new_eq_of_alike (o : Options) {context : NamePart} (h : o.context.Alike context) :
    new o = new { o with context := context } := by
  rw [new, new, h.value?_eq]

variable {ω : Type} [Outlet ω]

/-- Sources that are alike are written in the same way. -/
theorem Source.write_eq_of_alike {s s' : Source} (h : s.Alike s') (o : Options)
    {context : NamePart} (hc : o.context.Alike context) (out : ω) :
    s.write o out = s'.write { o with context := context } out := by
  rw [write, write, Writer.new_eq_of_alike o hc, Writer.walk_eq_of_alike (h.events _)]

/-- It makes no difference which of the parts that say nothing stands in the name of an element or
an attribute, or as the context: each event leaves the same writer and the same outlet, fails for
the same reason and gives the same warnings, with checks enforced or not, and so does a walk through
a source. -/
theorem Writer.eq_of_alike (o : Options) (context : NamePart) (hc : o.context.Alike context)
    (out : ω) :
    (∀ es es', List.Forall₂ Event.Alike es es' →
      (new o).performAll out es = (new { o with context := context }).performAll out es') ∧
    ∀ s s' : Source, s.Alike s' →
      s.write o out = s'.write { o with context := context } out ∧
      s.writeText o = s'.writeText { o with context := context } ∧
      s.render o = s'.render { o with context := context } := by
  refine ⟨?_, ?_⟩
  · intro es es' h
    rw [new_eq_of_alike o hc, performAll_eq_of_alike h]
  · intro s s' h
    have ht : s.writeText o = s'.writeText { o with context := context } :=
      Source.write_eq_of_alike h { o with extent := some (o.extent.getD .whole) } hc _
    refine ⟨Source.write_eq_of_alike h o hc out, ht, ?_⟩
    rw [Source.render, Source.render, ht]

/-- An element in no namespace with a default declaration, which is left out, and inside it an
element with an attribute: parts left out on the one side are null or empty on the other. -/
theorem Writer.eq_of_alike_null :
    let events (p q : NamePart) : List Event := [
      .start ⟨Text.ofString "e", p, q⟩
        [⟨⟨xmlnsPrefix, p, .given xmlnsNamespace⟩, Text.ofString "urn:x"⟩] false,
      .start ⟨Text.ofString "f", p, .given (Text.ofString "urn:x")⟩
        [⟨⟨Text.ofString "k", p, q⟩, Text.ofString "v"⟩] true,
      .close ⟨Text.ofString "f", p, .given (Text.ofString "urn:x")⟩,
      .close ⟨Text.ofString "e", p, q⟩]
    let run (context : NamePart) (es : List Event) :=
      (new { context := context }).performAll TextBuffer.empty es
    NamePart.null.Alike (.given []) ∧
      run .null (events .absent .absent) = run (.given []) (events .null (.given [])) ∧
      (Source.walker fun _ => events .absent .absent).render { context := .null } =
        (Source.walker fun _ => events (.given []) .null).render { context := .given [] } ∧
      (Source.walker fun _ => events .absent .absent).render { context := .null } =
        .ok (Text.ofString "<e><f xmlns=\"urn:x\" k=\"v\"/></e>") := by
  intro events run
  have hc : NamePart.null.Alike (.given []) := .inr ⟨.null, .empty⟩
  have ha : ∀ p q p' q' : NamePart, p.Alike p' → q.Alike q' →
      List.Forall₂ Event.Alike (events p q) (events p' q') := by
    intro p q p' q' hp hq
    have hf : Name.Alike ⟨Text.ofString "f", p, .given (Text.ofString "urn:x")⟩
        ⟨Text.ofString "f", p', .given (Text.ofString "urn:x")⟩ := ⟨rfl, hp, .inl rfl⟩
    exact .cons (.start ⟨rfl, hp, hq⟩ (.cons ⟨⟨rfl, hp, .inl rfl⟩, rfl⟩ .nil)) <|
      .cons (.start hf (.cons ⟨⟨rfl, hp, hq⟩, rfl⟩ .nil)) <|
      .cons (.close hf) <| .cons (.close ⟨rfl, hp, hq⟩) .nil
  have hn := ha .absent .absent .null (.given []) (.inr ⟨.absent, .null⟩) (.inr ⟨.absent, .empty⟩)
  have he := ha .absent .absent (.given []) .null (.inr ⟨.absent, .empty⟩) (.inr ⟨.absent, .null⟩)
  obtain ⟨hruns, hsources⟩ := eq_of_alike { context := .null } (.given []) hc TextBuffer.empty
  exact ⟨hc, hruns _ _ hn, (hsources _ _ (.walker fun _ => he)).2.2, by decide +kernel⟩

end XmlWriter
