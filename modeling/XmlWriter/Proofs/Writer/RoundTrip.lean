import XmlWriter.Proofs.Reading.References
import XmlWriter.Proofs.Tag.Consistent
import XmlWriter.Proofs.Tag.Names
import XmlWriter.Proofs.Writer.Resolved

/-!
# Reading back what was written

For trees that use every prefix for one namespace the writer loses nothing: a reader makes the same
elements of the text, with the same attributes, characters and comments, whatever else the writer
has put into the tags (`Source.read_of_render`). `Item.addAll` says what it is that a reader should
find. The induction is on the writing of the trees, and carries three things from node to node: the
reader's scope is the writer's, it is settled, and the counter counts exactly.
-/

namespace XmlWriter

/-! ## What a reader should find -/

/-- The expanded name that a caller gave. -/
def Name.expanded (n : Name) : ExpandedName := ⟨n.space, n.localPart⟩

/-- The ordinary ones among some attributes. -/
def Attribute.ordinary (as : List Attribute) : List (ExpandedName × Text) :=
  (as.filter fun a => !a.isDeclaration).map fun a => (a.name.expanded, a.value)

namespace Item

mutual

/-- Some items with those of a node after them. A comment is read with its references. -/
def add (items : List Item) : Node → List Item
  | .element name attributes children =>
    items ++ [.element name.expanded (Attribute.ordinary attributes) (addAll [] children)]
  | .text t => addChars items t
  | .cdata t => addChars items t
  | .comment t => items ++ [.comment (CharData.encode t)]
  | .instruction .. => items
  | .doctype _ => items

/-- Some items with those of nodes after them. -/
def addAll (items : List Item) : List Node → List Item
  | [] => items
  | n :: ns => addAll (add items n) ns

end

end Item

/-- Whether an event may come from trees of elements, text, CDATA and comments that agree with a
meaning of the prefixes. -/
def Event.Agrees (f : Text → Text) : Event → Prop
  | .start name attributes _ => TagAgrees f name attributes
  | .close _ | .text _ | .cdata _ | .comment _ => True
  | .instruction .. | .doctype _ | .declaration _ => False

/-! ## Start tags -/

/-- A reader takes a start tag that it can resolve. -/
theorem Builder.take?_start {b : Builder} {t : StartTag} {name : ExpandedName}
    {attributes : List (ExpandedName × Text)}
    (h : t.resolve? (t.declarations.reverse ++ b.scope) = some (name, attributes)) :
    b.take? (.start t) = some (if t.isEmpty then
        { b with items := b.items ++ [.element name attributes []] }
      else ⟨t.declarations.reverse ++ b.scope, [],
        ⟨t.name, name, attributes, b.scope, b.items⟩ :: b.levels⟩) := by
  cases he : t.isEmpty <;> simp [take?, h, he]

/-- A reader takes the end tag of the innermost element. -/
theorem Builder.take?_close {s : InForce} {items : List Item} {l : Level} {levels : List Level} :
    take? ⟨s, items, l :: levels⟩ (.close l.tag) =
      some ⟨l.scope, l.before ++ [.element l.name l.attributes items], levels⟩ := by
  simp [take?]

/-- A tag that reads as its element, declares nothing that is not allowed and repeats no name is
resolved to the element's names. -/
theorem StartTag.resolve?_eq_some {t : StartTag} {s : InForce} {name : Name}
    {attributes : List Attribute} (h : ReadTag.ReadsAs ⟨t, s⟩ (name, attributes))
    (hl : ∀ d ∈ t.declarations, d.IsLegal) (hp : (t.declarations.map (·.pre)).Nodup)
    (hk : (attributes.map Attribute.key).Nodup) :
    t.resolve? s = some (name.expanded, Attribute.ordinary attributes) := by
  obtain ⟨hn, ha⟩ := h
  have hm : (t.ordinary.mapM fun a => (s.expand? none a.1).map fun n => (n, a.2)) =
      some (Attribute.ordinary attributes) := by
    unfold Attribute.ordinary
    generalize (attributes.filter fun a => !a.isDeclaration) = plain at ha
    generalize t.ordinary = read at ha
    induction ha with
    | nil => rfl
    | @cons a x plain read hx _ ih =>
      obtain ⟨hx, hv⟩ := hx
      simp only at hx
      simp [List.mapM_cons, hx, ih, hv, Name.expanded]
  have hnd : ((Attribute.ordinary attributes).map (·.1)).Nodup := by
    have hsub : ((attributes.filter fun a => !a.isDeclaration).map Attribute.key).Nodup :=
      (List.filter_sublist.map Attribute.key).nodup hk
    refine List.Nodup.of_map (fun e => (e.space, e.localPart)) ?_
    rw [Attribute.ordinary, List.map_map, List.map_map]
    exact hsub
  simp only at hn
  simpa [resolve?, hn, hm, hp, hnd, Name.expanded] using hl

/-- What stands in a tag for attributes is the text of what it shows. -/
theorem Attribute.Spelled.flatMap_render {R : Attribute → Option Text → Prop}
    {as : List Attribute} {ps : List Piece} (h : Spelled R as ps) :
    ps.flatMap Piece.render = (ps.flatMap Piece.shown).flatMap fun x => attributeText x.1 x.2 := by
  induction h with
  | nil => rfl
  | leftOut _ _ ih => exact ih
  | declaration _ _ ih | named _ _ _ ih | generated _ _ _ ih =>
    simp [ih, declarationPiece, piece, Piece.render]

/-- Whether carriage returns stand in a piece only if it is character data, a section or a comment.
-/
def Piece.IsPlain : Piece → Prop
  | .text _ | .cdata _ | .comment _ => True
  | p => Text.unit '\r' ∉ p.render

/-- A piece without carriage returns is plain. -/
theorem Piece.isPlain_of_not_mem {p : Piece} (h : Text.unit '\r' ∉ p.render) : p.IsPlain := by
  cases p <;> trivial

theorem Piece.isPlain_tagEnd : Piece.IsPlain .tagEnd := isPlain_of_not_mem (by decide)

/-- The end tag of a proper name is plain. -/
theorem Piece.isPlain_endTag {q : QName} (hq : q.IsProper) : Piece.IsPlain (.endTag q) := by
  have hname : Text.unit '\r' ∉ q.text := hq.not_mem (by decide)
  have hmarks : Text.unit '\r' ∉ Text.ofString "</" ∧ Text.unit '\r' ∉ Text.ofString ">" := by
    decide
  exact isPlain_of_not_mem (by simp [render, hname, hmarks])

/-- A writer in a scope and a reader inside some open tags that are in step: the reader's scope is
the writer's, it is settled, and the counter stands at the number `k`. -/
structure InStep (f : Text → Text) (context : Option Text) (tags : List StartTag) (scope : Scope)
    (n : Counter) (k : Int) : Prop where
  reflects : scope.Reflects context tags
  settled : (InForce.inside context tags).Settled f k
  pos : 1 ≤ k
  counter : n = .ofInt k

namespace InStep

variable {f : Text → Text} {context : Option Text} {tags : List StartTag} {scope : Scope}
  {n n' : Counter} {k k' : Int}

/-- The prefixes recorded are known. -/
theorem knows (h : InStep f context tags scope n k) : scope.prefixes.Knows k where
  xml := h.reflects.xml
  known b hb := h.settled.known _ ((h.reflects.bound b hb).mem_inside context) b.pre rfl

/-- Prefixes that are made up inside do not matter outside. -/
theorem advance (h : InStep f context tags scope n k) (hk : k ≤ k') (hn : n' = .ofInt k') :
    InStep f context tags scope n' k' :=
  ⟨h.reflects, h.settled.mono hk, Int.le_trans h.pos hk, hn⟩

end InStep

namespace OpenElement

section
variable {f : Text → Text} {scope : Scope} {name : Name} {attributes : List Attribute}
  {childless : Bool} {n n' : Counter} {ps : List Piece} {e : OpenElement} {k : Int}
  {context : Option Text} {tags : List StartTag} {b b' : Builder}

/-- The text of a start tag is that of its name and its attributes. -/
theorem Started.flatMap_render (h : Started true scope name attributes childless n ps e n') :
    let t := StartTag.ofPieces ps
    ps.flatMap Piece.render = (Text.unit '<' :: t.name.text) ++
      ((t.attributes.flatMap fun x => attributeText x.1 x.2) ++
        (slash name childless).flatMap Piece.render) := by
  cases h with
  | @mk r _ _ _ _ _ _ ha =>
    rw [StartTag.ofPieces_start ha.spelled, List.flatMap_cons, List.flatMap_append,
      ha.spelled.flatMap_render]
    cases ho : r.own <;> simp [Piece.render, Piece.shown]

/-- A start tag with proper names holds no carriage return. -/
theorem Started.isPlain (h : Started true scope name attributes childless n ps e n')
    (hq : (StartTag.ofPieces ps).name.IsProper)
    (hx : ∀ x ∈ (StartTag.ofPieces ps).attributes, x.1.IsProper) : ∀ p ∈ ps, p.IsPlain := by
  have hr : Text.unit '\r' ∈ delimiters := by decide
  have hn : Text.unit '\r' ∉ ps.flatMap Piece.render := by
    rw [h.flatMap_render, List.mem_append, List.mem_append, List.mem_cons]
    rintro ((hu | hm) | hm | hm)
    · exact absurd hu (by decide)
    · exact hq.not_mem hr hm
    · obtain ⟨x, hm, hu⟩ := List.mem_flatMap.1 hm
      have hv : Text.unit '\r' ∉ AttValue.encode x.2 :=
        AttValue.not_mem_encode (r := .carriageReturn) (by decide) x.2
      have hmarks : Text.unit '\r' ∉ Text.ofString "=\"" ∧ Text.unit '\r' ≠ Text.unit ' ' ∧
          Text.unit '\r' ≠ Text.unit '"' := by decide
      simp [attributeText, (hx x hm).not_mem hr, hv, hmarks] at hu
    · cases childless with
      | false => exact absurd hm List.not_mem_nil
      | true =>
        obtain ⟨spaced, hs⟩ : ∃ spaced, (slash name true).flatMap Piece.render =
          Piece.render (.slash spaced) := ⟨_, List.flatMap_singleton _ _⟩
        rw [hs] at hm
        cases spaced <;> exact absurd hm (by decide)
  exact fun p hp => Piece.isPlain_of_not_mem fun hu => hn (List.mem_flatMap.2 ⟨p, hp, hu⟩)

/-- A start tag with proper names is read as what it shows. -/
theorem Started.reads (h : Started true scope name attributes childless n ps e n')
    (hq : (StartTag.ofPieces ps).name.IsProper)
    (hx : ∀ x ∈ (StartTag.ofPieces ps).attributes, x.1.IsProper)
    (hb : b.take? (.start (.ofPieces ps)) = some b') :
    Reader.Reads ⟨.content, b⟩ (ps.flatMap Piece.render ++ Piece.render .tagEnd)
      ⟨.content, b'⟩ := by
  have hempty := h.isEmpty_ofPieces
  rw [h.flatMap_render]
  generalize StartTag.ofPieces ps = t at *
  obtain ⟨m', hm', hr⟩ :=
    Reader.reads_attributes (b := b) hx (Reader.AtTag.name (t := ⟨t.name, [], false⟩) hq rfl)
  rw [List.append_assoc, List.append_assoc]
  refine (Reader.reads_startName hq).append (hr.append ?_)
  cases childless with
  | false =>
    refine Reader.reads_tagEnd hm' ?_
    rw [← hb, ← hempty]
    rfl
  | true =>
    rw [slash, if_pos rfl, List.flatMap_singleton]
    refine Reader.reads_slash hm' _ ?_
    rw [← hb, ← hempty]
    rfl

/-- A start tag that agrees, written in a settled scope, reads as its element. -/
theorem Started.readsAs (h : Started true scope name attributes childless n ps e n')
    (ht : TagAgrees f name attributes) (hs : InStep f context (.ofPieces ps :: tags) e.scope n' k)
    (ho : scope.Reflects context tags) :
    ReadTag.ReadsAs ⟨.ofPieces ps, InForce.inside context (.ofPieces ps :: tags)⟩
      (name, attributes) := by
  refine (h.readsAs_iff (fun a ha => (ht.attributes a ha).defaultNamed) ho).2 ⟨?_, ?_⟩
  · exact fun p _ => hs.settled.not_overridden name.space_ne_some_nil
  · exact (h.ordinary ht hs.knows).imp
      fun a _ _ p _ => hs.settled.not_overridden a.name.space_ne_some_nil

/-- A start tag that agrees keeps writer and reader in step, holds no carriage return, and is read
as the beginning of its element, or as the whole of one without content. -/
theorem Started.reads_start (h : Started true scope name attributes childless n ps e n')
    (hf : IsMeaning f) (ht : TagAgrees f name attributes) (hs : InStep f context tags scope n k)
    (hk : k + Piece.madeUp ps ≤ Binary64.exactLimit) (hb : b.scope = InForce.inside context tags) :
    let inner := InForce.inside context (.ofPieces ps :: tags)
    InStep f context (.ofPieces ps :: tags) e.scope n' (k + Piece.madeUp ps) ∧ e.name.IsProper ∧
      (∀ p ∈ ps, p.IsPlain) ∧
      Reader.Reads ⟨.content, b⟩ (ps.flatMap Piece.render ++ Piece.render .tagEnd)
        ⟨.content, if childless then { b with items :=
            b.items ++ [.element name.expanded (Attribute.ordinary attributes) []] }
          else ⟨inner, [], ⟨e.name, name.expanded, Attribute.ordinary attributes, b.scope,
            b.items⟩ :: b.levels⟩⟩ := by
  intro inner
  obtain ⟨hn', hm', hfit⟩ := h.fits hf ht hs.knows hs.pos hs.counter hk
  have hstep : InStep f context (.ofPieces ps :: tags) e.scope n' (k + Piece.madeUp ps) :=
    ⟨h.reflects (fun a ha => (ht.attributes a ha).defaultNamed) hs.reflects,
      hfit.settled _ hs.settled, by have := hs.pos; omega, hn'⟩
  obtain ⟨hq, hx⟩ := h.isProper (fun _ hb => (hm'.known _ hb).isNCName)
    fun _ hd _ hp => hfit.isNCName hd hp
  have hres : (StartTag.ofPieces ps).resolve? inner =
      some (name.expanded, Attribute.ordinary attributes) :=
    StartTag.resolve?_eq_some (h.readsAs ht hstep hs.reflects) hfit.isLegal hfit.nodup h.nodup_key
  have hinner : inner = (StartTag.ofPieces ps).declarations.reverse ++ b.scope := by
    rw [hb]
    rfl
  rw [hinner] at hres ⊢
  have htake := Builder.take?_start hres
  rw [h.isEmpty_ofPieces, h.name_ofPieces] at htake
  exact ⟨hstep, h.name_ofPieces ▸ hq, h.isPlain hq hx, h.reads hq hx htake⟩

end

end OpenElement

/-! ## Trees -/

/-- The text of a node other than an element is read as the item that the node should give. -/
theorem Node.reads_content {node : Node} {flaw? : Option Flaw} {p : Piece} {f : Text → Text}
    (hc : node.content? = some (flaw?, p)) (hv : vet true flaw? = .ok ())
    (ha : ∀ e ∈ node.events, e.Agrees f) (b : Builder) :
    Reader.Reads ⟨.content, b⟩ p.render ⟨.content, { b with items := Item.add b.items node }⟩ := by
  cases node with
  | element => cases hc
  | text t =>
    cases hc
    exact Reader.reads_charData t
  | cdata t =>
    cases hc
    exact Reader.reads_cdata t
  | comment t =>
    cases hc
    exact Reader.reads_comment (vet_true_eq_ok_iff.1 hv)
  | instruction | doctype => exact (ha _ (.head _)).elim

/-- Content between tags makes up no prefix. -/
theorem Node.madeUp_content {node : Node} {flaw? : Option Flaw} {p : Piece}
    (hc : node.content? = some (flaw?, p)) (ps : List Piece) :
    Piece.madeUp (p :: ps) = Piece.madeUp ps := by
  cases node with
  | element => cases hc
  | text | cdata | comment | instruction | doctype =>
    cases hc
    rfl

/-- Nothing but character data, sections and comments comes from nodes that agree and are no
elements. -/
theorem Node.isPlain_content {node : Node} {flaw? : Option Flaw} {p : Piece} {f : Text → Text}
    (hc : node.content? = some (flaw?, p)) (ha : ∀ e ∈ node.events, e.Agrees f) : p.IsPlain := by
  cases node with
  | element => cases hc
  | text | cdata | comment =>
    cases hc
    trivial
  | instruction | doctype => exact (ha _ (.head _)).elim

/-- Nodes that agree keep writer and reader in step, hold carriage returns only in character data,
sections and comments, and are read as the items that they should give. -/
theorem Node.WrittenAll.reads {scope : Scope} {n n' : Counter} {ns : List Node} {ps : List Piece}
    {f : Text → Text} {context : Option Text} {tags : List StartTag} {k : Int}
    (h : WrittenAll true scope n ns ps n') (hf : IsMeaning f)
    (ha : ∀ e ∈ eventsOfAll ns, e.Agrees f) (hs : InStep f context tags scope n k)
    (hk : k + Piece.madeUp ps ≤ Binary64.exactLimit) {b : Builder}
    (hb : b.scope = InForce.inside context tags) :
    InStep f context tags scope n' (k + Piece.madeUp ps) ∧ (∀ p ∈ ps, p.IsPlain) ∧
      Reader.Reads ⟨.content, b⟩ (ps.flatMap Piece.render)
        ⟨.content, { b with items := Item.addAll b.items ns }⟩ := by
  induction h generalizing tags k b with
  | nil =>
    rw [show Piece.madeUp [] = 0 from rfl, Int.natCast_zero, Int.add_zero]
    exact ⟨hs, nofun, .nil⟩
  | @content _ _ _ node rest _ p ps hc hv _ ih =>
    rw [madeUp_content hc] at hk ⊢
    have hnode : ∀ e ∈ node.events, e.Agrees f := fun e he => ha e (List.mem_append_left _ he)
    have hr := reads_content hc hv hnode b
    obtain ⟨hs', hp, hr'⟩ := ih (fun e he => ha e (List.mem_append_right _ he)) hs hk
      (b := { b with items := Item.add b.items node }) hb
    exact ⟨hs', List.forall_mem_cons.2 ⟨isPlain_content hc hnode, hp⟩, hr.append hr'⟩
  | @childless _ _ _ _ name attributes rest tag ps el ht _ ih =>
    rw [Piece.madeUp_append, Piece.madeUp_tagEnd, Int.natCast_add, ← Int.add_assoc] at hk ⊢
    obtain ⟨hs₁, -, hp, hr⟩ := ht.reads_start hf (ha _ (.head _)) hs (by omega) hb
    obtain ⟨hs', hp', hr'⟩ := ih (fun e he => ha e (List.mem_append_right _ he))
      (hs.advance (by omega) hs₁.counter) hk
      (b := { b with items := Item.add b.items (.element name attributes []) }) hb
    have hread := hr.append hr'
    rw [List.flatMap_append, List.flatMap_cons, ← List.append_assoc]
    refine ⟨hs', List.forall_mem_append.2 ⟨hp, List.forall_mem_cons.2 ⟨?_, hp'⟩⟩, hread⟩
    exact Piece.isPlain_tagEnd
  | @element _ _ _ _ _ name attributes children rest tag inner ps el _ ht _ _ ihi ihr =>
    rw [Piece.madeUp_append, Piece.madeUp_tagEnd, Piece.madeUp_append, Piece.madeUp_endTag,
      Int.natCast_add, Int.natCast_add, ← Int.add_assoc, ← Int.add_assoc] at hk ⊢
    have hchildren : ∀ e ∈ eventsOfAll children, e.Agrees f := fun e he =>
      ha e (List.mem_append_left _ (.tail _ (List.mem_append_left _ he)))
    obtain ⟨hs₁, hq, hp, hr⟩ := ht.reads_start hf (ha _ (.head _)) hs (by omega) hb
    let l : Level := ⟨el.name, name.expanded, Attribute.ordinary attributes, b.scope, b.items⟩
    obtain ⟨hs₂, hpi, hri⟩ := ihi hchildren hs₁ (by omega) (b := ⟨_, [], l :: b.levels⟩) rfl
    obtain ⟨hs', hpr, hrr⟩ := ihr (fun e he => ha e (List.mem_append_right _ he))
      (hs.advance (by omega) hs₂.counter) hk
      (b := { b with items := Item.add b.items (.element name attributes children) }) hb
    have hread := hr.append
      (hri.append ((Reader.reads_endTag hq (Builder.take?_close (l := l))).append hrr))
    rw [Item.addAll]
    refine ⟨hs', ?_, by simpa using hread⟩
    exact List.forall_mem_append.2 ⟨hp, List.forall_mem_cons.2 ⟨Piece.isPlain_tagEnd,
      List.forall_mem_append.2 ⟨hpi, List.forall_mem_cons.2 ⟨Piece.isPlain_endTag hq, hpr⟩⟩⟩⟩

/-! ## Sources -/

/-- A node that is rendered has been walked without a failure, and its text is in the buffer. -/
theorem Source.walk_of_render {o : Options} {node : Node} {t : Text}
    (h : (Source.node node).render o = .ok t) (he : o.extent = none) :
    ((Writer.new o).walk TextBuffer.empty node.events).failure = none ∧
      ((Writer.new o).walk TextBuffer.empty node.events).out.text = t := by
  have hev : (Source.node node).events .whole = node.events := by cases node <;> rfl
  have hw : (Source.node node).writeText o = (Writer.new o).walk TextBuffer.empty node.events := by
    rw [writeText, write, he, ← hev]
    rfl
  rw [render, hw] at h
  generalize (Writer.new o).walk TextBuffer.empty node.events = p at h ⊢
  cases hp : p.failure with
  | none => simpa [hp] using h
  | some failure => simp [hp] at h

/-- A node that is rendered with checks enforced has been written, and its text is that of the
pieces. -/
theorem Source.writtenAll_of_render {context : NamePart} {node : Node} {t : Text}
    (ht : (Source.node node).render { context } = .ok t) :
    let w := Writer.new { context }
    (∃ n', Node.WrittenAll true w.scope w.next [node] (w.pieces node.events) n') ∧
      t = (w.pieces node.events).flatMap Piece.render := by
  intro w
  obtain ⟨hfail, htext⟩ := walk_of_render ht rfl
  rw [Writer.text_walk hfail, TextBuffer.text_empty, List.nil_append] at htext
  have hev : Node.eventsOfAll [node] = node.events := List.append_nil _
  rw [← hev] at hfail ⊢
  exact ⟨Writer.writtenAll_of_walk hfail, hev ▸ htext.symm⟩

/-- Nodes that agree with a meaning of the prefixes, written in a context, are read back from their
text, and hold carriage returns only in character data, sections and comments. -/
theorem Node.WrittenAll.read {f : Text → Text} (hf : IsMeaning f) {context : NamePart}
    {ns : List Node} {ps : List Piece} {n' : Counter}
    (h : let w := Writer.new { context }
      WrittenAll true w.scope w.next ns ps n')
    (ha : ∀ e ∈ eventsOfAll ns, e.Agrees f) (hk : Piece.madeUp ps < Binary64.exactLimit) :
    (∀ p ∈ ps, p.IsPlain) ∧
      XmlWriter.read context.value? (ps.flatMap Piece.render) = some (Item.addAll [] ns) := by
  let w := Writer.new { context }
  have hs : InStep f context.value? [] w.scope w.next 1 :=
    ⟨Writer.reflects_root { context } rfl, InForce.settled_root hf context.value?, Int.le_refl 1,
      rfl⟩
  obtain ⟨-, hp, hr⟩ := h.reads hf ha hs (by omega) (b := (Reader.start context.value?).builder) rfl
  have hrun : (Reader.start context.value?).run (ps.flatMap Piece.render) = _ := hr
  rw [XmlWriter.read, hrun]
  exact ⟨hp, rfl⟩

/-- A node that agrees with a meaning of the prefixes is read back from its text: with checks
enforced and the standard prefixes, whatever the namespace of the context, and with fewer prefixes
made up than a counter can count. -/
theorem Source.read_of_render {f : Text → Text} (hf : IsMeaning f) (context : NamePart)
    (node : Node) (ha : ∀ e ∈ node.events, e.Agrees f)
    (hk : Piece.madeUp ((Writer.new { context }).pieces node.events) < Binary64.exactLimit)
    {t : Text} (ht : (Source.node node).render { context } = .ok t) :
    read context.value? t = some (Item.addAll [] [node]) := by
  obtain ⟨⟨n', hw⟩, rfl⟩ := writtenAll_of_render ht
  have hev : Node.eventsOfAll [node] = node.events := List.append_nil _
  rw [← hev] at ha
  exact (hw.read hf ha hk).2

/-- A meaning of the prefixes that makes a namespace of each. -/
theorem isMeaning_urn :
    IsMeaning fun p => if p = xmlPrefix then xmlNamespace else Text.ofString "urn:" ++ p := by
  have hu : ∀ p t, Text.ofString "urn:" ++ p = t → t.head? = some (Text.unit 'u') := by
    rintro p _ rfl
    rfl
  refine ⟨if_pos rfl, fun p h => ?_, fun p => ?_, fun p => ?_⟩
  · refine Decidable.byContradiction fun hp => ?_
    exact absurd (hu p _ ((if_neg hp).symm.trans h)) (by decide)
  · split <;> exact List.cons_ne_nil _ _
  · split
    · decide
    · exact fun h => absurd (hu p _ h) (by decide)

/-- A tree with a prefix that the writer makes up, and with text that must be escaped, is read back.
-/
theorem Source.read_of_render_made_up :
    let name := fun (l p : String) => (⟨Text.ofString l, .given (Text.ofString p),
      .given (Text.ofString ("urn:" ++ p))⟩ : Name)
    let node := Node.element (name "a" "p") [⟨name "k" "q", Text.ofString "<\""⟩]
      [.text (Text.ofString "x&"), .cdata (Text.ofString "]]>"), .comment (Text.ofString "y")]
    let t := Text.ofString ("<p:a xmlns:p=\"urn:p\" xmlns:ns1=\"urn:q\" " ++
      "ns1:k=\"&lt;&quot;\">x&amp;<![CDATA[]]]]><![CDATA[>]]><!--y--></p:a>")
    (Source.node node).render {} = .ok t ∧
      read none t = some (Item.addAll [] [node]) := by
  intro name node t
  have ht : (Source.node node).render {} = .ok t := by decide +kernel
  refine ⟨ht, read_of_render isMeaning_urn .absent node ?_ (by decide +kernel) ht⟩
  have hfree : ∀ c ∈ ["p", "q"], IsFree (Text.ofString c) := by
    have hc : ∀ c ∈ ["p", "q"], IsNCName (Text.ofString c) ∧ Text.ofString c ≠ xmlnsPrefix ∧
        (Text.ofString c).head? ≠ some (Text.unit 'n') := by decide
    exact fun c hm => ⟨(hc c hm).1, (hc c hm).2.1, fun k => (numbered_ne (hc c hm).2.2).symm⟩
  have hname : ∀ c ∈ ["p", "q"], ∀ l, (name l c).Agrees
      fun p => if p = xmlPrefix then xmlNamespace else Text.ofString "urn:" ++ p := by
    have hc : ∀ c ∈ ["p", "q"],
        NamePart.value? (.given (Text.ofString c)) = some (Text.ofString c) ∧
        NamePart.value? (.given (Text.ofString ("urn:" ++ c))) =
          some (Text.ofString "urn:" ++ Text.ofString c) ∧ Text.ofString c ≠ xmlPrefix := by decide
    intro c hm l p hp
    obtain ⟨hw, hs, hx⟩ := hc c hm
    obtain rfl : Text.ofString c = p := Option.some.inj (hw.symm.trans hp)
    exact ⟨hfree c hm, hs.trans (congrArg some (if_neg hx).symm)⟩
  intro e he
  have hes : node.events = [.start (name "a" "p") [⟨name "k" "q", Text.ofString "<\""⟩] false,
    .text (Text.ofString "x&"), .cdata (Text.ofString "]]>"), .comment (Text.ofString "y"),
    .close (name "a" "p")] := rfl
  rw [hes] at he
  rcases List.mem_cons.1 he with rfl | he
  · refine ⟨hname "p" (by decide) "a", by decide, fun a ha => ?_⟩
    rw [List.mem_singleton.1 ha]
    exact .ordinary (by decide) (hname "q" (by decide) "k")
  · simp only [List.mem_cons, List.not_mem_nil, or_false] at he
    rcases he with rfl | rfl | rfl | rfl <;> trivial
end XmlWriter
