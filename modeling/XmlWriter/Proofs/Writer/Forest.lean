import XmlWriter.Document
import XmlWriter.Proofs.Tag.Start
import XmlWriter.Proofs.Writer.Session

/-!
# Trees that are written to the end

A walk that does not fail has written every node of its trees. `Node.WrittenAll` says what stands in
the output then, by a derivation that follows the trees: each start tag is written in the scope of
the element around it, each end tag has the name of its start tag, and the counter runs through all
of them. `Writer.writtenAll_of_walk` gives the derivation for a walk into any outlet, and
`Writer.text_walk` the text for a walk into a buffer.
-/

namespace XmlWriter

namespace Event

/-- Performs events one after the other, without an outlet. -/
def emitAll : List Event → Emit Writer Unit
  | [] => pure ()
  | e :: es => e.emit >>= fun _ => emitAll es

/-- Some events and then others. -/
theorem emitAll_append (es es' : List Event) :
    emitAll (es ++ es') = emitAll es >>= fun _ => emitAll es' := by
  induction es with
  | nil => simp [emitAll]
  | cons e es ih => simp [emitAll, ih]

/-- Content that passes its check is handed on, and the writer stays as it is. -/
theorem ends_emitContent {w w' : Writer} {flaw? : Option Flaw} {p : Piece} {ps : List Piece}
    {a : Option Warning} :
    (emitContent flaw? p).Ends w ps a w' ↔
      a = none ∧ vet w.enforce flaw? = .ok () ∧ ps = [p] ∧ w' = w := by
  simp only [emitContent, Emit.ends_bind, Emit.ends_get, Emit.ends_demand, Emit.ends_write,
    Emit.ends_pure]
  constructor
  · rintro ⟨_, _, _, _, ⟨rfl, rfl, rfl⟩, ⟨_, _, _, _, ⟨h, rfl, rfl⟩,
      ⟨_, _, _, _, ⟨rfl, rfl⟩, ⟨rfl, rfl, rfl⟩, rfl⟩, rfl⟩, rfl⟩
    exact ⟨rfl, h, rfl, rfl⟩
  · rintro ⟨rfl, h, rfl, rfl⟩
    exact ⟨[], _, _, _, ⟨rfl, rfl, rfl⟩, ⟨[], (), _, _, ⟨h, rfl, rfl⟩,
      ⟨_, (), _, [], ⟨rfl, rfl⟩, ⟨rfl, rfl, rfl⟩, rfl⟩, rfl⟩, rfl⟩

/-- Closing the innermost element gives its end tag, unless the start tag made up for it. -/
theorem ends_emitClose {w w' : Writer} {el : OpenElement} {name : Name} {ps : List Piece}
    {a : Option Warning} (h : (emitClose name).Ends (w.push el) ps a w') :
    a = none ∧ ps = (if el.selfClosed then [] else [.endTag el.name]) ∧ w' = w := by
  rw [emitClose, Emit.ends_bind] at h
  obtain ⟨_, _, _, _, hg, h, rfl⟩ := h
  obtain ⟨rfl, rfl, rfl⟩ := Emit.ends_get.1 hg
  have hi : (w.push el).stack.innermost? = some el := rfl
  rw [hi] at h
  cases hs : el.selfClosed <;> simp only [hs, Bool.false_eq_true, if_false, if_true,
    Emit.ends_bind, Emit.ends_modify, Emit.ends_write, Emit.ends_pure] at h
  · obtain ⟨_, _, _, _, ⟨rfl, rfl⟩, ⟨_, _, _, _, ⟨rfl, rfl⟩, ⟨rfl, rfl, rfl⟩, rfl⟩, rfl⟩ := h
    exact ⟨rfl, rfl, rfl⟩
  · obtain ⟨_, _, _, _, ⟨rfl, rfl⟩, ⟨rfl, rfl, rfl⟩, rfl⟩ := h
    exact ⟨rfl, rfl, rfl⟩

end Event

namespace Writer

/-- The pieces that events hand on one after the other if nothing stops them. -/
def pieces (w : Writer) (es : List Event) : List Piece :=
  ((Event.emitAll es).run w).writes.map (·.1)

variable {ω : Type} [Outlet ω]

/-- A walk that does not fail has handed on all pieces. -/
theorem ends_of_walk {w : Writer} {out : ω} {es : List Event}
    (h : (w.walk out es).failure = none) :
    (Event.emitAll es).Ends w (w.pieces es) () (w.walk out es).writer := by
  suffices ∃ ps, (Event.emitAll es).Ends w ps () (w.walk out es).writer by
    obtain ⟨ps, rfl, hr⟩ := this
    exact ⟨rfl, hr⟩
  induction es generalizing w out with
  | nil => exact ⟨[], Emit.ends_pure.2 ⟨rfl, rfl, rfl⟩⟩
  | cons e es ih =>
    cases hp : (w.perform out e).failure with
    | some failure =>
      rw [walk_cons_of_failed es hp, hp] at h
      cases h
    | none =>
      rw [walk_cons_of_done es hp] at h ⊢
      obtain ⟨a, ha⟩ := ends_of_perform hp
      obtain ⟨ps, hps⟩ := ih h
      exact ⟨_, Emit.ends_bind.2 ⟨_, a, _, ps, ha, hps, rfl⟩⟩

/-- An event that does not fail adds the text of its pieces to a buffer. -/
theorem text_perform {w : Writer} {b : TextBuffer} {e : Event}
    (h : (w.perform b e).failure = none) :
    (w.perform b e).out.text = b.text ++ (e.pieces w).flatMap Piece.render := by
  simp only [perform, TextBuffer.deliver_eq] at h ⊢
  cases hr : (e.emit.run w).result with
  | error flaw => simp [hr] at h
  | ok a =>
    simp [TextBuffer.text, Emitted.chunks, Event.pieces, List.flatMap, Function.comp_def]

/-- A walk that does not fail adds the text of its pieces to a buffer. -/
theorem text_walk {w : Writer} {b : TextBuffer} {es : List Event}
    (h : (w.walk b es).failure = none) :
    (w.walk b es).out.text = b.text ++ (w.pieces es).flatMap Piece.render := by
  induction es generalizing w b with
  | nil => simp [pieces, Event.emitAll]
  | cons e es ih =>
    cases hp : (w.perform b e).failure with
    | some failure =>
      rw [walk_cons_of_failed es hp, hp] at h
      cases h
    | none =>
      obtain ⟨a, ha⟩ := ends_of_perform hp
      have hps : w.pieces (e :: es) = e.pieces w ++ (w.perform b e).writer.pieces es := by
        rw [walk_cons_of_done es hp] at h
        exact (Emit.ends_bind.2 ⟨_, a, _, _, ha, ends_of_walk h, rfl⟩).1
      rw [walk_cons_of_done es hp] at h ⊢
      rw [hps, List.flatMap_append, ← List.append_assoc, ← text_perform hp]
      exact ih h

end Writer

namespace Node

/-- The check that a node other than an element is put to, and the piece it is written as. -/
def content? : Node → Option (Option Flaw × Piece)
  | .element .. => none
  | .text t => some (CharData.flaw? t, .text t)
  | .cdata t => some (CDSect.flaw? t, .cdata t)
  | .comment t => some (Comment.flaw? t, .comment t)
  | .instruction target data =>
    some (Instruction.flaw? target data, .instruction target data)
  | .doctype t => some (none, .doctype t)

/-- Nodes have been written one after the other in a scope and with the counter at `n`: the pieces
of them, and where the counter then stands. -/
inductive WrittenAll (enforce : Bool) :
    Scope → Counter → List Node → List Piece → Counter → Prop
  | nil {scope : Scope} {n : Counter} : WrittenAll enforce scope n [] [] n
  | content {scope : Scope} {n n' : Counter} {node : Node} {rest : List Node} {flaw? : Option Flaw}
      {p : Piece} {ps : List Piece} (hc : node.content? = some (flaw?, p))
      (hv : vet enforce flaw? = .ok ()) (hr : WrittenAll enforce scope n rest ps n') :
      WrittenAll enforce scope n (node :: rest) (p :: ps) n'
  | childless {scope : Scope} {n n₁ n' : Counter} {name : Name} {attributes : List Attribute}
      {rest : List Node} {tag ps : List Piece} {el : OpenElement}
      (hs : OpenElement.Started enforce scope name attributes true n tag el n₁)
      (hr : WrittenAll enforce scope n₁ rest ps n') :
      WrittenAll enforce scope n (.element name attributes [] :: rest) (tag ++ .tagEnd :: ps) n'
  | element {scope : Scope} {n n₁ n₂ n' : Counter} {name : Name} {attributes : List Attribute}
      {children rest : List Node} {tag inner ps : List Piece} {el : OpenElement}
      (hn : children ≠ [])
      (hs : OpenElement.Started enforce scope name attributes false n tag el n₁)
      (hi : WrittenAll enforce el.scope n₁ children inner n₂)
      (hr : WrittenAll enforce scope n₂ rest ps n') :
      WrittenAll enforce scope n (.element name attributes children :: rest)
        (tag ++ .tagEnd :: (inner ++ .endTag el.name :: ps)) n'

/-- The one event of a node other than an element. -/
theorem exists_events_of_content? {node : Node} {flaw? : Option Flaw} {p : Piece}
    (h : node.content? = some (flaw?, p)) :
    ∃ e, node.events = [e] ∧ e.emit = Event.emitContent flaw? p := by
  cases node with
  | element => cases h
  | text | cdata | comment | instruction | doctype =>
    cases h
    exact ⟨_, rfl, rfl⟩

/-- A node without content of its own is an element. -/
theorem eq_element_of_content? {node : Node} (h : node.content? = none) :
    ∃ name attributes children, node = .element name attributes children := by
  cases node with
  | element name attributes children => exact ⟨name, attributes, children, rfl⟩
  | text | cdata | comment | instruction | doctype => cases h

/-- Events of nodes that end well have written the nodes, and only the counter has changed. -/
theorem writtenAll_of_ends (ns : List Node) {w w' : Writer} {ps : List Piece}
    (h : (Event.emitAll (eventsOfAll ns)).Ends w ps () w') :
    ∃ n', WrittenAll w.enforce w.scope w.next ns ps n' ∧ w' = w.withNext n' := by
  match ns with
  | [] =>
    obtain ⟨rfl, -, rfl⟩ := Emit.ends_pure.1 h
    exact ⟨_, .nil, rfl⟩
  | node :: rest =>
    cases hn : node.content? with
    | none =>
      obtain ⟨name, attributes, children, rfl⟩ := eq_element_of_content? hn
      simp only [eventsOfAll, events, List.cons_append, List.nil_append, List.append_assoc,
        Event.emitAll, Event.emitAll_append, Emit.ends_bind] at h
      obtain ⟨_, _, _, _, he, ⟨inner, _, _, _, hc, ⟨_, _, _, ps, hl, hr, rfl⟩, rfl⟩, rfl⟩ := h
      obtain ⟨-, tag, el, n₁, ht, rfl, rfl⟩ := Event.ends_emit_start.1 he
      obtain ⟨n₂, hi, rfl⟩ := writtenAll_of_ends children hc
      obtain ⟨-, rfl, rfl⟩ : _ ∧ _ ∧ _ = w.withNext n₂ := Event.ends_emitClose hl
      obtain ⟨n', hw, rfl⟩ := writtenAll_of_ends rest hr
      have hs := OpenElement.started_of_ends ht
      refine ⟨n', ?_, rfl⟩
      rw [hs.selfClosed]
      cases children with
      | nil =>
        cases hi with
        | nil => simpa using WrittenAll.childless hs hw
      | cons c cs => simpa using WrittenAll.element (List.cons_ne_nil c cs) hs hi hw
    | some c =>
      obtain ⟨e, he, hem⟩ := exists_events_of_content? hn
      rw [eventsOfAll, he, List.singleton_append, Event.emitAll, hem, Emit.ends_bind] at h
      obtain ⟨_, _, _, ps, hc, hr, rfl⟩ := h
      obtain ⟨-, hv, rfl, rfl⟩ := Event.ends_emitContent.1 hc
      obtain ⟨n', hw, rfl⟩ := writtenAll_of_ends rest hr
      exact ⟨n', .content hn hv hw, rfl⟩
termination_by sizeOf ns

end Node

/-- A walk of nodes that does not fail has written them. -/
theorem Writer.writtenAll_of_walk {ω : Type} [Outlet ω] {w : Writer} {out : ω} {ns : List Node}
    (h : (w.walk out (Node.eventsOfAll ns)).failure = none) :
    ∃ n', Node.WrittenAll w.enforce w.scope w.next ns (w.pieces (Node.eventsOfAll ns)) n' := by
  obtain ⟨n', hn, -⟩ := Node.writtenAll_of_ends ns (ends_of_walk h)
  exact ⟨n', hn⟩

end XmlWriter
