import XmlWriter.Document
import XmlWriter.Proofs.Tag.Start

/-!
# Sessions

A session is a writer and an outlet with the start tags of the open elements, as a reader of the
output has seen them. It goes through events in any order, and an event that fails leaves it where
it is. `Session.opened_run` is the induction over all of them: whatever the events and the outlet,
the open elements come from start tags that were written to the end, each in the scope of the one
around it (`Opened`).
-/

namespace XmlWriter

/-- A state in which a delivery stopped is that of one of the chunks. -/
theorem Outlet.mem_of_deliver {ω σ : Type} [Outlet ω] {xs : List (Text × σ)} {out : ω}
    {refusal : Refusal} {s : σ} (h : (deliver xs out).2 = some (refusal, s)) :
    ∃ chunk, (chunk, s) ∈ xs := by
  induction xs generalizing out with
  | nil => cases h
  | cons x xs ih =>
    obtain ⟨chunk, s'⟩ := x
    cases hp : (put out chunk).2 with
    | none =>
      rw [deliver_cons_of_taken _ hp] at h
      obtain ⟨chunk', hc⟩ := ih h
      exact ⟨chunk', .tail _ hc⟩
    | some refusal' =>
      rw [deliver_cons_of_refused _ hp] at h
      cases h
      exact ⟨chunk, .head _⟩

namespace Event

/-- The pieces that an event hands on if none of them is refused. -/
def pieces (w : Writer) (e : Event) : List Piece := (e.emit.run w).writes.map (·.1)

/-- A close leaves the writer as it is, or without its innermost element. -/
theorem eq_or_eq_pop_of_reaches_emitClose {w w' : Writer} {name : Name}
    (hc : (emitClose name).Reaches w w') : w' = w ∨ w.stack ≠ [] ∧ w' = w.pop := by
  rcases hc.of_bind with h | ⟨_, _, _, hg, h⟩
  · exact .inl (Emit.reaches_get.1 h)
  obtain ⟨-, rfl, rfl⟩ := Emit.ends_get.1 hg
  cases hs : (OpenElements.innermost? _) with
  | none =>
    rw [hs] at h
    exact .inl (Emit.reaches_pure.1 h)
  | some e =>
    rw [hs] at h
    refine .inr ⟨fun hn => by simp [hn, OpenElements.innermost?] at hs, ?_⟩
    rcases h.of_bind with h | ⟨_, _, _, hm, h⟩
    · exact Emit.reaches_modify.1 h
    obtain ⟨-, rfl⟩ := Emit.ends_modify.1 hm
    split at h
    · exact Emit.reaches_pure.1 h
    · rcases h.of_bind with h | ⟨_, _, _, hp, h⟩
      · exact Emit.reaches_write.1 h
      · obtain ⟨-, rfl⟩ := Emit.ends_write.1 hp
        exact Emit.reaches_pure.1 h

/-- Content leaves the writer as it is. -/
theorem eq_of_reaches_emitContent {w w' : Writer} {flaw? : Option Flaw} {p : Piece}
    (hc : (emitContent flaw? p).Reaches w w') : w' = w := by
  rcases hc.of_bind with h | ⟨_, _, _, hg, hd⟩
  · exact Emit.reaches_get.1 h
  obtain ⟨-, rfl, rfl⟩ := Emit.ends_get.1 hg
  rcases hd.of_bind with h | ⟨_, _, _, hv, hw⟩
  · exact Emit.reaches_demand.1 h
  obtain ⟨-, -, rfl⟩ := Emit.ends_demand.1 hv
  rcases hw.of_bind with h | ⟨_, _, _, hp, h⟩
  · exact Emit.reaches_write.1 h
  obtain ⟨-, rfl⟩ := Emit.ends_write.1 hp
  exact Emit.reaches_pure.1 h

/-- A start that ends well has written a start tag and opened the element. -/
theorem ends_emit_start {w w' : Writer} {name : Name} {attributes : List Attribute}
    {childless : Bool} {ps : List Piece} {a : Option Warning} :
    (emit (.start name attributes childless)).Ends w ps a w' ↔
      a = none ∧ ∃ qs e n,
        (OpenElement.start w.enforce w.scope name attributes childless).Ends w.next qs e n ∧
        ps = qs ++ [.tagEnd] ∧ w' = (w.withNext n).push e := by
  simp only [emit, emitStart, Emit.ends_bind, Emit.ends_get, Emit.ends_zoom, Emit.ends_modify,
    Emit.ends_write, Emit.ends_pure]
  constructor
  · rintro ⟨_, _, _, _, ⟨_, _, _, _, ⟨rfl, rfl, rfl⟩, ⟨qs, e, _, _, ⟨n, h, rfl⟩,
      ⟨_, _, _, _, ⟨rfl, rfl⟩, ⟨rfl, rfl⟩, rfl⟩, rfl⟩, rfl⟩, ⟨rfl, rfl, rfl⟩, rfl⟩
    exact ⟨rfl, qs, e, n, h, by simp, rfl⟩
  · rintro ⟨rfl, qs, e, n, h, rfl, rfl⟩
    exact ⟨_, (), _, [], ⟨[], _, _, _, ⟨rfl, rfl, rfl⟩, ⟨qs, e, _, _, ⟨n, h, rfl⟩,
      ⟨[], (), _, _, ⟨rfl, rfl⟩, ⟨rfl, rfl⟩, rfl⟩, rfl⟩, rfl⟩, ⟨rfl, rfl, rfl⟩, by simp⟩

/-- A start leaves the writer with another counter, and with the element open only after its tag has
been written up to the last character. -/
theorem reaches_emit_start {w w' : Writer} {name : Name} {attributes : List Attribute}
    {childless : Bool} (h : (emit (.start name attributes childless)).Reaches w w') :
    (∃ n, w' = w.withNext n) ∨ ∃ qs e n,
      (OpenElement.start w.enforce w.scope name attributes childless).Ends w.next qs e n ∧
      pieces w (.start name attributes childless) = qs ++ [.tagEnd] ∧
      w' = (w.withNext n).push e := by
  have hs : (emitStart name attributes childless).Reaches w w' := by
    rcases h.of_bind with h | ⟨_, _, _, hs, h⟩
    · exact h
    · rw [Emit.reaches_pure.1 h]
      exact hs.reaches
  rcases hs.of_bind with hg | ⟨_, _, _, hg, hz⟩
  · exact .inl ⟨w.next, Emit.reaches_get.1 hg⟩
  obtain ⟨-, rfl, rfl⟩ := Emit.ends_get.1 hg
  rcases hz.of_bind with ho | ⟨qs, e, _, ho, hm⟩
  · exact .inl ho.of_zoom
  obtain ⟨n, hn, rfl⟩ := Emit.ends_zoom.1 ho
  refine .inr ⟨qs, e, n, hn, (ends_emit_start.2 ⟨rfl, qs, e, n, hn, rfl, rfl⟩).1, ?_⟩
  rcases hm.of_bind with hp | ⟨_, _, _, hp, ht⟩
  · exact Emit.reaches_modify.1 hp
  · obtain ⟨-, rfl⟩ := Emit.ends_modify.1 hp
    exact Emit.reaches_write.1 ht

end Event

namespace Writer

variable {ω : Type} [Outlet ω]

/-- After an event the writer is in a state that the event reaches. -/
theorem reaches_perform (w : Writer) (out : ω) (e : Event) :
    e.emit.Reaches w (w.perform out e).writer := by
  simp only [perform]
  split
  next hd =>
    obtain ⟨_, hc⟩ := Outlet.mem_of_deliver (congrArg Prod.snd hd)
    obtain ⟨x, hx, he⟩ := List.mem_map.1 hc
    cases he
    exact .inr ⟨x.1, hx⟩
  · split <;> exact .inl rfl

/-- An event that does not fail ends well, with all its pieces handed on. -/
theorem ends_of_perform {w : Writer} {out : ω} {e : Event}
    (h : (w.perform out e).failure = none) :
    ∃ a, e.emit.Ends w (e.pieces w) a (w.perform out e).writer := by
  simp only [perform] at h ⊢
  split at h
  · cases h
  · split at h
    · cases h
    next a ha => simpa using ⟨a, rfl, ha, rfl⟩

/-- A warning comes from an event that ends well. -/
theorem ends_of_mem_warnings {w : Writer} {out : ω} {e : Event} {warning : Warning}
    (h : warning ∈ (w.perform out e).warnings) :
    ∃ w', e.emit.Ends w (e.pieces w) (some warning) w' := by
  simp only [perform] at h
  split at h
  · cases h
  · split at h
    · cases h
    next a ha =>
      obtain rfl := Option.mem_toList.1 h
      exact ⟨_, rfl, ha, rfl⟩

/-- What an event leaves: the same open elements, those without the innermost, or one more whose
start tag has been written. -/
theorem perform_cases (w : Writer) (out : ω) (e : Event) :
    (∃ n, (w.perform out e).writer = w.withNext n) ∨
    (w.stack ≠ [] ∧ (w.perform out e).writer = w.pop) ∨
    ∃ name attributes childless qs el n, e = .start name attributes childless ∧
      (OpenElement.start w.enforce w.scope name attributes childless).Ends w.next qs el n ∧
      e.pieces w = qs ++ [.tagEnd] ∧ (w.perform out e).writer = (w.withNext n).push el := by
  have h := reaches_perform w out e
  cases e with
  | start name attributes childless =>
    rcases Event.reaches_emit_start h with h | ⟨qs, el, n, h⟩
    · exact .inl h
    · exact .inr (.inr ⟨name, attributes, childless, qs, el, n, rfl, h⟩)
  | close name =>
    rcases Event.eq_or_eq_pop_of_reaches_emitClose h with h | h
    · exact .inl ⟨w.next, h⟩
    · exact .inr (.inl h)
  | text | cdata | comment | instruction | doctype | declaration =>
    exact .inl ⟨w.next, Event.eq_of_reaches_emitContent h⟩

end Writer

/-! ## Runs through any events -/

/-- A writer and an outlet in the course of a run, with the start tags of the open elements as they
stand in the output, the innermost first. -/
structure Session (ω : Type) where
  writer : Writer
  out : ω
  tags : List StartTag

namespace Session

variable {ω : Type} [Outlet ω]

/-- The beginning of a run. -/
def start (o : Options) (out : ω) : Session ω := ⟨.new o, out, []⟩

/-- Performs an event, whether it fails or not. The start tag of an element is noted when the
element is opened and forgotten when it is closed. -/
def perform (s : Session ω) (e : Event) : Session ω :=
  let p := s.writer.perform s.out e
  { writer := p.writer
    out := p.out
    tags :=
      if s.writer.depth < p.writer.depth then .ofPieces (e.pieces s.writer) :: s.tags
      else if p.writer.depth < s.writer.depth then s.tags.tail
      else s.tags }

/-- Performs events one after the other. -/
def run (s : Session ω) (es : List Event) : Session ω := es.foldl perform s

/-- A session goes through the same states as the writer that performs all events. -/
theorem run_writer (s : Session ω) (es : List Event) :
    (s.run es).writer = ((s.writer.performAll s.out es).getLast?.map (·.writer)).getD s.writer := by
  induction es generalizing s with
  | nil => rfl
  | cons e es ih =>
    refine (ih (s.perform e)).trans ?_
    rw [Writer.performAll, List.getLast?_cons]
    cases h : ((s.writer.perform s.out e).writer.performAll (s.writer.perform s.out e).out
      es).getLast? <;> simp [perform, h]

end Session

/-! ## The open elements and their start tags -/

/-- The scope inside the innermost of some open elements, or `root` if there are none. -/
def OpenElements.scope (root : Scope) (s : OpenElements) : Scope :=
  (s.innermost?.map (·.scope)).getD root

@[simp] theorem OpenElements.scope_nil (root : Scope) : OpenElements.scope root [] = root := rfl

@[simp] theorem OpenElements.scope_cons (root : Scope) (e : OpenElement) (s : OpenElements) :
    OpenElements.scope root (e :: s) = e.scope := rfl

/-- Open elements that come from start tags written to the end, each in the scope of the element
around it, for attributes of which `P` holds. -/
inductive Opened (enforce : Bool) (root : Scope) (P : List Attribute → Prop) :
    OpenElements → List StartTag → Prop
  | nil : Opened enforce root P [] []
  | cons {stack : OpenElements} {tags : List StartTag} {name : Name} {attributes : List Attribute}
      {childless : Bool} {n n' : Counter} {ps : List Piece} {e : OpenElement}
      (h : Opened enforce root P stack tags) (hP : P attributes)
      (hs : OpenElement.Started enforce (stack.scope root) name attributes childless n ps e n') :
      Opened enforce root P (e :: stack) (.ofPieces ps :: tags)

section
variable {enforce : Bool} {root : Scope} {P : List Attribute → Prop} {stack : OpenElements}
  {tags : List StartTag}

/-- When the innermost element is closed, the others have been opened in the same way. -/
theorem Opened.tail (h : Opened enforce root P stack tags) :
    Opened enforce root P stack.tail tags.tail := by
  cases h with
  | nil => exact .nil
  | cons h => exact h

/-- The outer ones of open elements have been opened in the same way. -/
theorem Opened.drop (h : Opened enforce root P stack tags) (k : Nat) :
    Opened enforce root P (stack.drop k) (tags.drop k) := by
  induction k generalizing stack tags with
  | zero => exact h
  | succ k ih =>
    rw [← List.drop_tail, ← List.drop_tail]
    exact ih h.tail

/-- Any of the open elements is the innermost of those that are left when the ones inside it are
dropped. -/
theorem Opened.of_getElem? (h : Opened enforce root P stack tags) {k : Nat} {e : OpenElement}
    (hk : stack[k]? = some e) :
    Opened enforce root P (e :: stack.drop (k + 1)) (tags.drop k) := by
  obtain ⟨hlt, rfl⟩ := List.getElem?_eq_some_iff.1 hk
  rw [← List.drop_eq_getElem_cons hlt]
  exact h.drop k

/-- The last character of a start tag shows no attribute. -/
theorem StartTag.ofPieces_tagEnd (ps : List Piece) :
    StartTag.ofPieces (ps ++ [.tagEnd]) = StartTag.ofPieces ps := by
  rw [ofPieces, ofPieces, List.foldl_append, List.foldl_cons, List.foldl_nil]
  simp [add, Piece.shown]

end

/-- Whether `P` holds of the attributes of an event. Only starts have some. -/
def Event.OfAttributes (P : List Attribute → Prop) : Event → Prop
  | .start _ attributes _ => P attributes
  | _ => True

instance {P : List Attribute → Prop} [DecidablePred P] : DecidablePred (Event.OfAttributes P) :=
  fun e => by cases e <;> unfold Event.OfAttributes <;> infer_instance

namespace Session

variable {ω : Type} [Outlet ω] {P : List Attribute → Prop}

/-- Whether the open elements of a session come from the noted start tags. -/
def IsOpened (P : List Attribute → Prop) (s : Session ω) : Prop :=
  Opened s.writer.enforce s.writer.root P s.writer.stack s.tags

/-- No event changes the checks and the outermost scope, and what it opens comes from a start
tag. -/
theorem opened_perform {s : Session ω} {e : Event} (h : s.IsOpened P) (he : e.OfAttributes P) :
    (s.perform e).IsOpened P ∧ (s.perform e).writer.enforce = s.writer.enforce ∧
      (s.perform e).writer.root = s.writer.root := by
  unfold IsOpened at h ⊢
  unfold perform
  rcases Writer.perform_cases s.writer s.out e with ⟨n, hw⟩ | ⟨hn, hw⟩ |
    ⟨name, attributes, childless, qs, el, n, rfl, hs, hp, hw⟩
  · simp only [hw]
    exact ⟨by simpa [Writer.depth, Writer.withNext] using h, rfl, rfl⟩
  · have hd : s.writer.pop.depth < s.writer.depth := by
      have := List.length_pos_iff.2 hn
      simp only [Writer.depth, Writer.pop, OpenElements.pop, OpenElements.depth,
        List.length_tail]
      omega
    simp only [hw, if_neg (Nat.lt_asymm hd), if_pos hd]
    exact ⟨h.tail, rfl, rfl⟩
  · have hd : s.writer.depth < ((s.writer.withNext n).push el).depth := Nat.lt_succ_self _
    simp only [hw, if_pos hd, hp, StartTag.ofPieces_tagEnd]
    exact ⟨.cons h he (OpenElement.started_of_ends hs), rfl, rfl⟩

/-- Whatever the events and the outlet, the open elements come from the noted start tags. -/
theorem opened_run (o : Options) (out : ω) (es : List Event) (hes : ∀ e ∈ es, e.OfAttributes P) :
    let s := (start o out).run es
    Opened o.enforce ⟨o.prefixes, o.context.value?⟩ P s.writer.stack s.tags ∧
      s.writer.enforce = o.enforce ∧ s.writer.root = ⟨o.prefixes, o.context.value?⟩ := by
  have key : ((start o out).run es).IsOpened P ∧ ((start o out).run es).writer.enforce = o.enforce ∧
      ((start o out).run es).writer.root = ⟨o.prefixes, o.context.value?⟩ := by
    refine List.foldlRecOn
      (motive := fun s : Session ω => s.IsOpened P ∧ s.writer.enforce = o.enforce ∧
        s.writer.root = ⟨o.prefixes, o.context.value?⟩)
      es perform ⟨.nil, rfl, rfl⟩ ?_
    rintro s ⟨h, he, hr⟩ e hm
    obtain ⟨h', he', hr'⟩ := opened_perform h (hes e hm)
    exact ⟨h', he'.trans he, hr'.trans hr⟩
  obtain ⟨h, he, hr⟩ := key
  rw [IsOpened, he, hr] at h
  exact ⟨h, he, hr⟩

/-- Whatever the attributes, the open elements come from the noted start tags. -/
theorem opened_run_any (o : Options) (out : ω) (es : List Event) :
    let s := (start o out).run es
    Opened o.enforce ⟨o.prefixes, o.context.value?⟩ (fun _ => True) s.writer.stack s.tags ∧
      s.writer.enforce = o.enforce ∧ s.writer.root = ⟨o.prefixes, o.context.value?⟩ :=
  opened_run o out es fun e _ => by cases e <;> exact trivial

/-- The next element is resolved in the scope of the innermost one. -/
theorem scope_run (o : Options) (out : ω) (es : List Event) :
    let s := (start o out).run es
    s.writer.scope = s.writer.stack.scope ⟨o.prefixes, o.context.value?⟩ :=
  congrArg (fun root => OpenElements.scope root ((start o out).run es).writer.stack)
    (opened_run_any o out es).2.2

/-- A start that does not fail has written its tag in the scope of the innermost element, and leaves
its own element open. -/
theorem started_of_perform {s : Session ω} {name : Name} {attributes : List Attribute}
    {childless : Bool}
    (h : (s.writer.perform s.out (.start name attributes childless)).failure = none) :
    ∃ qs e n, OpenElement.Started s.writer.enforce (s.writer.stack.scope s.writer.root) name
        attributes childless s.writer.next qs e n ∧
      Event.pieces s.writer (.start name attributes childless) = qs ++ [.tagEnd] ∧
      (s.writer.perform s.out (.start name attributes childless)).writer =
        (s.writer.withNext n).push e := by
  obtain ⟨_, ha⟩ := Writer.ends_of_perform h
  obtain ⟨-, qs, e, n, hs, hp, hw⟩ := Event.ends_emit_start.1 ha
  exact ⟨qs, e, n, OpenElement.started_of_ends hs, hp, hw⟩

end Session

end XmlWriter
