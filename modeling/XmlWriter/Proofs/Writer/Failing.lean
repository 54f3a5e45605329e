import XmlWriter.Proofs.Tag.Stopped
import XmlWriter.Proofs.Writer.Matching

/-!
# What a failed event leaves behind

An event fails by a flaw of its input or because the outlet refuses a piece of it, and the run goes
on from whatever state that leaves. A delivery that stops has taken the chunks before the refused
one (`Outlet.exists_refused`), and each piece is handed on in a state of its own, so a failed event
is known by the place where it stopped. Only a start hands on more than one piece: the element is
opened between the last two of them, and before that only the counter changes
(`Writer.perform_start_refused`, `Writer.perform_start_flaw`). Main statement:
`Session.left_by_failed`.
-/

namespace XmlWriter

/-! ## Deliveries that stop -/

namespace Outlet

variable {ω σ : Type} [Outlet ω]

/-- The outlet takes the chunks one after the other, and is another one after the last of them. -/
inductive Takes : ω → List Text → ω → Prop
  | nil {out : ω} : Takes out [] out
  | cons {out out₁ out₂ : ω} {chunk : Text} {rest : List Text} (h : put out chunk = (out₁, none))
      (hr : Takes out₁ rest out₂) : Takes out (chunk :: rest) out₂

/-- Without a chunk the outlet stays as it is. -/
theorem Takes.eq_of_nil {out out' : ω} (h : Takes out [] out') : out' = out := by
  cases h
  rfl

/-- A delivery that does not stop has taken every chunk. -/
theorem takes_of_deliver {xs : List (Text × σ)} {out out' : ω}
    (h : deliver xs out = (out', none)) : Takes out (xs.map (·.1)) out' := by
  induction xs generalizing out with
  | nil =>
    cases h
    exact .nil
  | cons x xs ih =>
    obtain ⟨chunk, s⟩ := x
    rcases hp : put out chunk with ⟨out₁, _ | refusal⟩
    · rw [deliver, hp] at h
      exact .cons hp (ih h)
    · rw [deliver, hp] at h
      cases h

/-- A delivery that stops has taken the chunks before the one that is refused. -/
theorem exists_refused {xs : List (Text × σ)} {out out' : ω} {refusal : Refusal} {s : σ}
    (h : deliver xs out = (out', some (refusal, s))) :
    ∃ before chunk after out₁, xs = before ++ (chunk, s) :: after ∧
      Takes out (before.map (·.1)) out₁ ∧ put out₁ chunk = (out', some refusal) := by
  induction xs generalizing out with
  | nil => cases h
  | cons x xs ih =>
    obtain ⟨chunk, s'⟩ := x
    rcases hp : put out chunk with ⟨out₁, _ | refusal'⟩
    · rw [deliver, hp] at h
      obtain ⟨before, chunk', after, out₂, rfl, ht, hr⟩ := ih h
      exact ⟨(chunk, s') :: before, chunk', after, out₂, rfl, .cons hp ht, hr⟩
    · rw [deliver, hp] at h
      cases h
      exact ⟨[], chunk, xs, out, rfl, .nil, hp⟩

end Outlet

/-! ## Events that stop -/

namespace Event

variable {w : Writer} {name : Name} {attributes : List Attribute} {childless : Bool}

/-- A start that is stopped by a flaw has handed on the pieces before it. -/
theorem run_start_of_error {flaw : Flaw}
    (h : ((OpenElement.start w.enforce w.scope name attributes childless).run w.next).result =
      .error flaw) :
    (emit (.start name attributes childless)).run w =
      ⟨((OpenElement.start w.enforce w.scope name attributes childless).run w.next).writes.map
          fun x => (x.1, w.withNext x.2), .error flaw,
        w.withNext
          ((OpenElement.start w.enforce w.scope name attributes childless).run w.next).state⟩ := by
  have hz : ((Emit.zoom Writer.next Writer.withNext
      (OpenElement.start w.enforce w.scope name attributes childless)).run w).result =
      .error flaw := h
  rw [emit, emitStart, bind_assoc, Emit.run_get_bind, bind_assoc, Emit.run_bind_of_error _ hz]
  rfl

/-- A start that is not stopped by a flaw hands on the end of its tag last, with the element open
already. -/
theorem run_start_of_ok {el : OpenElement} {n : Counter}
    (h : ((OpenElement.start w.enforce w.scope name attributes childless).run w.next).result =
      .ok el)
    (hn : ((OpenElement.start w.enforce w.scope name attributes childless).run w.next).state = n) :
    (emit (.start name attributes childless)).run w =
      ⟨((OpenElement.start w.enforce w.scope name attributes childless).run w.next).writes.map
          (fun x => (x.1, w.withNext x.2)) ++ [(.tagEnd, (w.withNext n).push el)], .ok none,
        (w.withNext n).push el⟩ := by
  subst hn
  rw [emit, emitStart, bind_assoc, Emit.run_get_bind, bind_assoc,
    Emit.run_bind_of_ok _ (a := el) (by simpa using h)]
  rfl

/-- Content is one piece, or none if it is at fault. -/
theorem run_emitContent_cases (w : Writer) (flaw? : Option Flaw) (p : Piece) :
    (∃ flaw, (emitContent flaw? p).run w = ⟨[], .error flaw, w⟩) ∨
      (emitContent flaw? p).run w = ⟨[(p, w)], .ok none, w⟩ := by
  rw [emitContent, Emit.run_get_bind]
  cases hv : vet w.enforce flaw? with
  | error flaw => exact .inl ⟨flaw, Emit.run_bind_of_error _ hv⟩
  | ok u =>
    rw [Emit.run_demand_bind_of_ok _ hv]
    exact .inr rfl

end Event

/-- A list of one element has no other split. -/
theorem eq_of_singleton_eq {α : Type} {x y : α} {before after : List α}
    (h : [x] = before ++ y :: after) : before = [] ∧ x = y ∧ after = [] := by
  cases before with
  | nil => simpa using h
  | cons z before => simp at h

namespace Writer

variable {ω : Type} [Outlet ω] {w : Writer} {out : ω} {e : Event} {name : Name}
  {attributes : List Attribute} {childless : Bool}

/-- A delivery of an event that does not stop has taken all its pieces. -/
theorem takes_pieces {out' : ω} (h : Outlet.deliver (e.emit.run w).chunks out = (out', none)) :
    Outlet.Takes out ((e.pieces w).map Piece.render) out' := by
  have ht := Outlet.takes_of_deliver h
  rw [Emitted.chunks, List.map_map] at ht
  rw [Event.pieces, List.map_map]
  exact ht

/-- An event that does not fail has handed on all its pieces. -/
theorem takes_of_perform (h : (w.perform out e).failure = none) :
    Outlet.Takes out ((e.pieces w).map Piece.render) (w.perform out e).out := by
  simp only [perform] at h ⊢
  split at h
  · cases h
  next hd =>
    split at h
    · cases h
    · exact takes_pieces hd

/-- An event that fails by a flaw has handed on its pieces up to there. -/
theorem perform_flaw {flaw : Flaw} (h : (w.perform out e).failure = some (.flaw flaw)) :
    (e.emit.run w).result = .error flaw ∧ (w.perform out e).writer = (e.emit.run w).state ∧
      Outlet.Takes out ((e.pieces w).map Piece.render) (w.perform out e).out := by
  simp only [perform] at h ⊢
  split at h
  · cases h
  next hd =>
    split at h <;> cases h
    next hr =>
      simp only [hr]
      exact ⟨trivial, trivial, takes_pieces hd⟩

/-- An event that fails because a piece is refused is left in the state in which it hands that piece
on. -/
theorem perform_refused {refusal : Refusal}
    (h : (w.perform out e).failure = some (.refused refusal)) :
    ∃ before piece after out₁,
      (e.emit.run w).writes = before ++ (piece, (w.perform out e).writer) :: after ∧
      Outlet.Takes out ((before.map (·.1)).map Piece.render) out₁ ∧
      Outlet.put out₁ piece.render = ((w.perform out e).out, some refusal) := by
  simp only [perform] at h ⊢
  split at h
  next hd =>
    cases h
    obtain ⟨before, chunk, after, out₁, hw, ht, hp⟩ := Outlet.exists_refused hd
    obtain ⟨xs, ys, hxy, rfl, hy⟩ := List.map_eq_append_iff.1 hw
    obtain ⟨x, zs, rfl, hx, rfl⟩ := List.map_eq_cons_iff.1 hy
    cases hx
    rw [List.map_map] at ht
    exact ⟨xs, x.1, zs, out₁, hxy, by rw [List.map_map]; exact ht, hp⟩
  · split at h <;> cases h

/-- A start that is stopped by a flaw has opened nothing. If the flaw is about the name of the
element, it has done nothing at all. -/
theorem perform_start_flaw {flaw : Flaw}
    (h : (w.perform out (.start name attributes childless)).failure = some (.flaw flaw)) :
    let p := w.perform out (.start name attributes childless)
    (∃ k, p.writer = w.withNext (Binary64.next^[k] w.next)) ∧
      (flaw.IsAboutElement → p.writer = w ∧ p.out = out) := by
  obtain ⟨hr, hw, ht⟩ := perform_flaw h
  cases hs :
      ((OpenElement.start w.enforce w.scope name attributes childless).run w.next).result with
  | ok el =>
    rw [Event.run_start_of_ok hs rfl] at hr
    cases hr
  | error flaw' =>
    have he := Event.run_start_of_error hs
    rw [he] at hr hw
    cases hr
    refine ⟨?_, fun ha => ?_⟩
    · obtain ⟨k, hk⟩ := (OpenElement.isPart_start w.enforce w.scope name attributes
        childless).state w.next
      exact ⟨k, hw.trans (congrArg (w.withNext ·) hk)⟩
    · have hn := OpenElement.run_start_of_isAboutElement w.enforce w.scope name attributes
        childless ha hs
      rw [Event.pieces, he, hn] at ht
      exact ⟨hw.trans (by rw [hn]; rfl), ht.eq_of_nil⟩

/-- A start of which a piece is refused has opened nothing, unless that piece is the end of the
tag: then the element is open. -/
theorem perform_start_refused {refusal : Refusal}
    (h : (w.perform out (.start name attributes childless)).failure = some (.refused refusal)) :
    let p := w.perform out (.start name attributes childless)
    ∃ ps piece rest out₁,
      Event.pieces w (.start name attributes childless) = ps ++ piece :: rest ∧
      Outlet.Takes out (ps.map Piece.render) out₁ ∧
      Outlet.put out₁ piece.render = (p.out, some refusal) ∧
      (piece ≠ .tagEnd ∧ (∃ k, p.writer = w.withNext (Binary64.next^[k] w.next)) ∨
        piece = .tagEnd ∧ rest = [] ∧ ∃ el n,
          (OpenElement.start w.enforce w.scope name attributes childless).Ends w.next ps el n ∧
          p.writer = (w.withNext n).push el) := by
  intro p
  obtain ⟨before, piece, after, out₁, hw, ht, hp⟩ := perform_refused h
  have hpart := OpenElement.isPart_start w.enforce w.scope name attributes childless
  refine ⟨before.map (·.1), piece, after.map (·.1), out₁, by rw [Event.pieces, hw]; simp,
    ht, hp, ?_⟩
  -- a piece of the tag before its end
  have body : (piece, p.writer) ∈
      ((OpenElement.start w.enforce w.scope name attributes childless).run w.next).writes.map
        (fun x => (x.1, w.withNext x.2)) →
      piece ≠ .tagEnd ∧ ∃ k, p.writer = w.withNext (Binary64.next^[k] w.next) := by
    intro hm
    obtain ⟨x, hx, he⟩ := List.mem_map.1 hm
    obtain ⟨rfl, hxw⟩ := Prod.mk.inj he
    obtain ⟨hne, k, hk⟩ := hpart.writes w.next x hx
    exact ⟨hne, k, by rw [← hxw, hk]⟩
  cases hs :
      ((OpenElement.start w.enforce w.scope name attributes childless).run w.next).result with
  | error flaw =>
    simp only [Event.run_start_of_error hs] at hw
    exact .inl (body (hw ▸ List.mem_append_right _ List.mem_cons_self))
  | ok el =>
    rw [Event.run_start_of_ok hs rfl] at hw
    rcases List.eq_nil_or_concat after with rfl | ⟨after, x, rfl⟩
    · obtain ⟨hb, hl⟩ := List.append_inj' hw rfl
      obtain ⟨rfl, hpw⟩ := Prod.mk.inj (List.singleton_inj.1 hl)
      exact .inr ⟨rfl, rfl, el, _, ⟨by rw [← hb]; simp, hs, rfl⟩, hpw.symm⟩
    · rw [List.concat_eq_append, ← List.cons_append, ← List.append_assoc] at hw
      exact .inl (body ((List.append_inj' hw rfl).1 ▸ List.mem_append_right _ List.mem_cons_self))

/-- Only the end tag of an element can make a close fail, when the element is closed already. -/
theorem perform_close_failed {failure : Failure}
    (h : (w.perform out (.close name)).failure = some failure) :
    let p := w.perform out (.close name)
    ∃ el rest refusal, w.stack = el :: rest ∧ el.selfClosed = false ∧
      failure = .refused refusal ∧ p.writer = w.pop ∧
      Outlet.put out (Piece.endTag el.name).render = (p.out, some refusal) := by
  cases hs : w.stack with
  | nil =>
    rw [perform_close_of_nil hs] at h
    cases h
  | cons el rest =>
    have hrun := Event.run_close_of_cons hs name
    cases failure with
    | flaw flaw =>
      have hr := (perform_flaw h).1
      rw [hrun] at hr
      cases hr
    | refused refusal =>
      obtain ⟨before, piece, after, out₁, hw, ht, hp⟩ := perform_refused h
      rw [hrun] at hw
      cases hc : el.selfClosed with
      | true => simp [hc] at hw
      | false =>
        simp only [hc, Bool.false_eq_true, if_false] at hw
        obtain ⟨rfl, hl, -⟩ := eq_of_singleton_eq hw
        obtain ⟨rfl, hpw⟩ := Prod.mk.inj hl
        rw [ht.eq_of_nil] at hp
        exact ⟨el, rest, refusal, rfl, hc, rfl, hpw.symm, hp⟩

/-- Content that fails has handed on nothing, and nothing has changed. -/
theorem perform_content_failed (hs : e.isStart = false) (hc : e.isClose = false)
    {failure : Failure} (h : (w.perform out e).failure = some failure) :
    let p := w.perform out e
    p.writer = w ∧ match failure with
      | .flaw _ => p.out = out
      | .refused refusal => ∃ piece, e.pieces w = [piece] ∧
        Outlet.put out piece.render = (p.out, some refusal) := by
  refine ⟨perform_content w out hs hc, ?_⟩
  obtain ⟨flaw?, p, he⟩ := Event.exists_emitContent hs hc
  have hrun := Event.run_emitContent_cases w flaw? p
  rw [← he] at hrun
  cases failure with
  | flaw flaw =>
    obtain ⟨hr, -, ht⟩ := perform_flaw h
    rcases hrun with ⟨flaw', hrun⟩ | hrun
    · rw [Event.pieces, hrun] at ht
      exact ht.eq_of_nil
    · rw [hrun] at hr
      cases hr
  | refused refusal =>
    obtain ⟨before, piece, after, out₁, hw, ht, hp⟩ := perform_refused h
    rcases hrun with ⟨flaw', hrun⟩ | hrun
    · rw [hrun] at hw
      exact absurd hw.symm (by simp)
    · rw [hrun] at hw
      obtain ⟨rfl, hl, -⟩ := eq_of_singleton_eq hw
      obtain ⟨rfl, -⟩ := Prod.mk.inj hl
      rw [ht.eq_of_nil] at hp
      exact ⟨p, by rw [Event.pieces, hrun]; rfl, hp⟩

/-- Whatever becomes of an event, the counter is only counted up. -/
theorem exists_iterate_perform (w : Writer) (out : ω) (e : Event) :
    ∃ k, (w.perform out e).writer.next = Binary64.next^[k] w.next := by
  cases e with
  | start name attributes childless =>
    cases hf : (w.perform out (.start name attributes childless)).failure with
    | none =>
      obtain ⟨_, ha⟩ := ends_of_perform hf
      obtain ⟨-, qs, el, n, hs, -, hw⟩ := Event.ends_emit_start.1 ha
      rw [hw]
      exact OpenElement.exists_iterate_of_ends hs
    | some failure =>
      cases failure with
      | flaw flaw =>
        obtain ⟨⟨k, hw⟩, -⟩ := perform_start_flaw hf
        exact ⟨k, by rw [hw]; rfl⟩
      | refused refusal =>
        obtain ⟨_, _, _, _, -, -, -, ⟨-, k, hw⟩ | ⟨-, -, el, n, hs, hw⟩⟩ :=
          perform_start_refused hf
        · exact ⟨k, by rw [hw]; rfl⟩
        · rw [hw]
          exact OpenElement.exists_iterate_of_ends hs
  | close name =>
    rcases Event.eq_or_eq_pop_of_reaches_emitClose (reaches_perform w out (.close name)) with
      h | ⟨-, h⟩ <;> exact ⟨0, by rw [h]; rfl⟩
  | text | cdata | comment | instruction | doctype | declaration =>
    exact ⟨0, congrArg Writer.next (perform_content w out rfl rfl)⟩

end Writer

namespace Session

variable {ω : Type} [Outlet ω]

/-- What an event leaves behind that fails, in any state of a run and with any outlet. A start that
is refused for a flaw has opened nothing and has at most counted up, and if the flaw is about the
name of the element, it has not handed on anything and not counted either. A start that fails at the
outlet has handed on the pieces before the refused one; it has opened nothing, unless that piece is
the last one, the end of the tag, when the element of the tag is open. A close can only fail at the
outlet, by its end tag, and has closed its element and done nothing else. Any other event has handed
on nothing, and the writer is as before. -/
theorem left_by_failed (o : Options) (out : ω) (es : List Event) (e : Event)
    (failure : Failure) :
    let s := (start o out).run es
    let p := s.writer.perform s.out e
    p.failure = some failure →
    match e, failure with
    | .start .., .flaw flaw =>
      (∃ n, s.writer.next ≤ n ∧ p.writer = s.writer.withNext n) ∧
        (flaw.IsAboutElement → p.writer = s.writer ∧ p.out = s.out)
    | .start name attributes childless, .refused refusal =>
      ∃ ps piece rest out₁, e.pieces s.writer = ps ++ piece :: rest ∧
        Outlet.Takes s.out (ps.map Piece.render) out₁ ∧
        Outlet.put out₁ piece.render = (p.out, some refusal) ∧
        (piece ≠ .tagEnd ∧ (∃ n, s.writer.next ≤ n ∧ p.writer = s.writer.withNext n) ∨
          piece = .tagEnd ∧ rest = [] ∧ ∃ el n, s.writer.next ≤ n ∧
            (OpenElement.start s.writer.enforce s.writer.scope name attributes childless).Ends
              s.writer.next ps el n ∧
            p.writer = (s.writer.withNext n).push el)
    | .close _, .flaw _ => False
    | .close _, .refused refusal =>
      ∃ el rest, s.writer.stack = el :: rest ∧ el.selfClosed = false ∧
        p.writer = s.writer.pop ∧
        Outlet.put s.out (Piece.endTag el.name).render = (p.out, some refusal)
    | _, .flaw _ => p.writer = s.writer ∧ p.out = s.out
    | _, .refused refusal =>
      p.writer = s.writer ∧ ∃ piece, e.pieces s.writer = [piece] ∧
        Outlet.put s.out piece.render = (p.out, some refusal) := by
  intro s p h
  have counted : ∀ {n}, (∃ k, n = Binary64.next^[k] s.writer.next) → s.writer.next ≤ n := by
    rintro _ ⟨k, rfl⟩
    exact Binary64.le_iterate_next _ k
  cases e with
  | start name attributes childless =>
    cases failure with
    | flaw flaw =>
      obtain ⟨⟨k, hw⟩, ha⟩ := Writer.perform_start_flaw h
      exact ⟨⟨_, counted ⟨k, rfl⟩, hw⟩, ha⟩
    | refused refusal =>
      obtain ⟨ps, piece, rest, out₁, hp, ht, hr, hw⟩ := Writer.perform_start_refused h
      refine ⟨ps, piece, rest, out₁, hp, ht, hr, hw.imp ?_ ?_⟩
      · rintro ⟨hne, k, hw⟩
        exact ⟨hne, _, counted ⟨k, rfl⟩, hw⟩
      · rintro ⟨hpe, hre, el, n, hs, hw⟩
        exact ⟨hpe, hre, el, n, counted (OpenElement.exists_iterate_of_ends hs), hs, hw⟩
  | close name =>
    obtain ⟨el, rest, refusal, hs, hc, rfl, hw, hp⟩ := Writer.perform_close_failed h
    exact ⟨el, rest, hs, hc, hw, hp⟩
  | text | cdata | comment | instruction | doctype | declaration =>
    cases failure <;> exact Writer.perform_content_failed rfl rfl h

/-- An element that the outlet has opened by refusing the end of its tag, and in it an element whose
second attribute repeats the first, for which a prefix has been made up. -/
theorem left_by_failed_repeated :
    let a : Name := ⟨Text.ofString "a", .absent, .absent⟩
    let k : Name := ⟨Text.ofString "k", .absent, .given (Text.ofString "urn:k")⟩
    let s := (start {} (ChunkLog.empty [2])).run [.start a [] false]
    let p := s.writer.perform s.out (.start a [⟨k, []⟩, ⟨k, []⟩] false)
    let flaw := Flaw.duplicateAttribute ⟨none, Text.ofString "k"⟩
    s.writer.depth = 1 ∧ p.failure = some (.flaw flaw) ∧
      p.out.chunks = [Text.ofString "<a", Text.ofString "<a",
        Text.ofString " xmlns:ns1=\"urn:k\"", Text.ofString " ns1:k=\"\""] ∧
      (∃ n, s.writer.next ≤ n ∧ p.writer = s.writer.withNext n) ∧
      (flaw.IsAboutElement → p.writer = s.writer ∧ p.out = s.out) := by
  intro a k s p flaw
  have hf : p.failure = some (.flaw flaw) := by decide +kernel
  exact ⟨by decide +kernel, hf, by decide +kernel,
    left_by_failed {} (ChunkLog.empty [2]) [.start a [] false]
      (.start a [⟨k, []⟩, ⟨k, []⟩] false) (.flaw flaw) hf⟩

end Session

end XmlWriter
