import XmlWriter.Proofs.Reading.Lexing
import XmlWriter.Proofs.Text.Border
import XmlWriter.Proofs.Writer.Matching

/-!
# Bytes and text of one run

A byte buffer encodes each chunk on its own, so its bytes are those of the text that a text buffer
gets from the same events exactly if no surrogate pair is cut in two between the chunks. All markup
begins with a unit of its own, which is no surrogate (`Piece.beginsLow_render`), so that only
character data can begin with the second half of a pair. In the text that it is made from, that half
belongs to no pair, and checks refuse it (`Writer.uncut_allChunks`). Main statement:
`Session.bytes_of_run`.
-/

namespace XmlWriter

/-! ## The two buffers -/

/-- A text buffer keeps the chunks that it is given. -/
theorem TextBuffer.after_eq (b : TextBuffer) (cs : List Text) :
    Outlet.after b cs = ⟨b.chunks ++ cs⟩ := by
  rw [Outlet.after, deliver_eq, List.map_map]
  simp [Function.comp_def]

/-- A byte buffer takes everything. -/
theorem ByteBuffer.takesAll (b : ByteBuffer) : Outlet.TakesAll b := fun _ => (chunks_deliver _ b).1

/-- A byte buffer keeps the encoded chunks that it is given. -/
theorem ByteBuffer.chunks_after (b : ByteBuffer) (cs : List Text) :
    (Outlet.after b cs).chunks = b.chunks ++ cs.map Text.utf8 := by
  rw [Outlet.after, (chunks_deliver _ b).2, List.map_map]
  rfl

/-! ## The chunks of a run -/

namespace Writer

/-- The chunks that events hand on one after the other, those after a flaw included. -/
def allChunks (w : Writer) : List Event → List Text
  | [] => []
  | e :: es => (e.pieces w).map Piece.render ++ (e.emit.run w).state.allChunks es

variable {ω : Type} [Outlet ω] {w : Writer} {out : ω} {e : Event}

/-- With an outlet that takes everything an event goes to its end or to its first flaw. -/
theorem perform_eq (h : Outlet.TakesAll out) (e : Event) :
    (w.perform out e).writer = (e.emit.run w).state ∧
      (w.perform out e).out = Outlet.after out ((e.pieces w).map Piece.render) := by
  cases hr : (e.emit.run w).result with
  | error flaw => simp [perform_of_error h hr]
  | ok a => simp [perform_of_ok h hr]

end Writer

/-- A run to an outlet that takes everything hands on all chunks. -/
theorem Session.out_run {ω : Type} [Outlet ω] {s : Session ω} (h : Outlet.TakesAll s.out)
    (es : List Event) : (s.run es).out = Outlet.after s.out (s.writer.allChunks es) := by
  induction es generalizing s with
  | nil => rfl
  | cons e es ih =>
    obtain ⟨hw, ho⟩ := Writer.perform_eq (w := s.writer) h e
    have hi := ih (s := s.perform e) (Writer.takesAll_perform h e)
    rw [run_cons, hi, Writer.allChunks, h.after_append, ← ho, ← hw]
    rfl

/-! ## How chunks begin -/

/-- Markup begins with a space, a slash or an angle bracket. -/
theorem Piece.beginsLow_render {p : Piece} (h : ∀ t, p ≠ .text t) :
    p.render.beginsLow = false := by
  cases p with
  | text t => exact absurd rfl (h t)
  | cdata t =>
    obtain ⟨s, ss, hs⟩ := List.exists_cons_of_ne_nil (CDSect.sections_ne_nil t)
    rw [render, CDSect.encode, hs]
    rfl
  | head name own => cases own <;> rfl
  | slash spaced => cases spaced <;> rfl
  | generated | «attribute» | tagEnd | endTag | comment | instruction | doctype | declaration => rfl

/-- Character data begins as its text does, or with a reference. -/
theorem CharData.beginsLow_encode {t : Text} (h : t.beginsLow = false) :
    (encode t).beginsLow = false := by
  cases t with
  | nil => rfl
  | cons u t =>
    rw [encode, Reference.encode_cons]
    rcases Reader.encodeUnit_cases references u with ⟨r, -, -, he⟩ | ⟨-, he⟩
    · rw [he]
      cases r <;> rfl
    · rw [he]
      exact h

/-- A text that checks let pass does not begin with the second half of a pair. -/
theorem CharData.beginsLow_of_flaw?_eq_none {t : Text} (h : flaw? t = none) :
    t.beginsLow = false := by
  cases t with
  | nil => rfl
  | cons u t =>
    refine Bool.eq_false_iff.2 fun hl => ?_
    have hl : Text.isLow u = true := hl
    have hm : u.toNat ∈ Text.codePoints (u :: t) := by
      rw [Text.codePoints_cons_of_not_isHigh (Text.isHigh_of_isLow hl)]
      exact .head _
    have hc := charFlaw?_eq_none_iff.1 h _ hm
    simp only [Text.isLow, Bool.and_eq_true, decide_eq_true_eq] at hl
    simp only [CharClass.contains, CharClass.char, List.any_cons, List.any_nil, Bool.or_eq_true,
      Bool.and_eq_true, decide_eq_true_eq, Bool.false_eq_true, or_false] at hc
    omega

namespace Event

variable {w : Writer} {e : Event} {t : Text} {p q : Piece} {flaw? : Option Flaw}

/-- Content that is handed on has passed its check. -/
theorem mem_pieces_emitContent (h : q ∈ ((emitContent flaw? p).run w).writes.map (·.1)) :
    q = p ∧ vet w.enforce flaw? = .ok () := by
  rw [emitContent, Emit.run_get_bind] at h
  cases hv : vet w.enforce flaw? with
  | error flaw =>
    have hd : ((Emit.demand w.enforce flaw?).run w).result = .error flaw := hv
    rw [Emit.run_bind_of_error _ hd] at h
    cases h
  | ok u =>
    rw [Emit.run_demand_bind_of_ok _ hv] at h
    exact ⟨List.mem_singleton.1 h, rfl⟩

/-- A start hands on nothing but parts of its tag, whether it fails or not. -/
theorem mem_pieces_start {name : Name} {attributes : List Attribute} {childless : Bool}
    (h : p ∈ pieces w (.start name attributes childless)) : p.isInTag = true ∨ p = .tagEnd := by
  -- without checks it hands on at least as much, and ends well
  have hr := relaxes_emit (.start name attributes childless)
  obtain ⟨a, _, ha, -⟩ := hr.ends w
  have he : (emit (.start name attributes childless)).Ends w.lenient _ a _ := ⟨rfl, ha, rfl⟩
  obtain ⟨-, qs, el, n, hs, hp, -⟩ := ends_emit_start.1 he
  have hm : p ∈ qs ++ [.tagEnd] := hp ▸ (hr.begins w).subset h
  rcases List.mem_append.1 hm with hm | hm
  · exact .inl ((OpenElement.started_of_ends hs).isInTag p hm)
  · exact .inr (List.mem_singleton.1 hm)

/-- Character data comes from its own event and has passed its check. -/
theorem vet_of_text_mem_pieces (h : .text t ∈ e.pieces w) :
    vet w.enforce (CharData.flaw? t) = .ok () := by
  cases e with
  | text s =>
    obtain ⟨hp, hv⟩ := mem_pieces_emitContent h
    cases hp
    exact hv
  | start name attributes childless =>
    rcases mem_pieces_start h with h | h <;> cases h
  | close name =>
    unfold pieces at h
    cases hs : w.stack with
    | nil =>
      rw [run_close_of_nil hs] at h
      cases h
    | cons el rest =>
      rw [run_close_of_cons hs] at h
      cases hc : el.selfClosed <;> simp [hc] at h
  | cdata | comment | instruction | doctype | declaration =>
    cases (mem_pieces_emitContent h).1

end Event

namespace Writer

/-- No event changes whether checks are enforced. -/
theorem enforce_run (w : Writer) (e : Event) : (e.emit.run w).state.enforce = w.enforce := by
  rw [← (perform_eq (TextBuffer.takesAll .empty) e).1]
  rcases perform_cases w TextBuffer.empty e with ⟨n, hw⟩ | ⟨-, hw⟩ |
    ⟨_, _, _, _, _, _, -, -, -, hw⟩ <;> rw [hw] <;> rfl

/-- With checks enforced no chunk begins with the second half of a pair. -/
theorem beginsLow_of_mem_allChunks {w : Writer} (h : w.enforce = true) {es : List Event} :
    ∀ c ∈ w.allChunks es, c.beginsLow = false := by
  induction es generalizing w with
  | nil => exact fun c hc => absurd hc List.not_mem_nil
  | cons e es ih =>
    intro c hc
    rcases List.mem_append.1 hc with hc | hc
    · obtain ⟨p, hp, rfl⟩ := List.mem_map.1 hc
      by_cases ht : ∃ t, p = .text t
      · obtain ⟨t, rfl⟩ := ht
        have hv := Event.vet_of_text_mem_pieces hp
        rw [h, vet_true_eq_ok_iff] at hv
        exact CharData.beginsLow_encode (CharData.beginsLow_of_flaw?_eq_none hv)
      · exact Piece.beginsLow_render fun t hpt => ht ⟨t, hpt⟩
    · exact ih ((enforce_run w e).trans h) c hc

/-- With checks enforced no pair is cut in two between chunks. -/
theorem uncut_allChunks {w : Writer} (h : w.enforce = true) (es : List Event) :
    Text.Uncut (w.allChunks es) := by
  have hl : ∀ c ∈ (w.allChunks es).filter (· ≠ []), Text.beginsLow c = false := fun c hc =>
    beginsLow_of_mem_allChunks h c (List.mem_filter.1 hc).1
  rw [Text.Uncut]
  generalize (w.allChunks es).filter (· ≠ []) = cs at hl
  induction cs with
  | nil => exact .nil
  | cons c cs ih =>
    rw [List.isChain_cons]
    refine ⟨fun d hd hcut => ?_, ih fun d hd => hl d (.tail _ hd)⟩
    exact Bool.false_ne_true ((hl d (.tail _ (List.mem_of_mem_head? hd))).symm.trans hcut.2)

end Writer

namespace Session

/-- The same events to a text buffer and to a byte buffer, those that fail passed over. At any point
the byte buffer has counted its bytes, and they are the encodings of the chunks in their order. They
are the encoding of the text exactly if no surrogate pair is cut in two between the chunks, the
empty ones apart; and with checks enforced none ever is. -/
theorem bytes_of_run (o : Options) (es : List Event) :
    let chunks := (Writer.new o).allChunks es
    let text := ((start o TextBuffer.empty).run es).out
    let bytes := ((start o ByteBuffer.empty).run es).out
    text.chunks = chunks ∧ bytes.chunks = chunks.map Text.utf8 ∧
    bytes.length = bytes.bytes.length ∧ bytes.bytes = chunks.flatMap Text.utf8 ∧
    (bytes.bytes = text.text.utf8 ↔ Text.Uncut chunks) ∧
    (o.enforce = true → Text.Uncut chunks ∧ bytes.bytes = text.text.utf8) := by
  intro chunks text bytes
  have ht : text = ⟨chunks⟩ :=
    (out_run (s := start o _) (TextBuffer.takesAll .empty) es).trans (TextBuffer.after_eq _ _)
  have hb : bytes.chunks = chunks.map Text.utf8 :=
    (congrArg ByteBuffer.chunks (out_run (s := start o _) (ByteBuffer.takesAll .empty) es)).trans
      (ByteBuffer.chunks_after .empty chunks)
  have hbytes : bytes.bytes = chunks.flatMap Text.utf8 := by
    rw [ByteBuffer.bytes_eq, hb, List.flatMap_def]
  have hiff : bytes.bytes = text.text.utf8 ↔ Text.Uncut chunks := by
    rw [hbytes, ht]
    exact Text.flatMap_utf8_eq_iff chunks
  refine ⟨by rw [ht], hb, bytes.length_bytes.symm, hbytes, hiff, fun he => ?_⟩
  have hu := Writer.uncut_allChunks (w := Writer.new o) he es
  exact ⟨hu, hiff.2 hu⟩

end Session

end XmlWriter
