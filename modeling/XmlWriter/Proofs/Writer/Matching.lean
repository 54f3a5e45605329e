import Mathlib.Data.List.Induction
import XmlWriter.Proofs.Writer.Enforcement
import XmlWriter.Proofs.Writer.Session

/-!
# End tags and the start tags that they belong to

What an end tag says is settled when the element is opened, and any events may come in between:
other elements, content, and events that fail. A start that does not fail opens an element, a close
that finds one open closes the innermost one, and nothing else changes what is open
(`Session.perform_stack_cases`). So the events between a start and the close that belongs to it are
balanced (`Session.Balanced`), and each element that is open has come from a start with balanced
events after it (`Session.unclosed_run`). Main statement: `Session.close_matches_start`.
-/

namespace XmlWriter

namespace Event

/-- Whether an event starts an element. -/
def isStart : Event → Bool
  | .start .. => true
  | _ => false

/-- Whether an event closes an element. -/
def isClose : Event → Bool
  | .close _ => true
  | _ => false

/-- An event without the name that a close comes with. -/
def unnamed : Event → Event
  | .close _ => .close ⟨[], .absent, .absent⟩
  | e => e

/-- Whatever is neither a start nor a close is content. -/
theorem exists_emitContent {e : Event} (hs : e.isStart = false) (hc : e.isClose = false) :
    ∃ flaw? p, e.emit = emitContent flaw? p := by
  cases e with
  | start => cases hs
  | close => cases hc
  | text | cdata | comment | instruction | doctype | declaration => exact ⟨_, _, rfl⟩

variable {w : Writer}

/-- A close with nothing open gives a warning and does nothing. -/
theorem run_close_of_nil (h : w.stack = []) (name : Name) :
    (emit (.close name)).run w = ⟨[], .ok (some (.nothingOpen name.localPart)), w⟩ := by
  have hi : w.stack.innermost? = none := by rw [h]; rfl
  rw [emit, emitClose, Emit.run_get_bind, hi]
  rfl

/-- A close takes the innermost element away and then hands on its end tag, if it has one. -/
theorem run_close_of_cons {el : OpenElement} {rest : OpenElements} (h : w.stack = el :: rest)
    (name : Name) :
    (emit (.close name)).run w =
      ⟨if el.selfClosed then [] else [(.endTag el.name, w.pop)], .ok none, w.pop⟩ := by
  have hi : w.stack.innermost? = some el := by rw [h]; rfl
  rw [emit, emitClose, Emit.run_get_bind, hi]
  cases hs : el.selfClosed <;> simp only [hs] <;> rfl

end Event

namespace Writer

variable {ω : Type} [Outlet ω] {w : Writer} {out : ω}

/-- An outlet that takes everything goes on to do so. -/
theorem takesAll_perform (h : Outlet.TakesAll out) (e : Event) :
    Outlet.TakesAll (w.perform out e).out := by
  cases hr : (e.emit.run w).result with
  | error flaw =>
    rw [perform_of_error h hr]
    exact h.takesAll_after _
  | ok a =>
    rw [perform_of_ok h hr]
    exact h.takesAll_after _

/-- A close with nothing open only gives a warning. -/
theorem perform_close_of_nil (h : w.stack = []) (out : ω) (name : Name) :
    w.perform out (.close name) = ⟨w, out, none, [.nothingOpen name.localPart]⟩ := by
  simp [perform, Event.run_close_of_nil h, Emitted.chunks]

/-- A close hands on the end tag of the innermost element, unless its start tag closed it. -/
theorem perform_close_of_cons (ht : Outlet.TakesAll out) {el : OpenElement} {rest : OpenElements}
    (h : w.stack = el :: rest) (name : Name) :
    w.perform out (.close name) =
      ⟨w.pop, Outlet.after out (if el.selfClosed then [] else [(Piece.endTag el.name).render]),
        none, []⟩ := by
  have hr := Event.run_close_of_cons h name
  rw [perform_of_ok ht (congrArg Emitted.result hr), Event.pieces, hr]
  cases el.selfClosed <;> rfl

/-- Content leaves the writer as it is, whether it fails or not. -/
theorem perform_content (w : Writer) (out : ω) {e : Event} (hs : e.isStart = false)
    (hc : e.isClose = false) : (w.perform out e).writer = w := by
  obtain ⟨flaw?, p, he⟩ := Event.exists_emitContent hs hc
  exact Event.eq_of_reaches_emitContent (he ▸ reaches_perform w out e)

/-- A close does the same under any name, but for the text of a warning. -/
theorem perform_unnamed (w : Writer) (out : ω) (e : Event) :
    let p := w.perform out e
    let q := w.perform out e.unnamed
    p.writer = q.writer ∧ p.out = q.out ∧ p.failure = q.failure ∧
      p.warnings.length = q.warnings.length := by
  cases e with
  | close name =>
    cases hs : w.stack with
    | nil => simp [Event.unnamed, perform_close_of_nil hs]
    | cons el rest => simp [Event.unnamed, perform, Event.run_close_of_cons hs]
  | start | text | cdata | comment | instruction | doctype | declaration =>
    exact ⟨rfl, rfl, rfl, rfl⟩

/-- Events do the same whatever the names that the closes come with, each of them. -/
theorem performAll_unnamed (w : Writer) (out : ω) (es : List Event) :
    List.Forall₂ (fun p q => p.writer = q.writer ∧ p.out = q.out ∧ p.failure = q.failure ∧
        p.warnings.length = q.warnings.length)
      (w.performAll out es) (w.performAll out (es.map Event.unnamed)) := by
  induction es generalizing w out with
  | nil => exact .nil
  | cons e es ih =>
    obtain ⟨hw, ho, hf⟩ := perform_unnamed w out e
    rw [List.map_cons, performAll, performAll, ← hw, ← ho]
    exact .cons ⟨hw, ho, hf⟩ (ih _ _)

end Writer

namespace Session

variable {ω : Type} [Outlet ω] {s : Session ω} {e : Event} {es xs ys : List Event}

/-- Whether an event opens an element: it is a start that does not fail. -/
def Opens (s : Session ω) (e : Event) : Prop :=
  e.isStart = true ∧ (s.writer.perform s.out e).failure = none

/-- Whether an event closes an element: it is a close, and an element is open. -/
def Closes (s : Session ω) (e : Event) : Prop := e.isClose = true ∧ 0 < s.writer.depth

instance (s : Session ω) (e : Event) : Decidable (s.Opens e) := inferInstanceAs (Decidable (_ ∧ _))

instance (s : Session ω) (e : Event) : Decidable (s.Closes e) :=
  inferInstanceAs (Decidable (_ ∧ _))

/-- The events of a run, each with the session that it comes to. -/
def steps (s : Session ω) : List Event → List (Session ω × Event)
  | [] => []
  | e :: es => (s, e) :: steps (s.perform e) es

@[simp] theorem run_cons (s : Session ω) (e : Event) (es : List Event) :
    s.run (e :: es) = (s.perform e).run es := rfl

/-- A run of events and then others goes on from where the first end. -/
theorem run_append (s : Session ω) (xs ys : List Event) : s.run (xs ++ ys) = (s.run xs).run ys :=
  List.foldl_append

/-- An outlet that takes everything does so throughout a run. -/
theorem takesAll_run (h : Outlet.TakesAll s.out) (es : List Event) :
    Outlet.TakesAll (s.run es).out :=
  List.foldlRecOn (motive := fun s : Session ω => Outlet.TakesAll s.out) es perform h
    fun _ h e _ => Writer.takesAll_perform h e

/-! ## What changes the open elements -/

omit [Outlet ω] in
/-- Who closes an element does so by a close. -/
theorem Closes.exists_eq_close (h : s.Closes e) : ∃ name, e = .close name := by
  cases e with
  | close name => exact ⟨name, rfl⟩
  | start | text | cdata | comment | instruction | doctype | declaration => cases h.1

/-- No event both closes an element and opens one. -/
theorem Closes.not_opens (h : s.Closes e) : ¬ s.Opens e := by
  obtain ⟨name, rfl⟩ := h.exists_eq_close
  exact fun ho => Bool.false_ne_true ho.1

/-- A start that does not fail opens an element. -/
theorem Opens.stack_eq (h : s.Opens e) :
    ∃ el, (s.perform e).writer.stack = el :: s.writer.stack := by
  obtain ⟨hs, hf⟩ := h
  cases e with
  | start name attributes childless =>
    obtain ⟨_, el, _, -, -, hw⟩ := started_of_perform hf
    exact ⟨el, congrArg Writer.stack hw⟩
  | close | text | cdata | comment | instruction | doctype | declaration => cases hs

/-- With an outlet that takes everything, a start that fails leaves the open elements as they are.
-/
theorem stack_eq_of_start (ht : Outlet.TakesAll s.out) (h : ¬ s.Opens e) (hs : e.isStart = true) :
    (s.perform e).writer.stack = s.writer.stack := by
  cases e with
  | start name attributes childless =>
    have hr := Writer.reaches_perform s.writer s.out (.start name attributes childless)
    rcases Event.reaches_emit_start hr with ⟨n, hw⟩ | ⟨qs, el, n, he, -, -⟩
    · exact congrArg (·.stack) hw
    · have hok := (Event.ends_emit_start.2 ⟨rfl, qs, el, n, he, rfl, rfl⟩).2.1
      exact absurd ⟨hs, by rw [Writer.perform_of_ok ht hok]⟩ h
  | close | text | cdata | comment | instruction | doctype | declaration => cases hs

/-- With an outlet that takes everything, an event puts an element on those that are open, or takes
the innermost away, or changes nothing about them. -/
theorem perform_stack_cases (ht : Outlet.TakesAll s.out) (e : Event) :
    s.Opens e ∧ (∃ el, (s.perform e).writer.stack = el :: s.writer.stack) ∨
    s.Closes e ∧ (∃ el, s.writer.stack = el :: (s.perform e).writer.stack) ∨
    ¬ s.Opens e ∧ ¬ s.Closes e ∧ (s.perform e).writer.stack = s.writer.stack := by
  by_cases ho : s.Opens e
  · exact .inl ⟨ho, ho.stack_eq⟩
  refine .inr ?_
  cases e with
  | start name attributes childless =>
    exact .inr ⟨ho, fun hc => Bool.false_ne_true hc.1, stack_eq_of_start ht ho rfl⟩
  | close name =>
    cases hs : s.writer.stack with
    | nil =>
      refine .inr ⟨ho, fun hc => ?_, ?_⟩
      · exact absurd hc.2 (by simp [Writer.depth, OpenElements.depth, hs])
      · exact (congrArg (·.writer.stack) (Writer.perform_close_of_nil hs s.out name)).trans hs
    | cons el rest =>
      refine .inl ⟨⟨rfl, by simp [Writer.depth, OpenElements.depth, hs]⟩, el, ?_⟩
      have hw := congrArg (·.writer.stack) (Writer.perform_close_of_cons ht hs name)
      exact congrArg (el :: ·) (hw.trans (congrArg List.tail hs)).symm
  | text | cdata | comment | instruction | doctype | declaration =>
    exact .inr ⟨ho, fun hc => Bool.false_ne_true hc.1,
      congrArg (·.stack) (Writer.perform_content s.writer s.out rfl rfl)⟩

/-- As many elements are open at the end as at the beginning, with those that have been opened and
without those that have been closed. -/
theorem depth_run (ht : Outlet.TakesAll s.out) (es : List Event) :
    (s.run es).writer.depth + (s.steps es).countP (fun x => x.1.Closes x.2) =
      s.writer.depth + (s.steps es).countP (fun x => x.1.Opens x.2) := by
  induction es generalizing s with
  | nil => rfl
  | cons e es ih =>
    have hn := ih (s := s.perform e) (Writer.takesAll_perform ht e)
    rw [run_cons, steps, List.countP_cons, List.countP_cons]
    have hd (s : Session ω) : s.writer.depth = s.writer.stack.length := rfl
    rcases perform_stack_cases ht e with ⟨ho, el, hs⟩ | ⟨hc, el, hs⟩ | ⟨ho, hc, hs⟩
    · have hc : ¬ s.Closes e := fun hc => hc.not_opens ho
      simp only [ho, hc, decide_true, decide_false, Bool.false_eq_true, if_true, if_false]
      rw [hd (s.perform e), hs, List.length_cons, ← hd] at hn
      omega
    · have ho : ¬ s.Opens e := hc.not_opens
      simp only [ho, hc, decide_true, decide_false, Bool.false_eq_true, if_true, if_false]
      rw [hd s, hs, List.length_cons, ← hd]
      omega
    · simp only [ho, hc, decide_false, Bool.false_eq_true, if_false]
      rw [hd (s.perform e), hs, ← hd] at hn
      omega

/-! ## Which start a close belongs to -/

/-- Whether events close what they open and nothing else: a start that does not fail is followed by
such events and a close, and the other events are no closes. -/
inductive Balanced : Session ω → List Event → Prop
  | nil {s : Session ω} : Balanced s []
  | idle {s : Session ω} {e : Event} {es : List Event} (ho : ¬ s.Opens e) (hc : e.isClose = false)
      (h : Balanced (s.perform e) es) : Balanced s (e :: es)
  | nested {s : Session ω} {e : Event} {inner rest : List Event} {name : Name} (ho : s.Opens e)
      (hi : Balanced (s.perform e) inner)
      (hr : Balanced (((s.perform e).run inner).perform (.close name)) rest) :
      Balanced s (e :: (inner ++ .close name :: rest))

/-- Balanced events and then others are balanced. -/
theorem Balanced.append (h : s.Balanced xs) (h' : (s.run xs).Balanced ys) :
    s.Balanced (xs ++ ys) := by
  induction h with
  | nil => exact h'
  | idle ho hc _ ih => exact .idle ho hc (ih h')
  | @nested s e inner rest name ho hi _ _ ih =>
    rw [run_cons, run_append, run_cons] at h'
    rw [List.cons_append, List.append_assoc, List.cons_append]
    exact .nested ho hi (ih h')

/-- The elements that some events leave open, if none was open before: each has been opened by a
start that does not fail, and the events after it are balanced, up to the start of the element
inside it. -/
inductive Unclosed (s : Session ω) : List Event → OpenElements → Prop
  | outermost {es : List Event} (h : (s.run es).writer.stack = []) : Unclosed s es []
  | inside {before inner : List Event} {e : Event} {el : OpenElement} {stack : OpenElements}
      (hb : Unclosed s before stack) (ho : (s.run before).Opens e)
      (hs : ((s.run before).perform e).writer.stack = el :: stack)
      (hi : ((s.run before).perform e).Balanced inner) :
      Unclosed s (before ++ e :: inner) (el :: stack)

/-- Balanced events leave the same elements open. -/
theorem Unclosed.append {stack : OpenElements} (h : s.Unclosed xs stack)
    (hy : (s.run xs).Balanced ys) (hs : (s.run (xs ++ ys)).writer.stack = stack) :
    s.Unclosed (xs ++ ys) stack := by
  cases h with
  | outermost => exact .outermost hs
  | inside hb ho hel hi =>
    rw [run_append, run_cons] at hy
    rw [List.append_assoc, List.cons_append]
    exact .inside hb ho hel (hi.append hy)

/-- What is open in a run has come from starts with balanced events after them. -/
theorem unclosed_run (ht : Outlet.TakesAll s.out) (hs : s.writer.stack = []) (es : List Event) :
    s.Unclosed es (s.run es).writer.stack := by
  induction es using List.reverseRecOn with
  | nil => exact hs ▸ .outermost hs
  | append_singleton es e ih =>
    have hr : s.run (es ++ [e]) = (s.run es).perform e := run_append s es [e]
    rcases perform_stack_cases (takesAll_run ht es) e with ⟨ho, el, he⟩ | ⟨hc, el, he⟩ |
      ⟨ho, hc, he⟩
    · rw [hr, he]
      exact .inside ih ho he .nil
    · -- the close belongs to the start of the innermost element; both are inside the next one
      rw [he] at ih
      obtain ⟨name, rfl⟩ := hc.exists_eq_close
      cases ih with
      | @inside before inner e' _ _ hb ho hel hi =>
        have hn : (s.run before).Balanced (e' :: (inner ++ [.close name])) := .nested ho hi .nil
        rw [hr, List.append_assoc, List.cons_append]
        exact hb.append hn (by rw [← List.cons_append, ← List.append_assoc, hr])
    · rw [hr, he]
      cases hst : (s.run es).writer.stack with
      | nil => exact .outermost (by rw [hr, he, hst])
      | cons el stack =>
        have hcl : e.isClose = false := by
          cases hb : e.isClose with
          | false => rfl
          | true => exact absurd ⟨hb, by simp [Writer.depth, OpenElements.depth, hst]⟩ hc
        exact hst ▸ ih.append (.idle ho hcl .nil) (by rw [hr, he])

/-- An element that has been opened has the name that its start tag begins with, and an end tag
unless it was announced as childless. -/
theorem Opens.exists_head (h : s.Opens e) {el : OpenElement} {stack : OpenElements}
    (hs : (s.perform e).writer.stack = el :: stack) :
    ∃ name attributes own body, e = .start name attributes el.selfClosed ∧
      e.pieces s.writer = .head el.name own :: body := by
  obtain ⟨hstart, hf⟩ := h
  cases e with
  | start name attributes childless =>
    obtain ⟨qs, el', n, hq, hp, hw⟩ := started_of_perform hf
    have hel : el' :: s.writer.stack = el :: stack := (congrArg (·.stack) hw).symm.trans hs
    obtain rfl : el' = el := (List.cons.inj hel).1
    rw [hq.selfClosed, hp]
    cases hq with
    | mk => exact ⟨name, attributes, _, _, rfl, rfl⟩
  | close | text | cdata | comment | instruction | doctype | declaration => cases hstart

/-- With an outlet that takes everything, at any point of a run the depth is the number of starts
that have not failed less the number of closes that have found an element open. A close with nothing
open gives one warning and does nothing else. Any other one belongs to a start that has not failed,
with balanced events between them, and writes the end tag with the name that its start tag was
written with, unless that element was announced as childless, and then nothing. The names that
closes come with make no difference, but for the texts of warnings. -/
theorem close_matches_start (o : Options) (out : ω) (ht : Outlet.TakesAll out) (es : List Event)
    (name : Name) :
    let s := (start o out).run es
    let p := s.writer.perform s.out (.close name)
    let steps := (start o out).steps es
    s.writer.depth + steps.countP (fun x => x.1.Closes x.2) =
        steps.countP (fun x => x.1.Opens x.2) ∧
    (s.writer.depth = 0 → p = ⟨s.writer, s.out, none, [.nothingOpen name.localPart]⟩) ∧
    (0 < s.writer.depth → ∃ before name' attributes childless inner q own body,
      let t := (start o out).run before
      let e := Event.start name' attributes childless
      es = before ++ e :: inner ∧ t.Opens e ∧ (t.perform e).Balanced inner ∧
      e.pieces t.writer = .head q own :: body ∧
      p = ⟨s.writer.pop, Outlet.after s.out
        (if childless then [] else [Text.ofString "</" ++ q.text ++ Text.ofString ">"]),
        none, []⟩) ∧
    List.Forall₂ (fun p q => p.writer = q.writer ∧ p.out = q.out ∧ p.failure = q.failure ∧
        p.warnings.length = q.warnings.length)
      ((Writer.new o).performAll out es) ((Writer.new o).performAll out (es.map Event.unnamed)) := by
  intro s p steps
  refine ⟨?_, fun hd => ?_, fun hd => ?_, Writer.performAll_unnamed _ out es⟩
  · have hn := depth_run (s := start o out) ht es
    rwa [show (start o out).writer.depth = 0 from rfl, Nat.zero_add] at hn
  · exact Writer.perform_close_of_nil (List.length_eq_zero_iff.1 hd) s.out name
  · obtain ⟨el, stack, hs⟩ := List.exists_cons_of_length_pos hd
    have hu := unclosed_run (s := start o out) ht rfl es
    rw [hs] at hu
    cases hu with
    | @inside before inner e _ _ hb ho hel hi =>
      obtain ⟨name', attributes, own, body, rfl, hp⟩ := ho.exists_head hel
      exact ⟨before, name', attributes, el.selfClosed, inner, el.name, own, body, rfl, ho, hi, hp,
        Writer.perform_close_of_cons (takesAll_run ht _) hs name⟩

/-- An element with a generated prefix, with a child and a comment that is refused inside, and a
close that comes with another name. -/
theorem close_matches_start_made_up :
    let p := NamePart.given (Text.ofString "p")
    let a : Name := ⟨Text.ofString "a", p, .given (Text.ofString "urn:a")⟩
    let declared : Name := ⟨Text.ofString "p", .given xmlnsPrefix, .given xmlnsNamespace⟩
    let b : Name := ⟨Text.ofString "b", .absent, .absent⟩
    let es := [Event.start a [⟨declared, Text.ofString "urn:b"⟩] false, .start b [] true, .close b,
      .comment (Text.ofString "--")]
    let s := (start {} TextBuffer.empty).run es
    0 < s.writer.depth ∧ (s.writer.perform s.out (.close b)).out.text =
      Text.ofString "<ns1:a xmlns:ns1=\"urn:a\" xmlns:p=\"urn:b\"><b/></ns1:a>" ∧
    ∃ before name' attributes childless inner q own body,
      let t := (start {} TextBuffer.empty).run before
      let e := Event.start name' attributes childless
      es = before ++ e :: inner ∧ t.Opens e ∧ (t.perform e).Balanced inner ∧
      e.pieces t.writer = .head q own :: body ∧
      s.writer.perform s.out (.close b) = ⟨s.writer.pop, Outlet.after s.out
        (if childless then [] else [Text.ofString "</" ++ q.text ++ Text.ofString ">"]),
        none, []⟩ := by
  intro p a declared b es s
  have hd : 0 < s.writer.depth := by decide +kernel
  have h := close_matches_start {} TextBuffer.empty (TextBuffer.takesAll _) es b
  exact ⟨hd, by decide +kernel, h.2.2.1 hd⟩

end Session

end XmlWriter
