import XmlWriter.Outlet.Basic
import XmlWriter.Writer.Basic

/-!
# Runs

A run sends events to a writer and its pieces to an outlet. An event fails if its input is refused
or if the outlet refuses a chunk; the writer goes on from the state in which that happened. A walk
stops at the first event that fails. Main statement: a walk of some events and then others is a walk
of the first followed by one of the others, unless the first fails (`Writer.walk_append_of_done`,
`Writer.walk_append_of_failed`).
-/

namespace XmlWriter

/-- Why an event failed. -/
inductive Failure where
  | flaw (flaw : Flaw)
  | refused (refusal : Refusal)
  deriving DecidableEq, Repr

/-- What has become of a writer and an outlet, why the last event failed, if it did, and the
warnings in their order. -/
structure Progress (ω : Type) where
  writer : Writer
  out : ω
  failure : Option Failure
  warnings : List Warning

namespace Emitted

/-- The chunks of an action with the states in which they are handed on. -/
def chunks {σ α : Type} (r : Emitted σ α) : List (Text × σ) :=
  r.writes.map fun w => (w.1.render, w.2)

end Emitted

namespace Writer

variable {ω : Type} [Outlet ω]

/-- Performs one event. -/
def perform (w : Writer) (out : ω) (e : Event) : Progress ω :=
  let r := e.emit.run w
  match Outlet.deliver r.chunks out with
  | (out', some (refusal, w')) => ⟨w', out', some (.refused refusal), []⟩
  | (out', none) =>
    match r.result with
    | .error flaw => ⟨r.state, out', some (.flaw flaw), []⟩
    | .ok warning? => ⟨r.state, out', none, warning?.toList⟩

/-- Performs events until one fails. -/
def walk (w : Writer) (out : ω) : List Event → Progress ω
  | [] => ⟨w, out, none, []⟩
  | e :: rest =>
    let p := w.perform out e
    match p.failure with
    | some _ => p
    | none =>
      let q := walk p.writer p.out rest
      { q with warnings := p.warnings ++ q.warnings }

/-- Performs all events, those that come after a failure included, and gives what each of them
did. -/
def performAll (w : Writer) (out : ω) : List Event → List (Progress ω)
  | [] => []
  | e :: rest =>
    let p := w.perform out e
    p :: performAll p.writer p.out rest

@[simp] theorem walk_nil (w : Writer) (out : ω) : w.walk out [] = ⟨w, out, none, []⟩ := rfl

/-- A walk goes on from what an event that did not fail has left. -/
theorem walk_cons_of_done {w : Writer} {out : ω} {e : Event} (rest : List Event)
    (h : (w.perform out e).failure = none) :
    w.walk out (e :: rest) =
      let p := w.perform out e
      let q := p.writer.walk p.out rest
      { q with warnings := p.warnings ++ q.warnings } := by
  simp [walk, h]

/-- A walk ends with an event that failed. -/
theorem walk_cons_of_failed {w : Writer} {out : ω} {e : Event} {failure : Failure}
    (rest : List Event) (h : (w.perform out e).failure = some failure) :
    w.walk out (e :: rest) = w.perform out e := by
  simp [walk, h]

/-- After events that did not fail, a walk goes on from what they have left. -/
theorem walk_append_of_done {w : Writer} {out : ω} {es : List Event} (rest : List Event)
    (h : (w.walk out es).failure = none) :
    w.walk out (es ++ rest) =
      let p := w.walk out es
      let q := p.writer.walk p.out rest
      { q with warnings := p.warnings ++ q.warnings } := by
  induction es generalizing w out with
  | nil => simp
  | cons e es ih =>
    cases hp : (w.perform out e).failure with
    | none =>
      rw [walk_cons_of_done es hp] at h ⊢
      rw [List.cons_append, walk_cons_of_done _ hp]
      simp [ih h]
    | some failure =>
      rw [walk_cons_of_failed es hp, hp] at h
      cases h

/-- Events that come after a failure make no difference. -/
theorem walk_append_of_failed {w : Writer} {out : ω} {es : List Event} {failure : Failure}
    (rest : List Event) (h : (w.walk out es).failure = some failure) :
    w.walk out (es ++ rest) = w.walk out es := by
  induction es generalizing w out with
  | nil => cases h
  | cons e es ih =>
    cases hp : (w.perform out e).failure with
    | none =>
      rw [walk_cons_of_done es hp] at h ⊢
      rw [List.cons_append, walk_cons_of_done _ hp]
      simp [ih h]
    | some failure' =>
      rw [List.cons_append, walk_cons_of_failed _ hp, walk_cons_of_failed _ hp]

end Writer

end XmlWriter
