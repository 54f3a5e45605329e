import XmlWriter.Text.Basic

/-!
# Outlets

An outlet takes the writer's markup, chunk after chunk, and may refuse any of them. The writer only
ever appends and never reads back what it has written. `Outlet.deliver` hands chunks on until one is
refused.
-/

namespace XmlWriter

/-- Why an outlet refused a chunk. -/
structure Refusal where
  message : Text
  deriving DecidableEq, Repr

/-- A destination for markup. -/
class Outlet (ω : Type) where
  /-- Hands a chunk to the outlet, which may refuse it. -/
  put : ω → Text → ω × Option Refusal

namespace Outlet

variable {ω σ : Type} [Outlet ω]

/-- Hands chunks to an outlet until one is refused. Each comes with a state, and the state of a
refused chunk is given back with the refusal. -/
def deliver : List (Text × σ) → ω → ω × Option (Refusal × σ)
  | [], out => (out, none)
  | (chunk, s) :: rest, out =>
    match put out chunk with
    | (out', none) => deliver rest out'
    | (out', some refusal) => (out', some (refusal, s))

@[simp] theorem deliver_nil (out : ω) : deliver (σ := σ) [] out = (out, none) := rfl

/-- A chunk that is taken lets the next ones through. -/
theorem deliver_cons_of_taken {chunk : Text} {s : σ} {out : ω} (rest : List (Text × σ))
    (h : (put out chunk).2 = none) :
    deliver ((chunk, s) :: rest) out = deliver rest (put out chunk).1 := by
  rcases hp : put out chunk with ⟨out', r⟩
  rw [hp] at h
  cases h
  simp [deliver, hp]

/-- A chunk that is refused stops those after it. -/
theorem deliver_cons_of_refused {chunk : Text} {s : σ} {out : ω} {refusal : Refusal}
    (rest : List (Text × σ)) (h : (put out chunk).2 = some refusal) :
    deliver ((chunk, s) :: rest) out = ((put out chunk).1, some (refusal, s)) := by
  rcases hp : put out chunk with ⟨out', r⟩
  rw [hp] at h
  cases h
  simp [deliver, hp]

/-- Later chunks come after all earlier ones, if none of those is refused. -/
theorem deliver_append_of_taken {xs : List (Text × σ)} {out : ω} (ys : List (Text × σ))
    (h : (deliver xs out).2 = none) :
    deliver (xs ++ ys) out = deliver ys (deliver xs out).1 := by
  induction xs generalizing out with
  | nil => rfl
  | cons x xs ih =>
    obtain ⟨chunk, s⟩ := x
    cases hp : (put out chunk).2 with
    | none =>
      rw [deliver_cons_of_taken _ hp] at h ⊢
      rw [List.cons_append, deliver_cons_of_taken _ hp]
      exact ih h
    | some refusal =>
      rw [deliver_cons_of_refused _ hp] at h
      cases h

/-- Chunks that come after a refused one make no difference. -/
theorem deliver_append_of_refused {xs : List (Text × σ)} {out : ω} {r : Refusal × σ}
    (ys : List (Text × σ)) (h : (deliver xs out).2 = some r) :
    deliver (xs ++ ys) out = deliver xs out := by
  induction xs generalizing out with
  | nil => cases h
  | cons x xs ih =>
    obtain ⟨chunk, s⟩ := x
    cases hp : (put out chunk).2 with
    | none =>
      rw [deliver_cons_of_taken _ hp] at h ⊢
      rw [List.cons_append, deliver_cons_of_taken _ hp]
      exact ih h
    | some refusal =>
      rw [List.cons_append, deliver_cons_of_refused _ hp, deliver_cons_of_refused _ hp]

end Outlet

end XmlWriter
