import XmlWriter.Flaw
import XmlWriter.Piece

/-!
# Emitting pieces

An action of the writer hands on pieces, changes a state and ends well or with a flaw. What it has
handed on stays handed on, also when it ends with a flaw, and the state it has reached stays. Since
an outlet may refuse any piece, each piece is noted with the state in which it is handed on: that is
the state in which a refusal leaves the writer. `Emit` is this as a monad; the lemmas named `run_…`
say what each step does.
-/

namespace XmlWriter

/-- What an action has done: the pieces with the states in which they were handed on, how it ended,
and the state it has reached. -/
structure Emitted (σ α : Type) where
  writes : List (Piece × σ)
  result : Except Flaw α
  state : σ

/-- An action that hands on pieces. -/
def Emit (σ α : Type) : Type := σ → Emitted σ α

namespace Emit

variable {σ τ α β : Type}

/-- Runs an action from a state. -/
def run (x : Emit σ α) (s : σ) : Emitted σ α := x s

/-- Goes on after an action that ended well. -/
def bind (x : Emit σ α) (f : α → Emit σ β) : Emit σ β := fun s =>
  let r := x.run s
  match r.result with
  | .error flaw => ⟨r.writes, .error flaw, r.state⟩
  | .ok a =>
    let r' := (f a).run r.state
    ⟨r.writes ++ r'.writes, r'.result, r'.state⟩

instance : Monad (Emit σ) where
  pure a := fun s => ⟨[], .ok a, s⟩
  bind := bind

/-- The state. -/
def get : Emit σ σ := fun s => ⟨[], .ok s, s⟩

/-- Changes the state. -/
def modify (f : σ → σ) : Emit σ Unit := fun s => ⟨[], .ok (), f s⟩

/-- Hands on a piece. -/
def write (p : Piece) : Emit σ Unit := fun s => ⟨[(p, s)], .ok (), s⟩

/-- Goes on unless a check found a flaw and checks are enforced. -/
def demand (enforce : Bool) (flaw? : Option Flaw) : Emit σ Unit :=
  fun s => ⟨[], vet enforce flaw?, s⟩

/-- Runs an action on a part of the state; `put` puts the part back. -/
def zoom (part : σ → τ) (put : τ → σ → σ) (x : Emit τ α) : Emit σ α := fun s =>
  let r := x.run (part s)
  ⟨r.writes.map fun w => (w.1, put w.2 s), r.result, put r.state s⟩

@[simp] theorem run_pure (a : α) (s : σ) : (pure a : Emit σ α).run s = ⟨[], .ok a, s⟩ := rfl

@[simp] theorem run_get (s : σ) : (get : Emit σ σ).run s = ⟨[], .ok s, s⟩ := rfl

@[simp] theorem run_modify (f : σ → σ) (s : σ) : (modify f).run s = ⟨[], .ok (), f s⟩ := rfl

@[simp] theorem run_write (p : Piece) (s : σ) : (write p).run s = ⟨[(p, s)], .ok (), s⟩ := rfl

@[simp] theorem run_demand (enforce : Bool) (flaw? : Option Flaw) (s : σ) :
    (demand enforce flaw?).run s = ⟨[], vet enforce flaw?, s⟩ := rfl

@[simp] theorem run_zoom (part : σ → τ) (put : τ → σ → σ) (x : Emit τ α) (s : σ) :
    (zoom part put x).run s =
      ⟨(x.run (part s)).writes.map fun w => (w.1, put w.2 s), (x.run (part s)).result,
        put (x.run (part s)).state s⟩ := rfl

/-- After a flaw nothing more happens. -/
theorem run_bind_of_error {x : Emit σ α} {s : σ} {flaw : Flaw} (f : α → Emit σ β)
    (h : (x.run s).result = .error flaw) :
    (x >>= f).run s = ⟨(x.run s).writes, .error flaw, (x.run s).state⟩ := by
  show bind x f s = _
  simp [bind, h]

/-- After an action that ended well, the next one goes on from the state it has reached. -/
theorem run_bind_of_ok {x : Emit σ α} {s : σ} {a : α} (f : α → Emit σ β)
    (h : (x.run s).result = .ok a) :
    (x >>= f).run s =
      ⟨(x.run s).writes ++ ((f a).run (x.run s).state).writes,
        ((f a).run (x.run s).state).result, ((f a).run (x.run s).state).state⟩ := by
  show bind x f s = _
  simp [bind, h]

/-- Steps may be grouped in any way. -/
instance : LawfulMonad (Emit σ) :=
  LawfulMonad.mk' _
    (fun x => funext fun s => by
      show bind x (fun a => pure a) s = x s
      simp only [bind, run]
      rcases x s with ⟨writes, flaw | a, t⟩
      · rfl
      · simp [pure])
    (fun _ _ => rfl)
    (fun x f g => funext fun s => by
      show bind (bind x f) g s = bind x (fun a => bind (f a) g) s
      simp only [bind, run]
      rcases x s with ⟨writes, flaw | a, t⟩
      · rfl
      · rcases hf : f a t with ⟨writes', flaw | b, t'⟩ <;> simp [hf])

/-- What holds of everything the first action hands on, and of everything the second one does where
it is reached, holds of everything both do. -/
theorem forall_writes_bind {x : Emit σ α} {f : α → Emit σ β} {s : σ} {P : Piece × σ → Prop}
    (hx : ∀ w ∈ (x.run s).writes, P w)
    (hf : ∀ a, (x.run s).result = .ok a → ∀ w ∈ ((f a).run (x.run s).state).writes, P w) :
    ∀ w ∈ ((x >>= f).run s).writes, P w := by
  cases h : (x.run s).result with
  | error flaw =>
    rw [run_bind_of_error f h]
    exact hx
  | ok a =>
    rw [run_bind_of_ok f h]
    intro w hw
    exact (List.mem_append.1 hw).elim (hx w) (hf a h w)

/-- A check that is not enforced, or finds nothing, leaves no trace. -/
theorem run_demand_bind_of_ok {enforce : Bool} {flaw? : Option Flaw} {s : σ}
    (f : Unit → Emit σ β) (h : vet enforce flaw? = .ok ()) :
    (demand enforce flaw? >>= f).run s = (f ()).run s := by
  rw [run_bind_of_ok f (a := ()) (by simpa using h)]
  simp

end Emit

end XmlWriter
