import XmlWriter.Proofs.Ends
import XmlWriter.Writer.Run

/-!
# Two runs side by side

Two actions can be compared although their states differ: a function takes the states of the one to
those of the other. `y.Follows f x s` says that `y` does from `f s` what `x` does from `s`: it hands
on the same pieces, in the states that belong to each other, and ends in the same way, well or with
a flaw. An event that follows another one so is the same event to an outlet, which may refuse any of
the pieces (`Writer.perform_of_follows`). `y.Relaxes f x` lets go of the flaws: `y` never ends with
one, and it does what `x` does up to the place where `x` is stopped by one.
-/

namespace XmlWriter

variable {σ τ σ' τ' α β : Type}

namespace Emitted

/-- What an action has done, with another state in the place of each. -/
def mapState (f : σ → τ) (r : Emitted σ α) : Emitted τ α :=
  ⟨r.writes.map fun w => (w.1, f w.2), r.result, f r.state⟩

@[simp] theorem result_mapState (f : σ → τ) (r : Emitted σ α) :
    (r.mapState f).result = r.result := rfl

@[simp] theorem state_mapState (f : σ → τ) (r : Emitted σ α) :
    (r.mapState f).state = f r.state := rfl

@[simp] theorem writes_mapState (f : σ → τ) (r : Emitted σ α) :
    (r.mapState f).writes = r.writes.map fun w => (w.1, f w.2) := rfl

/-- The states make no difference to the pieces. -/
theorem pieces_mapState (f : σ → τ) (r : Emitted σ α) :
    (r.mapState f).writes.map (·.1) = r.writes.map (·.1) := by
  simp [Function.comp_def]

/-- The chunks are those of before, each with another state in place of its own. -/
theorem chunks_mapState (f : σ → τ) (r : Emitted σ α) :
    (r.mapState f).chunks = r.chunks.map fun c => (c.1, f c.2) := by
  simp [chunks, Function.comp_def]

end Emitted

namespace Emit

/-- An action on the state is the action that it gives for that state. -/
theorem run_get_bind (g : σ → Emit σ α) (s : σ) : (get >>= g).run s = (g s).run s := by
  rw [run_bind_of_ok g (a := s) (by simp)]
  simp

/-! ## Doing the same -/

/-- The action `y` does from `f s` what `x` does from `s`. -/
def Follows (f : σ → τ) (y : Emit τ α) (x : Emit σ α) (s : σ) : Prop :=
  y.run (f s) = (x.run s).mapState f

section
variable {f : σ → τ} {x : Emit σ α} {y : Emit τ α} {s : σ}

theorem follows_pure (a : α) : (pure a : Emit τ α).Follows f (pure a) s := rfl

theorem follows_write (p : Piece) : (write p : Emit τ Unit).Follows f (write p) s := rfl

theorem follows_demand (enforce : Bool) (flaw? : Option Flaw) :
    (demand enforce flaw? : Emit τ Unit).Follows f (demand enforce flaw?) s := rfl

/-- One change of state follows another if it leads to the state that belongs to it. -/
theorem follows_modify {g : σ → σ} {h : τ → τ} (hg : h (f s) = f (g s)) :
    (modify h).Follows f (modify g) s := by
  simp [Follows, Emitted.mapState, hg]

/-- An action on a part follows itself where the part is the same and is put back in the same
way. -/
theorem follows_zoom {ρ : Type} {part : σ → ρ} {put : ρ → σ → σ} {part' : τ → ρ}
    {put' : ρ → τ → τ} (z : Emit ρ α) (hp : part' (f s) = part s)
    (hput : ∀ r, put' r (f s) = f (put r s)) :
    (zoom part' put' z).Follows f (zoom part put z) s := by
  simp [Follows, Emitted.mapState, hp, hput, Function.comp_def]

/-- What is done with the state read follows if it does so for the two states. -/
theorem follows_get_bind {h : τ → Emit τ α} {g : σ → Emit σ α} (hg : (h (f s)).Follows f (g s) s) :
    (get >>= h).Follows f (get >>= g) s := by
  unfold Follows
  rw [run_get_bind, run_get_bind]
  exact hg

/-- A sequence follows another one step by step. -/
theorem Follows.bind {h : α → Emit τ β} {g : α → Emit σ β} (hx : y.Follows f x s)
    (hg : ∀ ps a t, x.Ends s ps a t → (h a).Follows f (g a) t) :
    (y >>= h).Follows f (x >>= g) s := by
  unfold Follows at hx ⊢
  cases hr : (x.run s).result with
  | error flaw =>
    rw [run_bind_of_error g hr, run_bind_of_error h (by rw [hx]; exact hr), hx]
    rfl
  | ok a =>
    have ht : (h a).run (f (x.run s).state) = ((g a).run (x.run s).state).mapState f :=
      hg _ a _ ⟨rfl, hr, rfl⟩
    rw [run_bind_of_ok g hr, run_bind_of_ok h (by rw [hx]; exact hr), hx,
      Emitted.state_mapState, ht]
    simp [Emitted.mapState]

end

/-! ## Doing the same but for the flaws -/

/-- From the states that belong to each other, `y` hands on at least what `x` does and never ends
with a flaw; and where `x` does not either, `y` does the same. -/
structure Relaxes (f : σ → τ) (y : Emit τ α) (x : Emit σ α) : Prop where
  ends : ∀ s, ∃ a t, (y.run (f s)).result = .ok a ∧ (y.run (f s)).state = f t
  begins : ∀ s, (x.run s).writes.map (·.1) <+: (y.run (f s)).writes.map (·.1)
  follows : ∀ s a, (x.run s).result = .ok a → y.Follows f x s

section
variable {f : σ → τ} {x : Emit σ α} {y : Emit τ α}

/-- An action that never ends with a flaw is relaxed by one that follows it. -/
theorem relaxes_of_follows (hx : ∀ s, ∃ a, (x.run s).result = .ok a) (hy : ∀ s, y.Follows f x s) :
    y.Relaxes f x where
  ends s := by
    obtain ⟨a, ha⟩ := hx s
    exact ⟨a, (x.run s).state, (congrArg Emitted.result (hy s)).trans ha,
      congrArg Emitted.state (hy s)⟩
  begins s := by
    have h : (y.run (f s)).writes.map (·.1) = (x.run s).writes.map (·.1) := by
      rw [hy s, Emitted.pieces_mapState]
    exact h ▸ List.prefix_rfl
  follows s _ _ := hy s

theorem relaxes_pure (a : α) : (pure a : Emit τ α).Relaxes f (pure a) :=
  relaxes_of_follows (fun _ => ⟨a, rfl⟩) fun _ => follows_pure a

theorem relaxes_write (p : Piece) : (write p : Emit τ Unit).Relaxes f (write p) :=
  relaxes_of_follows (fun _ => ⟨(), rfl⟩) fun _ => follows_write p

/-- A change of state is relaxed by one that leads to the state that belongs to it. -/
theorem relaxes_modify {g : σ → σ} {h : τ → τ} (hg : ∀ s, h (f s) = f (g s)) :
    (modify h).Relaxes f (modify g) :=
  relaxes_of_follows (fun _ => ⟨(), rfl⟩) fun s => follows_modify (hg s)

/-- A check that is not enforced relaxes the same check, enforced or not. -/
theorem relaxes_demand (enforce : Bool) (flaw? : Option Flaw) :
    (demand false flaw? : Emit τ Unit).Relaxes f (demand enforce flaw?) where
  ends s := ⟨(), s, by simp⟩
  begins s := by simp
  follows s a h := by
    rw [run_demand] at h
    simp only [Follows, Emitted.mapState, run_demand, h, vet_false, List.map_nil]

/-- What is done with the state read is relaxed if it is for every state. -/
theorem relaxes_get_bind {h : τ → Emit τ α} {g : σ → Emit σ α}
    (hg : ∀ s, (h (f s)).Relaxes f (g s)) : (get >>= h).Relaxes f (get >>= g) where
  ends s := by
    rw [run_get_bind]
    exact (hg s).ends s
  begins s := by
    rw [run_get_bind, run_get_bind]
    exact (hg s).begins s
  follows s a ha := by
    rw [run_get_bind] at ha
    exact follows_get_bind ((hg s).follows s a ha)

/-- A sequence is relaxed step by step. If a flaw ends `x`, what is missing then is the rest of `y`
and all that comes after it. -/
theorem Relaxes.bind {h : α → Emit τ β} {g : α → Emit σ β} (hx : y.Relaxes f x)
    (hg : ∀ a, (h a).Relaxes f (g a)) : (y >>= h).Relaxes f (x >>= g) where
  ends s := by
    obtain ⟨a, t, ha, ht⟩ := hx.ends s
    rw [run_bind_of_ok h ha, ht]
    exact (hg a).ends t
  begins s := by
    cases hr : (x.run s).result with
    | error flaw =>
      obtain ⟨a, t, ha, -⟩ := hx.ends s
      rw [run_bind_of_error g hr, run_bind_of_ok h ha, List.map_append]
      exact (hx.begins s).trans (List.prefix_append _ _)
    | ok a =>
      have hy := hx.follows s a hr
      have ha : (y.run (f s)).result = .ok a := by rw [hy]; exact hr
      rw [run_bind_of_ok g hr, run_bind_of_ok h ha, List.map_append, List.map_append, hy,
        Emitted.pieces_mapState, List.prefix_append_right_inj]
      exact (hg a).begins _
  follows s b hb := by
    obtain ⟨_, a, t, _, hx', hb', -⟩ := ends_bind.1 ⟨rfl, hb, rfl⟩
    refine (hx.follows s a hx'.2.1).bind ?_
    rintro _ a' t' ⟨-, ha', rfl⟩
    cases ha'.symm.trans hx'.2.1
    exact (hg a).follows _ b (hx'.2.2 ▸ hb'.2.1)

/-- An action on a part is relaxed by one that relaxes it there. -/
theorem Relaxes.zoom {ρ : Type} {part : σ → ρ} {put : ρ → σ → σ} {part' : τ → ρ}
    {put' : ρ → τ → τ} {z z' : Emit ρ α} (hz : z'.Relaxes id z) (hp : ∀ s, part' (f s) = part s)
    (hput : ∀ r s, put' r (f s) = f (put r s)) :
    (zoom part' put' z').Relaxes f (zoom part put z) where
  ends s := by
    obtain ⟨a, t, ha, -⟩ := hz.ends (part s)
    refine ⟨a, put (z'.run (part s)).state s, ?_, ?_⟩
    · rw [run_zoom, hp]
      exact ha
    · rw [run_zoom, hp, hput]
  begins s := by
    simpa [hp, Function.comp_def] using hz.begins (part s)
  follows s a ha := by
    have hz' : z'.run (part s) = (z.run (part s)).mapState id := hz.follows _ a ha
    simp [Follows, Emitted.mapState, hp, hput, hz', Function.comp_def]

end

end Emit

/-! ## The same event to an outlet -/

/-- An outlet takes and refuses chunks without looking at the states. -/
theorem Outlet.deliver_map {ω : Type} [Outlet ω] (f : σ → τ) (xs : List (Text × σ)) (out : ω) :
    deliver (xs.map fun x => (x.1, f x.2)) out =
      ((deliver xs out).1, (deliver xs out).2.map fun r => (r.1, f r.2)) := by
  induction xs generalizing out with
  | nil => rfl
  | cons x xs ih =>
    obtain ⟨chunk, s⟩ := x
    cases hp : (put out chunk).2 with
    | none =>
      rw [List.map_cons, deliver_cons_of_taken _ hp, deliver_cons_of_taken _ hp]
      exact ih _
    | some refusal =>
      rw [List.map_cons, deliver_cons_of_refused _ hp, deliver_cons_of_refused _ hp]
      rfl

/-- How far things have come, with another writer. -/
def Progress.mapWriter {ω : Type} (f : Writer → Writer) (p : Progress ω) : Progress ω :=
  { p with writer := f p.writer }

/-- An event that does the same from two writers does the same to an outlet, whatever the outlet
refuses. -/
theorem Writer.perform_of_follows {ω : Type} [Outlet ω] {f : Writer → Writer} {w : Writer}
    {e : Event} (h : e.emit.Follows f e.emit w) (out : ω) :
    (f w).perform out e = (w.perform out e).mapWriter f := by
  unfold Emit.Follows at h
  simp only [perform, h, Emitted.chunks_mapState, Outlet.deliver_map, Emitted.result_mapState,
    Emitted.state_mapState]
  rcases Outlet.deliver (e.emit.run w).chunks out with ⟨out', _ | ⟨refusal, w'⟩⟩
  · cases (e.emit.run w).result <;> rfl
  · rfl

end XmlWriter
