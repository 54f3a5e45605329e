import XmlWriter.Emit

/-!
# Actions that end well

`x.Ends s ps a t` says that the action `x`, run from the state `s`, hands on the pieces `ps` and
ends well with `a` in the state `t`. Each step of the monad has a lemma that says when it ends well,
and every one of them is an equivalence, so that an action made of steps is taken apart by
rewriting. What an action leaves behind when it is stopped, by a flaw or by an outlet that refuses a
piece, is no part of this: `x.Reaches s t` says of the state `t` that the action may be left in it.
-/

namespace XmlWriter

namespace Emit

variable {σ τ α β : Type}

/-- The action hands on the pieces and ends well with a value, in a state. -/
def Ends (x : Emit σ α) (s : σ) (ps : List Piece) (a : α) (t : σ) : Prop :=
  (x.run s).writes.map (·.1) = ps ∧ (x.run s).result = .ok a ∧ (x.run s).state = t

@[simp] theorem ends_pure {a b : α} {s t : σ} {ps : List Piece} :
    (pure a : Emit σ α).Ends s ps b t ↔ ps = [] ∧ b = a ∧ t = s := by
  simp [Ends, eq_comm]

@[simp] theorem ends_get {a s t : σ} {ps : List Piece} :
    (get : Emit σ σ).Ends s ps a t ↔ ps = [] ∧ a = s ∧ t = s := by
  simp [Ends, eq_comm]

@[simp] theorem ends_modify {f : σ → σ} {u : Unit} {s t : σ} {ps : List Piece} :
    (modify f).Ends s ps u t ↔ ps = [] ∧ t = f s := by
  simp [Ends, eq_comm]

@[simp] theorem ends_write {p : Piece} {u : Unit} {s t : σ} {ps : List Piece} :
    (write p : Emit σ Unit).Ends s ps u t ↔ ps = [p] ∧ t = s := by
  simp [Ends, eq_comm]

@[simp] theorem ends_demand {enforce : Bool} {flaw? : Option Flaw} {u : Unit} {s t : σ}
    {ps : List Piece} :
    (demand enforce flaw? : Emit σ Unit).Ends s ps u t ↔
      vet enforce flaw? = .ok () ∧ ps = [] ∧ t = s := by
  simp only [Ends, run_demand, List.map_nil]
  exact ⟨fun ⟨h1, h2, h3⟩ => ⟨h2, h1.symm, h3.symm⟩, fun ⟨h1, h2, h3⟩ => ⟨h2.symm, h1, h3.symm⟩⟩

/-- A sequence ends well exactly when the first action does and the second one does from there. -/
theorem ends_bind {x : Emit σ α} {f : α → Emit σ β} {s u : σ} {ps : List Piece} {b : β} :
    (x >>= f).Ends s ps b u ↔
      ∃ ps₁ a t ps₂, x.Ends s ps₁ a t ∧ (f a).Ends t ps₂ b u ∧ ps = ps₁ ++ ps₂ := by
  constructor
  · rintro ⟨rfl, hr, rfl⟩
    cases hx : (x.run s).result with
    | error flaw => simp [run_bind_of_error f hx] at hr
    | ok a =>
      rw [run_bind_of_ok f hx] at hr ⊢
      exact ⟨_, a, _, _, ⟨rfl, hx, rfl⟩, ⟨rfl, hr, rfl⟩, by simp⟩
  · rintro ⟨_, a, _, _, ⟨rfl, hx, rfl⟩, ⟨rfl, hb, rfl⟩, rfl⟩
    unfold Ends
    rw [run_bind_of_ok f hx]
    exact ⟨by simp, hb, rfl⟩

/-- A sequence that begins with a check ends well exactly when the check lets it pass and the rest
does. -/
theorem ends_demand_bind {enforce : Bool} {flaw? : Option Flaw} {f : Unit → Emit σ β} {s t : σ}
    {ps : List Piece} {b : β} :
    (demand enforce flaw? >>= f).Ends s ps b t ↔
      vet enforce flaw? = .ok () ∧ (f ()).Ends s ps b t := by
  simp only [ends_bind, ends_demand]
  constructor
  · rintro ⟨_, _, _, _, ⟨hv, rfl, rfl⟩, hf, rfl⟩
    exact ⟨hv, hf⟩
  · rintro ⟨hv, hf⟩
    exact ⟨[], (), s, ps, ⟨hv, rfl, rfl⟩, hf, rfl⟩

@[simp] theorem ends_zoom {part : σ → τ} {put : τ → σ → σ} {x : Emit τ α} {s t : σ}
    {ps : List Piece} {a : α} :
    (zoom part put x).Ends s ps a t ↔ ∃ u, x.Ends (part s) ps a u ∧ t = put u s := by
  constructor
  · rintro ⟨rfl, ha, rfl⟩
    exact ⟨_, ⟨by simp, ha, rfl⟩, rfl⟩
  · rintro ⟨_, ⟨rfl, ha, rfl⟩, rfl⟩
    exact ⟨by simp, ha, rfl⟩

/-! ## Where an action may be left -/

/-- A state that the action is in at its end or when it hands on a piece. -/
def Reaches (x : Emit σ α) (s t : σ) : Prop :=
  (x.run s).state = t ∨ ∃ p, (p, t) ∈ (x.run s).writes

/-- An action that ends well in a state reaches it. -/
theorem Ends.reaches {x : Emit σ α} {s t : σ} {ps : List Piece} {a : α} (h : x.Ends s ps a t) :
    x.Reaches s t :=
  .inl h.2.2

@[simp] theorem reaches_pure {a : α} {s t : σ} : (pure a : Emit σ α).Reaches s t ↔ t = s := by
  simp [Reaches, eq_comm]

@[simp] theorem reaches_get {s t : σ} : (get : Emit σ σ).Reaches s t ↔ t = s := by
  simp [Reaches, eq_comm]

@[simp] theorem reaches_modify {f : σ → σ} {s t : σ} : (modify f).Reaches s t ↔ t = f s := by
  simp [Reaches, eq_comm]

@[simp] theorem reaches_write {p : Piece} {s t : σ} :
    (write p : Emit σ Unit).Reaches s t ↔ t = s := by
  simp [Reaches, eq_comm]

@[simp] theorem reaches_demand {enforce : Bool} {flaw? : Option Flaw} {s t : σ} :
    (demand enforce flaw? : Emit σ Unit).Reaches s t ↔ t = s := by
  simp [Reaches, eq_comm]

/-- A sequence is left in a state of its first action, or in one of the second action after the
first has ended well. -/
theorem Reaches.of_bind {x : Emit σ α} {f : α → Emit σ β} {s u : σ} (h : (x >>= f).Reaches s u) :
    x.Reaches s u ∨ ∃ ps a t, x.Ends s ps a t ∧ (f a).Reaches t u := by
  cases hx : (x.run s).result with
  | error flaw =>
    rw [Reaches, run_bind_of_error f hx] at h
    exact .inl h
  | ok a =>
    rw [Reaches, run_bind_of_ok f hx] at h
    rcases h with h | ⟨p, hp⟩
    · exact .inr ⟨_, a, _, ⟨rfl, hx, rfl⟩, .inl h⟩
    · rcases List.mem_append.1 hp with hp | hp
      · exact .inl (.inr ⟨p, hp⟩)
      · exact .inr ⟨_, a, _, ⟨rfl, hx, rfl⟩, .inr ⟨p, hp⟩⟩

/-- An action on a part is left with some value of the part. -/
theorem Reaches.of_zoom {part : σ → τ} {put : τ → σ → σ} {x : Emit τ α} {s t : σ}
    (h : (zoom part put x).Reaches s t) : ∃ u, t = put u s := by
  rcases h with h | ⟨p, hp⟩
  · exact ⟨_, h.symm⟩
  · obtain ⟨w, -, hw⟩ := List.mem_map.1 hp
    cases hw
    exact ⟨_, rfl⟩

end Emit

end XmlWriter
