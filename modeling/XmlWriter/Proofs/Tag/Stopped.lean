import XmlWriter.Proofs.Ends
import XmlWriter.Proofs.Number.Rounding
import XmlWriter.Tag.Start

/-!
# Start tags that are stopped

A start tag may be stopped anywhere: by a flaw, or by an outlet that refuses a piece. What holds of
it then is said of all its parts at once (`Emit.IsPart`): whatever a part hands on is not the end of
the tag, the counter is only ever counted up, and only a flaw of a given sort stops it. Main
statements: a start tag as a whole is such a part (`OpenElement.isPart_start`); and a flaw of the
element's own name or prefix is found before anything is handed on or counted
(`OpenElement.run_start_of_isAboutElement`).
-/

namespace XmlWriter

/-- Whether a flaw is about the name of an element: its local part, or its being written with the
prefix of declarations. -/
def Flaw.IsAboutElement : Flaw → Prop
  | .colonInLocalName role _ | .emptyLocalName role | .leadingChar role _ _ | .nameChar role _ _ =>
    role = .element
  | .xmlnsElement _ => True
  | _ => False

instance : DecidablePred Flaw.IsAboutElement := fun flaw => by
  cases flaw <;> unfold Flaw.IsAboutElement <;> infer_instance

/-! ## Parts of a start tag -/

namespace Emit

variable {α β : Type} {F G : Flaw → Prop}

/-- What a part of a start tag does, also if it is stopped: the pieces that it hands on are not the
end of the tag, the counter is counted up, and the flaw that stops it is one of `F`. -/
structure IsPart (F : Flaw → Prop) (x : Emit Counter α) : Prop where
  writes : ∀ n, ∀ w ∈ (x.run n).writes, w.1 ≠ .tagEnd ∧ ∃ k, w.2 = Binary64.next^[k] n
  flaw : ∀ n flaw, (x.run n).result = .error flaw → F flaw
  state : ∀ n, ∃ k, (x.run n).state = Binary64.next^[k] n

/-- A part may be stopped by more flaws than it is stopped by. -/
theorem IsPart.mono {x : Emit Counter α} (h : x.IsPart F) (hFG : ∀ flaw, F flaw → G flaw) :
    x.IsPart G :=
  ⟨h.writes, fun n flaw hf => hFG flaw (h.flaw n flaw hf), h.state⟩

/-- Doing nothing is part of any start tag. -/
theorem isPart_pure (a : α) : (pure a : Emit Counter α).IsPart F :=
  ⟨by simp, by simp, fun n => ⟨0, rfl⟩⟩

/-- A check stops with the flaw that it found, and hands on nothing. -/
theorem isPart_demand {enforce : Bool} {flaw? : Option Flaw} (h : ∀ flaw ∈ flaw?, F flaw) :
    (demand enforce flaw?).IsPart F := by
  refine ⟨by simp, fun n flaw hf => ?_, fun n => ⟨0, rfl⟩⟩
  cases flaw? with
  | none => cases hf
  | some flaw' =>
    cases enforce <;> cases hf
    exact h flaw rfl

/-- A piece other than the end of the tag may be handed on. -/
theorem isPart_write {p : Piece} (h : p ≠ .tagEnd) : (write p : Emit Counter Unit).IsPart F :=
  ⟨by simpa using fun _ => ⟨h, 0, rfl⟩, by simp, fun n => ⟨0, rfl⟩⟩

/-- Two parts one after the other. -/
theorem IsPart.bind {x : Emit Counter α} {f : α → Emit Counter β} (hx : x.IsPart F)
    (hf : ∀ a, (f a).IsPart F) : (x >>= f).IsPart F := by
  have later : ∀ {n m : Counter}, (∃ k, m = Binary64.next^[k] (x.run n).state) →
      ∃ k, m = Binary64.next^[k] n := by
    rintro n _ ⟨k, rfl⟩
    obtain ⟨j, hj⟩ := hx.state n
    exact ⟨k + j, by rw [hj, Function.iterate_add_apply]⟩
  refine ⟨fun n => forall_writes_bind (hx.writes n) fun a _ w hw => ?_, fun n flaw h => ?_,
    fun n => ?_⟩
  · exact ((hf a).writes _ w hw).imp_right later
  · cases hr : (x.run n).result with
    | error flaw' =>
      rw [run_bind_of_error f hr] at h
      cases h
      exact hx.flaw n flaw hr
    | ok a =>
      rw [run_bind_of_ok f hr] at h
      exact (hf a).flaw _ flaw h
  · cases hr : (x.run n).result with
    | error flaw =>
      rw [run_bind_of_error f hr]
      exact hx.state n
    | ok a =>
      rw [run_bind_of_ok f hr]
      exact later ((hf a).state _)

/-- A sequence that begins with a check either stops there, with nothing done, or goes on with the
rest. -/
theorem run_demand_bind_cases (enforce : Bool) (flaw? : Option Flaw) (f : Unit → Emit Counter β)
    (n : Counter) :
    (∃ flaw, (demand enforce flaw? >>= f).run n = ⟨[], .error flaw, n⟩) ∨
      (demand enforce flaw? >>= f).run n = (f ()).run n := by
  cases hv : vet enforce flaw? with
  | error flaw => exact .inl ⟨flaw, run_bind_of_error f hv⟩
  | ok u => exact .inr (run_demand_bind_of_ok f hv)

end Emit

/-- A part of a start tag that is no longer about the name of the element. -/
abbrev Emit.IsBody {α : Type} (x : Emit Counter α) : Prop :=
  x.IsPart fun flaw => ¬ flaw.IsAboutElement

variable {enforce : Bool}

/-- Taking a made-up prefix counts up by one and cannot be stopped. -/
theorem Counter.isBody_take : take.IsBody :=
  ⟨fun _ _ hw => absurd hw List.not_mem_nil, fun _ _ hf => (by cases hf), fun _ => ⟨1, rfl⟩⟩

/-- A character that a value may not have says nothing about the element. -/
theorem AttValue.isBody_demand (t : Text) : (Emit.demand enforce (flaw? t)).IsBody := by
  refine Emit.isPart_demand fun flaw hf => ?_
  obtain ⟨n, -, rfl⟩ := charFlaw?_eq_some_iff.1 hf
  exact id

/-! ## Attributes -/

/-- A flaw of a local part is about what the local part names. -/
theorem LocalPart.isAboutElement_of_mem {role : NameRole} {t : Text} {flaw : Flaw}
    (h : flaw ∈ flaw? role t) : flaw.IsAboutElement ↔ role = .element := by
  unfold flaw? at h
  split at h
  · cases h
    exact Iff.rfl
  · obtain ⟨fault, -, rfl⟩ := Option.map_eq_some_iff.1 h
    split_ifs <;> exact Iff.rfl

namespace Attribute

/-- What is wrong with the name of an attribute is not wrong with that of the element. -/
theorem isBody_demand_nameFlaw (a : Attribute) : (Emit.demand enforce a.nameFlaw?).IsBody := by
  refine Emit.isPart_demand fun flaw hf => ?_
  rcases Option.or_eq_some_iff.1 hf with hf | ⟨-, hf⟩
  · rw [LocalPart.isAboutElement_of_mem hf]
    exact NameRole.noConfusion
  · split at hf <;> cases hf
    exact id

/-- A flaw of a declaration is not about the element. -/
theorem isBody_demand_declarationFlaw (a : Attribute) :
    (Emit.demand enforce a.declarationFlaw?).IsBody := by
  refine Emit.isPart_demand fun flaw hf => ?_
  unfold declarationFlaw? at hf
  split_ifs at hf <;> cases hf <;> exact id

/-- That an attribute repeats another one is not about the element. -/
theorem isBody_demand_duplicateFlaw (seen : List (Option Text × Text)) (a : Attribute) :
    (Emit.demand enforce (a.duplicateFlaw? seen)).IsBody := by
  refine Emit.isPart_demand fun flaw hf => ?_
  unfold duplicateFlaw? at hf
  split_ifs at hf <;> cases hf
  exact id

/-- An attribute is checked and then handed on in one piece. -/
theorem isBody_writeWith (a : Attribute) (pre : Option Text) :
    (a.writeWith enforce pre).IsBody :=
  a.isBody_demand_nameFlaw.bind fun _ => (AttValue.isBody_demand _).bind fun _ =>
    Emit.isPart_write Piece.noConfusion

/-- A declaration is left out, or checked and handed on. -/
theorem isBody_writeDeclaration (c : TagContext) (m : PrefixMap) (a : Attribute) :
    (a.writeDeclaration c m).IsBody := by
  unfold writeDeclaration
  split
  · exact Emit.isPart_pure ()
  · exact a.isBody_demand_declarationFlaw.bind fun _ => a.isBody_writeWith _

/-- A prefix is made up, and then its declaration handed on if the namespace passes. -/
theorem isBody_declarePrefix (space : Text) : (declarePrefix enforce space).IsBody :=
  Counter.isBody_take.bind fun _ => (AttValue.isBody_demand _).bind fun _ =>
    (Emit.isPart_write Piece.noConfusion).bind fun _ => Emit.isPart_pure _

/-- However an attribute is written, it is part of the tag behind the name. -/
theorem isBody_write (c : TagContext) (m : PrefixMap) (a : Attribute) : (a.write c m).IsBody := by
  unfold write
  cases a.name.space with
  | none => exact (a.isBody_writeWith none).bind fun _ => Emit.isPart_pure m
  | some space =>
    by_cases hd : a.isDeclaration = true
    · simp only [if_pos hd]
      exact (a.isBody_writeDeclaration c m).bind fun _ => Emit.isPart_pure m
    · simp only [if_neg hd]
      cases m.preferred? (some space) a.name.wish with
      | some pre => exact (a.isBody_writeWith _).bind fun _ => Emit.isPart_pure m
      | none =>
        refine (isBody_declarePrefix space).bind fun pre => ?_
        exact (a.isBody_writeWith _).bind fun _ => Emit.isPart_pure _

/-- All attributes, one after the other, are part of the tag behind the name. -/
theorem isBody_writeAll (c : TagContext) (seen : List (Option Text × Text)) (m : PrefixMap)
    (as : List Attribute) : (writeAll c seen m as).IsBody := by
  induction as generalizing seen m with
  | nil => exact Emit.isPart_pure m
  | cons a as ih =>
    exact (a.isBody_demand_duplicateFlaw seen).bind fun _ => (a.isBody_write c m).bind fun m' =>
      ih _ m'

end Attribute

/-! ## Whole start tags -/

namespace Resolution

/-- The prefix that a tag declares for its element is the one wished for or a made-up one. -/
theorem isBody_declared (d : Declarations) (wish : Text) : (declared d wish).IsBody := by
  unfold declared
  split
  · exact Counter.isBody_take
  · exact Emit.isPart_pure wish

/-- How an element is written is found after a check of its prefix. -/
theorem exists_isBody_of (enforce : Bool) (d : Declarations) (inherited : Option Text)
    (name : Name) :
    ∃ flaw? x, of enforce d inherited name = (Emit.demand enforce flaw? >>= fun _ => x) ∧
      x.IsBody := by
  unfold of
  by_cases hi : inherited = name.space
  · simp only [if_pos hi]
    exact ⟨none, _, rfl, Emit.isPart_pure _⟩
  · simp only [if_neg hi]
    refine ⟨_, _, rfl, ?_⟩
    split
    · exact Emit.isPart_pure _
    · exact (isBody_declared d _).bind fun _ => (AttValue.isBody_demand _).bind fun _ =>
        Emit.isPart_pure _
    · split
      · exact Emit.isPart_pure _
      · exact (AttValue.isBody_demand _).bind fun _ => Emit.isPart_pure _

end Resolution

namespace OpenElement

variable (enforce : Bool) (scope : Scope) (name : Name) (attributes : List Attribute)
  (childless : Bool)

/-- A start tag begins with the checks of the element's local part and of its prefix. -/
theorem exists_isBody_start :
    ∃ flaw? flaw?' x, start enforce scope name attributes childless =
      (Emit.demand enforce flaw? >>= fun _ => Emit.demand enforce flaw?' >>= fun _ => x) ∧
      x.IsBody := by
  obtain ⟨flaw?, x, ho, hx⟩ := Resolution.exists_isBody_of enforce
    (Declarations.collect scope.prefixes attributes) scope.inherited name
  unfold start
  simp only [ho, bind_assoc]
  refine ⟨_, flaw?, _, rfl, hx.bind fun r => ?_⟩
  refine (Emit.isPart_write Piece.noConfusion).bind fun _ => ?_
  refine (Attribute.isBody_writeAll _ _ _ _).bind fun m => ?_
  cases childless with
  | false => exact Emit.isPart_pure _
  | true => exact (Emit.isPart_write Piece.noConfusion).bind fun _ => Emit.isPart_pure _

/-- Whatever stops a start tag, its end has not been handed on, and the counter has only been
counted up. -/
theorem isPart_start : (start enforce scope name attributes childless).IsPart fun _ => True := by
  obtain ⟨flaw?, flaw?', x, hs, hx⟩ := exists_isBody_start enforce scope name attributes
    childless
  rw [hs]
  exact (Emit.isPart_demand fun _ _ => trivial).bind fun _ =>
    (Emit.isPart_demand fun _ _ => trivial).bind fun _ => hx.mono fun _ _ => trivial

variable {enforce scope name attributes childless} in
/-- A start tag that is written to the end has counted up some number of times. -/
theorem exists_iterate_of_ends {n n' : Counter} {ps : List Piece} {el : OpenElement}
    (h : (start enforce scope name attributes childless).Ends n ps el n') :
    ∃ k, n' = Binary64.next^[k] n :=
  h.2.2 ▸ (isPart_start enforce scope name attributes childless).state n

/-- A flaw of the element's own name is found before anything has been done. -/
theorem run_start_of_isAboutElement {n : Counter} {flaw : Flaw} (hf : flaw.IsAboutElement)
    (h : ((start enforce scope name attributes childless).run n).result = .error flaw) :
    (start enforce scope name attributes childless).run n = ⟨[], .error flaw, n⟩ := by
  obtain ⟨flaw?, flaw?', x, hs, hx⟩ := exists_isBody_start enforce scope name attributes
    childless
  rw [hs] at h ⊢
  rcases Emit.run_demand_bind_cases enforce flaw? _ n with ⟨flaw', hr⟩ | hr
  · rw [hr] at h ⊢
    cases h
    rfl
  rw [hr] at h ⊢
  rcases Emit.run_demand_bind_cases enforce flaw?' _ n with ⟨flaw', hr⟩ | hr
  · rw [hr] at h ⊢
    cases h
    rfl
  · rw [hr] at h
    exact absurd hf (hx.flaw n flaw h)

end OpenElement

end XmlWriter
