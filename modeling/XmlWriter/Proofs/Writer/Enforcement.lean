import XmlWriter.Proofs.SideBySide
import XmlWriter.Proofs.Writer.Forest

/-!
# What enforced checks change

A check stands between the writes of an event and changes nothing by itself: with checks enforced a
writer does what it does without them, up to the first flaw. Each action of a start tag is relaxed
by the one that does not enforce its checks, so that an event is (`Event.relaxes_emit`), and events
one after the other are. Main statement (`Writer.walk_enforced`): with an outlet that takes
everything, a run that enforces no checks never fails, and one that does hands on the same chunks up
to its first flaw; and if there is none, the two agree after every event.
-/

namespace XmlWriter

variable {enforce : Bool}

/-! ## Start tags -/

/-- A prefix is taken in the same way without checks. -/
theorem Counter.relaxes_take : take.Relaxes id take :=
  Emit.relaxes_of_follows (fun n => ⟨generated n, rfl⟩) fun _ => by
    simp [Emit.Follows, Emitted.mapState]

/-- How the name of an element is written does not depend on the checks. -/
theorem Resolution.relaxes_of (d : Declarations) (inherited : Option Text) (name : Name) :
    (of false d inherited name).Relaxes id (of enforce d inherited name) := by
  unfold of
  by_cases hi : inherited = name.space
  · simp only [if_pos hi]
    exact Emit.relaxes_pure _
  simp only [if_neg hi]
  refine (Emit.relaxes_demand _ _).bind fun _ => ?_
  split
  · exact Emit.relaxes_pure _
  · have hd : ∀ wish, (declared d wish).Relaxes id (declared d wish) := fun wish => by
      unfold declared
      split
      · exact Counter.relaxes_take
      · exact Emit.relaxes_pure _
    exact (hd _).bind fun _ => (Emit.relaxes_demand _ _).bind fun _ => Emit.relaxes_pure _
  · split
    · exact Emit.relaxes_pure _
    · exact (Emit.relaxes_demand _ _).bind fun _ => Emit.relaxes_pure _

namespace Attribute

/-- An attribute with its prefix is written without checks too, if it is with them. -/
theorem relaxes_writeWith (a : Attribute) (pre : Option Text) :
    (a.writeWith false pre).Relaxes id (a.writeWith enforce pre) :=
  (Emit.relaxes_demand _ _).bind fun _ =>
    (Emit.relaxes_demand _ _).bind fun _ => Emit.relaxes_write _

/-- A generated prefix is declared without checks too, if it is with them. -/
theorem relaxes_declarePrefix (space : Text) :
    (declarePrefix false space).Relaxes id (declarePrefix enforce space) :=
  Counter.relaxes_take.bind fun _ => (Emit.relaxes_demand _ _).bind fun _ =>
    (Emit.relaxes_write _).bind fun _ => Emit.relaxes_pure _

variable {d : Declarations} {drops : Bool}

/-- Whether a declaration is left out is not for the checks to say, so it is written without them
too, if it is written with them. -/
theorem relaxes_write (m : PrefixMap) (a : Attribute) :
    (a.write ⟨false, d, drops⟩ m).Relaxes id (a.write ⟨enforce, d, drops⟩ m) := by
  unfold write
  cases a.name.space with
  | none => exact (relaxes_writeWith a none).bind fun _ => Emit.relaxes_pure m
  | some space =>
    by_cases hd : a.isDeclaration = true
    · simp only [if_pos hd]
      refine Emit.Relaxes.bind ?_ fun _ => Emit.relaxes_pure m
      unfold writeDeclaration
      have hl : a.isLeftOut ⟨false, d, drops⟩ m = a.isLeftOut ⟨enforce, d, drops⟩ m := rfl
      rw [hl]
      split
      · exact Emit.relaxes_pure ()
      · exact (Emit.relaxes_demand _ _).bind fun _ => relaxes_writeWith a _
    · simp only [if_neg hd]
      cases m.preferred? (some space) a.name.wish with
      | some pre => exact (relaxes_writeWith a _).bind fun _ => Emit.relaxes_pure m
      | none =>
        refine (relaxes_declarePrefix space).bind fun pre => ?_
        exact (relaxes_writeWith a _).bind fun _ => Emit.relaxes_pure _

/-- Attributes are written without checks at least as far as they are with them. -/
theorem relaxes_writeAll (seen : List (Option Text × Text)) (m : PrefixMap) (as : List Attribute) :
    (writeAll ⟨false, d, drops⟩ seen m as).Relaxes id (writeAll ⟨enforce, d, drops⟩ seen m as) := by
  induction as generalizing seen m with
  | nil => exact Emit.relaxes_pure m
  | cons a as ih =>
    exact (Emit.relaxes_demand _ _).bind fun _ => (relaxes_write m a).bind fun m' => ih _ m'

end Attribute

/-- A start tag is written without checks at least as far as it is with them. -/
theorem OpenElement.relaxes_start (scope : Scope) (name : Name) (attributes : List Attribute)
    (childless : Bool) :
    (start false scope name attributes childless).Relaxes id
      (start enforce scope name attributes childless) := by
  refine (Emit.relaxes_demand _ _).bind fun _ => (Resolution.relaxes_of _ _ _).bind fun r => ?_
  refine (Emit.relaxes_write _).bind fun _ => (Attribute.relaxes_writeAll _ _ _).bind fun m => ?_
  cases childless with
  | false => exact Emit.relaxes_pure _
  | true => exact (Emit.relaxes_write _).bind fun _ => Emit.relaxes_pure _

/-! ## Events -/

/-- The writer without checks. -/
def Writer.lenient (w : Writer) : Writer := { w with enforce := false }

namespace Event

/-- Content is handed on without checks too, if it is with them. -/
theorem relaxes_emitContent (flaw? : Option Flaw) (p : Piece) :
    (emitContent flaw? p).Relaxes Writer.lenient (emitContent flaw? p) :=
  Emit.relaxes_get_bind fun w => (Emit.relaxes_demand w.enforce _).bind fun _ =>
    (Emit.relaxes_write p).bind fun _ => Emit.relaxes_pure none

/-- An event does without checks what it does with them, up to the flaw that stops it there, and is
never stopped. -/
theorem relaxes_emit (e : Event) : e.emit.Relaxes Writer.lenient e.emit := by
  cases e with
  | start name attributes childless =>
    refine Emit.Relaxes.bind ?_ fun _ => Emit.relaxes_pure none
    refine Emit.relaxes_get_bind fun w => ?_
    refine Emit.Relaxes.bind ((OpenElement.relaxes_start w.scope name attributes childless).zoom
      (fun _ => rfl) fun _ _ => rfl) fun el => ?_
    refine Emit.Relaxes.bind (Emit.relaxes_modify fun _ => ?_) fun _ => Emit.relaxes_write .tagEnd
    rfl
  | close name =>
    refine Emit.relaxes_get_bind fun w => ?_
    have hs : w.lenient.stack = w.stack := rfl
    rw [hs]
    cases w.stack.innermost? with
    | none => exact Emit.relaxes_pure _
    | some el =>
      refine Emit.Relaxes.bind (Emit.relaxes_modify fun _ => rfl) fun _ => ?_
      split
      · exact Emit.relaxes_pure none
      · exact (Emit.relaxes_write _).bind fun _ => Emit.relaxes_pure none
  | text | cdata | comment | instruction | doctype | declaration => exact relaxes_emitContent _ _

/-- Events one after the other, up to the first that is stopped. -/
theorem relaxes_emitAll (es : List Event) :
    (emitAll es).Relaxes Writer.lenient (emitAll es) := by
  induction es with
  | nil => exact Emit.relaxes_pure ()
  | cons e es ih => exact (relaxes_emit e).bind fun _ => ih

end Event

/-! ## Runs to an outlet that takes everything -/

namespace Outlet

variable {σ ω : Type} [Outlet ω] {out : ω}

/-- The outlet after it has been given some chunks. -/
def after (out : ω) (cs : List Text) : ω := (deliver (cs.map fun c => (c, ())) out).1

/-- Whether an outlet takes whatever it is given, now and later. -/
def TakesAll (out : ω) : Prop := ∀ cs : List Text, (deliver (cs.map fun c => (c, ())) out).2 = none

/-- Such an outlet ends up after all chunks. -/
theorem TakesAll.deliver_eq (h : TakesAll out) (xs : List (Text × σ)) :
    deliver xs out = (after out (xs.map (·.1)), none) := by
  have hx := deliver_map (fun _ : σ => ()) xs out
  have he : (xs.map fun x => (x.1, ())) = (xs.map (·.1)).map fun c => (c, ()) := by
    simp [Function.comp_def]
  rw [he] at hx
  have hn := h (xs.map (·.1))
  rw [hx, Option.map_eq_none_iff] at hn
  exact Prod.ext (congrArg Prod.fst hx).symm hn

/-- Such an outlet takes chunks in two deliveries as it does in one. -/
theorem TakesAll.after_append (h : TakesAll out) (cs cs' : List Text) :
    after out (cs ++ cs') = after (after out cs) cs' := by
  rw [after, List.map_append, deliver_append_of_taken _ (h cs)]
  rfl

/-- Such an outlet still takes everything after some chunks. -/
theorem TakesAll.takesAll_after (h : TakesAll out) (cs : List Text) : TakesAll (after out cs) := by
  intro cs'
  have hcs := h (cs ++ cs')
  rwa [List.map_append, deliver_append_of_taken _ (h cs)] at hcs

end Outlet

/-- A text buffer takes everything. -/
theorem TextBuffer.takesAll (b : TextBuffer) : Outlet.TakesAll b := fun cs => by
  rw [TextBuffer.deliver_eq]

namespace Writer

variable {ω : Type} [Outlet ω] {w : Writer} {out : ω} {e : Event} {es : List Event}

/-- To an outlet that takes everything all pieces of an event are handed on, and only a flaw makes
it fail. -/
theorem perform_of_ok (h : Outlet.TakesAll out) {a : Option Warning}
    (ha : (e.emit.run w).result = .ok a) :
    w.perform out e = ⟨(e.emit.run w).state, Outlet.after out ((e.pieces w).map Piece.render), none,
      a.toList⟩ := by
  simp [perform, h.deliver_eq, ha, Event.pieces, Emitted.chunks, Function.comp_def]

/-- To such an outlet a flawed event hands on the pieces before the flaw. -/
theorem perform_of_error (h : Outlet.TakesAll out) {flaw : Flaw}
    (hf : (e.emit.run w).result = .error flaw) :
    w.perform out e = ⟨(e.emit.run w).state, Outlet.after out ((e.pieces w).map Piece.render),
      some (.flaw flaw), []⟩ := by
  simp [perform, h.deliver_eq, hf, Event.pieces, Emitted.chunks, Function.comp_def]

/-- The chunks that events hand on one after the other, up to the first flaw. -/
def chunks (w : Writer) (es : List Event) : List Text := (w.pieces es).map Piece.render

/-- A walk to an outlet that takes everything hands on all chunks up to the first flaw. -/
theorem out_walk (h : Outlet.TakesAll out) :
    (w.walk out es).out = Outlet.after out (w.chunks es) := by
  induction es generalizing w out with
  | nil => rfl
  | cons e es ih =>
    cases hr : (e.emit.run w).result with
    | error flaw =>
      have hp := perform_of_error h hr
      have hc : w.chunks (e :: es) = (e.pieces w).map Piece.render := by
        rw [chunks, pieces, Event.emitAll, Emit.run_bind_of_error _ hr]
        rfl
      rw [walk_cons_of_failed es (congrArg Progress.failure hp), hc, hp]
    | ok a =>
      have hp := perform_of_ok h hr
      have hc : w.chunks (e :: es) =
          (e.pieces w).map Piece.render ++ (e.emit.run w).state.chunks es := by
        rw [chunks, pieces, Event.emitAll, Emit.run_bind_of_ok _ hr, List.map_append,
          List.map_append]
        rfl
      rw [walk_cons_of_done es (congrArg Progress.failure hp), hc, h.after_append, hp]
      exact ih (h.takesAll_after _)

/-- Without checks nothing fails. -/
theorem failure_performAll_lenient (h : Outlet.TakesAll out) :
    ∀ p ∈ w.lenient.performAll out es, p.failure = none := by
  induction es generalizing w out with
  | nil => simp [performAll]
  | cons e es ih =>
    obtain ⟨a, t, ha, ht⟩ := (Event.relaxes_emit e).ends w
    have hp := perform_of_ok h ha
    rw [ht] at hp
    rw [performAll, hp]
    rintro p (_ | ⟨_, hm⟩)
    · rfl
    · exact ih (h.takesAll_after _) p hm

/-- Events that do not fail with checks do the same without them, each of them. -/
theorem performAll_lenient (hf : (w.walk out es).failure = none) :
    w.lenient.performAll out es = (w.performAll out es).map (Progress.mapWriter lenient) := by
  induction es generalizing w out with
  | nil => rfl
  | cons e es ih =>
    cases hp : (w.perform out e).failure with
    | some failure =>
      rw [walk_cons_of_failed es hp, hp] at hf
      cases hf
    | none =>
      obtain ⟨a, ha⟩ := ends_of_perform hp
      have he := perform_of_follows ((Event.relaxes_emit e).follows w a ha.2.1) out
      rw [walk_cons_of_done es hp] at hf
      rw [performAll, performAll, List.map_cons, he]
      exact congrArg _ (ih hf)

/-- With an outlet that takes everything, a run that does not enforce its checks never fails, and
the chunks that a run with enforced checks hands on, up to its first flaw, are those that the other
begins with. If the checks find no flaw, the two runs agree after every event: in what the outlet
has been given, in the depth, in the counter and in the warnings. -/
theorem walk_enforced (o : Options) (out : ω) (h : Outlet.TakesAll out) (es : List Event) :
    let on := new { o with enforce := true }
    let off := new { o with enforce := false }
    (∀ p ∈ off.performAll out es, p.failure = none) ∧
    ((on.walk out es).out = Outlet.after out (on.chunks es) ∧
      (off.walk out es).out = Outlet.after out (off.chunks es) ∧
      on.chunks es <+: off.chunks es) ∧
    ((on.walk out es).failure = none → on.chunks es = off.chunks es ∧
      List.Forall₂ (fun p q => p.out = q.out ∧ p.writer.depth = q.writer.depth ∧
          p.writer.next = q.writer.next ∧ p.warnings = q.warnings)
        (on.performAll out es) (off.performAll out es)) := by
  intro on off
  have hoff : off = on.lenient := rfl
  refine ⟨failure_performAll_lenient (w := on) h, ⟨out_walk h, out_walk h, ?_⟩, fun hf => ⟨?_, ?_⟩⟩
  · exact ((Event.relaxes_emitAll es).begins on).map _
  · have hr := (Event.relaxes_emitAll es).follows on () (ends_of_walk hf).2.1
    rw [hoff, chunks, chunks, pieces, pieces, hr, Emitted.pieces_mapState]
  · rw [hoff, performAll_lenient hf, List.forall₂_map_right_iff, List.forall₂_same]
    exact fun p _ => ⟨rfl, rfl, rfl, rfl⟩

/-- A close without an open element, which is warned of, and an attribute that a prefix is made up
for. -/
theorem walk_enforced_made_up :
    let name : Name := ⟨Text.ofString "e", .absent, .absent⟩
    let k : Name := ⟨Text.ofString "k", .absent, .given (Text.ofString "urn:k")⟩
    let es := [Event.close name, .start name [⟨k, Text.ofString "v"⟩] true]
    let on := new { enforce := true }
    let off := new { enforce := false }
    (on.walk TextBuffer.empty es).failure = none ∧
      List.Forall₂ (fun p q => p.out = q.out ∧ p.writer.depth = q.writer.depth ∧
          p.writer.next = q.writer.next ∧ p.warnings = q.warnings)
        (on.performAll TextBuffer.empty es) (off.performAll TextBuffer.empty es) := by
  intro name k es on off
  have hf : (on.walk TextBuffer.empty es).failure = none := by decide +kernel
  exact ⟨hf, ((walk_enforced {} TextBuffer.empty (TextBuffer.takesAll _) es).2.2 hf).2⟩

end Writer

end XmlWriter
