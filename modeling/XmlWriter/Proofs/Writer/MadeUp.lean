import XmlWriter.Proofs.Number.Generated
import XmlWriter.Proofs.Tag.Accepted

/-!
# The prefixes that a run makes up

A prefix is made up in two places: for an element whose wished prefix its attributes bind to
something else, and for an attribute in a namespace without prefix. Both take it from one counter,
which is never set back, not even where the scope is closed that the prefix was recorded in. Here
the prefixes are listed with what they are made up for (`MadeUp`), tag by tag and over a whole run,
by running each step and seeing whether it takes one (`Emit.TakesPrefix`). The steps count them
(`Counted`), and what a tag declares of its own accord is their declarations, one each in their
order, with nothing else before them than what the caller's wish for the element calls for
(`OpenElement.Started.counted`). Main statement: as long as the counter counts exactly, the prefixes
of a run have consecutive numbers, and each is declared once for its namespace
(`Session.madeUp_of_run`).
-/

namespace XmlWriter

/-! ## What is listed -/

/-- A prefix that the writer has made up. -/
structure MadeUp where
  pre : Text
  /-- The namespace that it has been made up for. -/
  space : Option Text
  /-- The prefixes that were recorded then. -/
  recorded : PrefixMap
  deriving DecidableEq

namespace MadeUp

/-- The declaration of the prefix for its namespace. -/
def declaration (g : MadeUp) : NsDecl := ⟨some g.pre, g.space.getD []⟩

/-- Different prefixes are still different in their declarations. -/
theorem nodup_pre_declaration {gs : List MadeUp} (h : (gs.map (·.pre)).Nodup) :
    ((gs.map declaration).map NsDecl.pre).Nodup := by
  have hpres : (gs.map declaration).map NsDecl.pre = (gs.map (·.pre)).map some := by
    rw [List.map_map, List.map_map]
    rfl
  exact hpres ▸ h.map (Option.some_injective _)

/-- Whether a prefix had to be made up where those in a map are recorded, and perhaps more. -/
structure IsNeeded (m : PrefixMap) (g : MadeUp) : Prop where
  recorded : m.bindings ⊆ g.recorded.bindings
  candidates : g.recorded.candidates g.space = []
  space : g.space ≠ some []

end MadeUp

/-- The declarations that the writer adds with a piece. -/
def Piece.added : Piece → List NsDecl
  | .head _ own => own.toList
  | .generated d => [d]
  | _ => []

/-- Whether an action takes a made-up prefix. No action looks at the number that the counter stands
at, so this shows in a run from zero, where the counter moves if it is taken. -/
def Emit.TakesPrefix {α : Type} (x : Emit Counter α) : Prop :=
  (x.run (.ofInt 0)).state ≠ .ofInt 0

instance {α : Type} (x : Emit Counter α) : Decidable x.TakesPrefix :=
  inferInstanceAs (Decidable (_ ≠ _))

/-- The prefix that is made up for an element, if one is, when the counter stands at `n`. -/
def Resolution.madeUp? (enforce : Bool) (d : Declarations) (inherited : Option Text) (name : Name)
    (n : Counter) : Option MadeUp :=
  if (Resolution.of enforce d inherited name).TakesPrefix then
    some ⟨Counter.generated n, name.space, d.prefixes⟩
  else none

namespace Attribute

/-- An attribute whose turn it is, with the prefix map and the counter that it finds. -/
structure Turn where
  context : TagContext
  item : Attribute
  prefixes : PrefixMap
  next : Counter

/-- The prefix that is made up for the attribute, if one is. -/
def Turn.madeUp? (t : Turn) : Option MadeUp :=
  if (t.item.write t.context t.prefixes).TakesPrefix then
    some ⟨Counter.generated t.next, t.item.name.space, t.prefixes⟩
  else none

/-- Whether the attribute is in a namespace, other than that of declarations, for which no prefix is
recorded. -/
def Turn.LacksPrefix (t : Turn) : Prop :=
  t.item.isDeclaration = false ∧
    ∃ s, t.item.name.space = some s ∧ t.prefixes.candidates (some s) = []

/-- The attributes of a tag, each with what those before it have left. -/
def turns (c : TagContext) (m : PrefixMap) (n : Counter) : List Attribute → List Turn
  | [] => []
  | a :: rest =>
    let r := (a.write c m).run n
    ⟨c, a, m, n⟩ ::
      match r.result with
      | .ok m' => turns c m' r.state rest
      | .error _ => []

end Attribute

namespace OpenElement

/-- The attributes of a start tag, each with what the element and those before it have left. -/
def turns (enforce : Bool) (scope : Scope) (name : Name) (attributes : List Attribute)
    (n : Counter) : List Attribute.Turn :=
  let d := Declarations.collect scope.prefixes attributes
  let r := (Resolution.of enforce d scope.inherited name).run n
  match r.result with
  | .ok r' => Attribute.turns ⟨enforce, d, r'.dropsDefault⟩ r'.prefixes r.state attributes
  | .error _ => []

/-- The prefixes that are made up in a start tag: for the element and then for its attributes. -/
def madeUp (enforce : Bool) (scope : Scope) (name : Name) (attributes : List Attribute)
    (n : Counter) : List MadeUp :=
  (Resolution.madeUp? enforce (.collect scope.prefixes attributes) scope.inherited name n).toList ++
    (turns enforce scope name attributes n).filterMap Attribute.Turn.madeUp?

end OpenElement

namespace Event

/-- The attributes of an event, each with what is there when its turn comes. -/
def turns (w : Writer) : Event → List Attribute.Turn
  | .start name attributes _ => OpenElement.turns w.enforce w.scope name attributes w.next
  | _ => []

/-- The prefixes that are made up in an event. -/
def madeUp (w : Writer) : Event → List MadeUp
  | .start name attributes _ => OpenElement.madeUp w.enforce w.scope name attributes w.next
  | _ => []

/-- The declarations that the writer adds in an event. -/
def added (w : Writer) (e : Event) : List NsDecl := (e.pieces w).flatMap Piece.added

/-- The declaration that the caller's wish for an element calls for: of the prefix wished for, or
without a wish the default one. -/
def wished? : Event → Option NsDecl
  | .start name _ _ => some ⟨name.wish, name.space.getD []⟩
  | _ => none

end Event

/-! ## Counting -/

/-- The prefixes are those that the counter stands for while it goes from one number to another. -/
inductive Counted : Counter → List MadeUp → Counter → Prop
  | nil {n : Counter} : Counted n [] n
  | cons {n n' : Counter} {g : MadeUp} {gs : List MadeUp} (hp : g.pre = Counter.generated n)
      (h : Counted n.next gs n') : Counted n (g :: gs) n'

namespace Counted

variable {n n' n'' : Counter} {gs gs' : List MadeUp}

/-- Prefixes are counted on from where the first of them left the counter. -/
theorem append (h : Counted n gs n') (h' : Counted n' gs' n'') : Counted n (gs ++ gs') n'' := by
  induction h with
  | nil => exact h'
  | cons hp _ ih => exact .cons hp (ih h')

/-- Within the limits of exact counting the prefixes have consecutive numbers. -/
theorem pre_eq_numbered {k : Int} (h : Counted n gs n') (hn : n = .ofInt k)
    (hlow : -(Binary64.exactLimit : Int) ≤ k) (hhigh : k + gs.length ≤ Binary64.exactLimit) :
    gs.map (·.pre) = (List.range gs.length).map (fun i : Nat => numbered (k + i)) ∧
      n' = .ofInt (k + gs.length) := by
  induction h generalizing k with
  | nil => exact ⟨rfl, by simpa using hn⟩
  | @cons n n' g gs hp _ ih =>
    rw [List.length_cons, Int.natCast_succ] at hhigh
    have hnext : n.next = .ofInt (k + 1) := by rw [hn, Binary64.next_ofInt (by omega) (by omega)]
    have hg : g.pre = numbered (k + (0 : Nat)) := by
      rw [hp, hn, Counter.generated_ofInt (by omega), Int.natCast_zero, Int.add_zero]
    obtain ⟨hps, hn'⟩ := ih hnext (by omega) (by omega)
    have hsucc : ∀ i : Nat, k + 1 + (i : Int) = k + (i + 1 : Nat) := fun i => by omega
    constructor
    · rw [List.map_cons, hg, hps, List.length_cons, List.range_succ_eq_map, List.map_cons,
        List.map_map]
      simp only [hsucc, Function.comp_def, Nat.succ_eq_add_one]
    · rw [hn', List.length_cons, hsucc]

/-- Consecutive numbers make no prefix twice. -/
theorem nodup_numbered (k : Int) (count : Nat) :
    ((List.range count).map fun i : Nat => numbered (k + i)).Nodup := by
  refine List.nodup_range.map fun i j h => ?_
  have := numbered_inj h
  omega

end Counted

/-! ## What a start tag makes up -/

namespace Emit

variable {α : Type} {x : Emit Counter α} {ps : List Piece} {a : α}

/-- An action that ends one further than zero takes a prefix. -/
theorem takesPrefix_of_ends (h : x.Ends (.ofInt 0) ps a (Binary64.next (.ofInt 0))) :
    x.TakesPrefix := by
  rw [TakesPrefix, h.2.2]
  decide

/-- An action that ends at zero again takes none. -/
theorem not_takesPrefix_of_ends (h : x.Ends (.ofInt 0) ps a (.ofInt 0)) : ¬ x.TakesPrefix :=
  fun ht => ht h.2.2

end Emit

namespace Attribute

section
variable {c : TagContext} {m m' : PrefixMap} {n n' : Counter} {a : Attribute} {as : List Attribute}
  {ps : List Piece} {seen : List (Option Text × Text)}

/-- A prefix is made up for an attribute exactly if it is in a namespace without one, that of
declarations apart, and what has been made up is all that the writer declares. -/
theorem Written.counted (h : a.Written c m n ps m' n') :
    let t : Turn := ⟨c, a, m, n⟩
    Counted n t.madeUp?.toList n' ∧
      ps.flatMap Piece.added = t.madeUp?.toList.map MadeUp.declaration ∧
      (∀ g ∈ t.madeUp?, g.IsNeeded m) ∧ (t.madeUp?.isSome ↔ t.LacksPrefix) := by
  intro t
  -- the same happens from zero, where the counter shows whether a prefix is taken
  have none_of_zero (h0 : a.Written c m (.ofInt 0) ps m' (.ofInt 0)) : t.madeUp? = none :=
    if_neg (Emit.not_takesPrefix_of_ends (ends_of_written h0))
  cases h with
  | leftOut hd hl =>
    rw [none_of_zero (.leftOut hd hl)]
    exact ⟨.nil, rfl, nofun, nofun, fun h => absurd h.1 (by simp [t, hd])⟩
  | declaration hd hl hf hc =>
    rw [none_of_zero (.declaration hd hl hf hc)]
    exact ⟨.nil, rfl, nofun, nofun, fun h => absurd h.1 (by simp [t, hd])⟩
  | plain hs hc =>
    rw [none_of_zero (.plain hs hc)]
    refine ⟨.nil, rfl, nofun, nofun, ?_⟩
    rintro ⟨-, s, hs', -⟩
    cases hs.symm.trans hs'
  | recorded hd hs hp hc =>
    rw [none_of_zero (.recorded hd hs hp hc)]
    refine ⟨.nil, rfl, nofun, nofun, ?_⟩
    rintro ⟨-, s, hs', hm⟩
    cases hs.symm.trans hs'
    have hmem := PrefixMap.mem_candidates_of_preferred? hp
    rw [hm] at hmem
    cases hmem
  | @generated s hd hs hp hv hc =>
    have ht : (a.write c m).TakesPrefix :=
      Emit.takesPrefix_of_ends (ends_of_written (.generated hd hs hp hv hc))
    have hg : t.madeUp? = some ⟨Counter.generated n, some s, m⟩ := (if_pos ht).trans (by rw [hs])
    have hm := PrefixMap.preferred?_eq_none_iff.1 hp
    rw [hg]
    refine ⟨.cons rfl .nil, rfl, fun g hmem => ?_, fun _ => ⟨hd, s, hs, hm⟩, fun _ => rfl⟩
    cases hmem
    exact ⟨fun _ hb => hb, hm, hs ▸ a.name.space_ne_some_nil⟩

/-- What has been made up for attributes one after the other is all that the writer declares for
them. -/
theorem WrittenAll.counted (h : WrittenAll c seen m n as ps m' n') :
    let ts := turns c m n as
    let gs := ts.filterMap Turn.madeUp?
    Counted n gs n' ∧ ps.flatMap Piece.added = gs.map MadeUp.declaration ∧
      (∀ g ∈ gs, g.IsNeeded m) ∧ ∀ t ∈ ts, (t.madeUp?.isSome ↔ t.LacksPrefix) := by
  induction h with
  | nil => exact ⟨.nil, rfl, nofun, fun _ ht => absurd ht List.not_mem_nil⟩
  | @cons _ m m₁ _ n n₁ _ a as _ _ _ ha _ ih =>
    obtain ⟨hc, hps, hg, hl⟩ := ha.counted
    obtain ⟨hc', hps', hg', hl'⟩ := ih
    have hturns : turns c m n (a :: as) = ⟨c, a, m, n⟩ :: turns c m₁ n₁ as := by
      obtain ⟨-, hr, hs⟩ := ends_of_written ha
      simp only [turns, hr, hs]
    have hsplit : (turns c m n (a :: as)).filterMap Turn.madeUp? =
        (Turn.madeUp? ⟨c, a, m, n⟩).toList ++ (turns c m₁ n₁ as).filterMap Turn.madeUp? := by
      rw [hturns, List.filterMap_cons]
      cases Turn.madeUp? ⟨c, a, m, n⟩ <;> rfl
    intro ts gs
    rw [show gs = _ from hsplit, show ts = _ from hturns]
    refine ⟨hc.append hc', ?_, fun g hm => ?_, List.forall_mem_cons.2 ⟨hl, hl'⟩⟩
    · rw [List.flatMap_append, List.map_append, hps, hps']
    · rcases List.mem_append.1 hm with hm | hm
      · exact hg g (Option.mem_toList.1 hm)
      · have hn := hg' g hm
        exact ⟨fun _ hb => hn.recorded (ha.bindings_subset hb), hn.candidates, hn.space⟩

end

end Attribute

/-- What the writer declares for an element is the prefix made up for it, or else what the caller's
wish calls for; a prefix wished for is then recorded for its namespace. -/
theorem Resolution.Way.counted {enforce : Bool} {d : Declarations} {inherited : Option Text}
    {name : Name} {n t : Counter} {r : Resolution} (h : Way enforce d inherited name n r t) :
    let g? := madeUp? enforce d inherited name n
    Counted n g?.toList t ∧ (∀ g ∈ g?, g.IsNeeded d.prefixes) ∧
      (r.own.toList = g?.toList.map MadeUp.declaration ∨
        g? = none ∧ r.own = some ⟨name.wish, name.space.getD []⟩ ∧
          ∀ p, name.wish = some p → ⟨name.space, p⟩ ∈ r.prefixes.bindings) := by
  intro g?
  have none_of_zero (h0 : Way enforce d inherited name (.ofInt 0) r (.ofInt 0)) : g? = none :=
    if_neg (Emit.not_takesPrefix_of_ends (ends_of_way h0))
  cases h with
  | inPlace h =>
    rw [none_of_zero (.inPlace h)]
    exact ⟨.nil, nofun, .inl rfl⟩
  | recorded h hx hc =>
    rw [none_of_zero (.recorded h hx hc)]
    exact ⟨.nil, nofun, .inl rfl⟩
  | declared h hx hc hw hb hv =>
    rw [none_of_zero (.declared h hx hc hw hb hv)]
    refine ⟨.nil, nofun, .inr ⟨rfl, by rw [hw]; rfl, fun p hp => ?_⟩⟩
    cases hw.symm.trans hp
    exact PrefixMap.mem_bindings_add _ _ _
  | generated h hx hc hw hb hv =>
    have ht : (of enforce d inherited name).TakesPrefix :=
      Emit.takesPrefix_of_ends (ends_of_way (.generated h hx hc hw hb hv))
    have hg : g? = some ⟨Counter.generated n, name.space, d.prefixes⟩ := if_pos ht
    rw [hg]
    refine ⟨.cons rfl .nil, fun g hm => ?_, .inl rfl⟩
    cases hm
    refine ⟨fun _ hb => hb, List.eq_nil_iff_forall_not_mem.2 fun p hp => ?_,
      name.space_ne_some_nil⟩
    exact not_mem_bindings_of_candidate? hc p (PrefixMap.mem_candidates_iff.1 hp)
  | ownDefault h hc hw hd =>
    rw [none_of_zero (.ownDefault h hc hw hd)]
    exact ⟨.nil, nofun, .inl rfl⟩
  | default h hc hw hd hv =>
    rw [none_of_zero (.default h hc hw hd hv)]
    refine ⟨.nil, nofun, .inr ⟨rfl, by rw [hw]; rfl, fun p hp => ?_⟩⟩
    cases hw.symm.trans hp

namespace OpenElement

section
variable {enforce : Bool} {scope : Scope} {name : Name} {attributes : List Attribute}
  {childless : Bool} {n n' : Counter} {ps : List Piece} {e : OpenElement}

/-- What the writer declares in a start tag are the prefixes that it makes up, in their order, and
before them perhaps what the caller's wish for the element calls for. -/
theorem Started.counted (h : Started enforce scope name attributes childless n ps e n') :
    let gs := madeUp enforce scope name attributes n
    let wished : NsDecl := ⟨name.wish, name.space.getD []⟩
    Counted n gs n' ∧ (∀ g ∈ gs, g.recorded.candidates g.space = []) ∧
      (∀ t ∈ turns enforce scope name attributes n, (t.madeUp?.isSome ↔ t.LacksPrefix)) ∧
      (ps.flatMap Piece.added = gs.map MadeUp.declaration ∨
        ps.flatMap Piece.added = wished :: gs.map MadeUp.declaration ∧
          wished ∉ gs.map MadeUp.declaration) := by
  cases h with
  | @mk r m n₁ n₂ body hl hr ha =>
    obtain ⟨hc, hg, hown⟩ := hr.counted
    obtain ⟨hc', hps, hg', ht⟩ := ha.counted
    have hturns : turns enforce scope name attributes n =
        Attribute.turns ⟨enforce, Declarations.collect scope.prefixes attributes, r.dropsDefault⟩
          r.prefixes n₁ attributes := by
      obtain ⟨-, hres, hs⟩ := Resolution.ends_of_way hr
      simp only [turns, hres, hs]
    have hslash : (slash name childless).flatMap Piece.added = [] := by cases childless <;> rfl
    have hadded : (Piece.head r.name r.own :: (body ++ slash name childless)).flatMap Piece.added =
        r.own.toList ++ body.flatMap Piece.added := by
      rw [List.flatMap_cons, List.flatMap_append, hslash, List.append_nil]
      rfl
    simp only [madeUp, hturns, hadded, hps]
    refine ⟨hc.append hc', fun g hm => ?_, ht, ?_⟩
    · exact (List.mem_append.1 hm).elim (fun hm => (hg g (Option.mem_toList.1 hm)).candidates)
        fun hm => (hg' g hm).candidates
    · rcases hown with hown | ⟨hnone, hown, hrec⟩
      · exact .inl (by rw [hown, List.map_append])
      rw [hnone, hown]
      refine .inr ⟨rfl, fun hm => ?_⟩
      obtain ⟨g, hm, he⟩ := List.mem_map.1 hm
      -- the namespace would have the prefix recorded that is wished for
      have hneed := hg' g hm
      have hspace : g.space = name.space := by
        rw [← InForce.namespaceOf_getD hneed.space,
          ← InForce.namespaceOf_getD name.space_ne_some_nil]
        exact congrArg (fun o => namespaceOf o.value) he
      have hb := hneed.recorded (hrec g.pre (congrArg NsDecl.pre he).symm)
      rw [← hspace, ← PrefixMap.mem_candidates_iff, hneed.candidates] at hb
      cases hb

end

end OpenElement

/-! ## What a run makes up -/

namespace Event

section
variable {w w' : Writer} {e : Event} {ps : List Piece} {warning? : Option Warning} {g : MadeUp}

/-- A start that ends well has written a start tag; its end declares nothing. -/
theorem started_of_ends {name : Name} {attributes : List Attribute} {childless : Bool}
    (h : (emit (.start name attributes childless)).Ends w ps warning? w') :
    ∃ tag el,
      OpenElement.Started w.enforce w.scope name attributes childless w.next tag el w'.next ∧
        ps.flatMap Piece.added = tag.flatMap Piece.added := by
  obtain ⟨-, tag, el, n, ht, rfl, rfl⟩ := ends_emit_start.1 h
  refine ⟨tag, el, OpenElement.started_of_ends ht, ?_⟩
  rw [List.flatMap_append]
  exact List.append_nil _

/-- Nothing but a start adds a declaration. -/
theorem added_of_ends (h : e.emit.Ends w ps warning? w') (hs : e.isStart = false) :
    ps.flatMap Piece.added = [] := by
  cases e with
  | start => cases hs
  | close name =>
    cases hw : w.stack with
    | nil =>
      rw [← h.1, run_close_of_nil hw]
      rfl
    | cons el rest =>
      rw [← h.1, run_close_of_cons hw]
      cases el.selfClosed <;> rfl
  | text | cdata | comment | instruction | doctype | declaration =>
    obtain ⟨-, -, rfl, -⟩ := ends_emitContent.1 h
    rfl

/-- An event that does not start an element leaves the counter where it is. -/
theorem next_eq_of_ends (h : e.emit.Ends w ps warning? w') (hs : e.isStart = false) :
    w'.next = w.next := by
  cases e with
  | start => cases hs
  | close name =>
    rcases eq_or_eq_pop_of_reaches_emitClose h.reaches with rfl | ⟨-, rfl⟩ <;> rfl
  | text | cdata | comment | instruction | doctype | declaration =>
    obtain rfl := eq_of_reaches_emitContent h.reaches
    rfl

/-- An event counts the prefixes that it makes up, each of them for a namespace without one; an
attribute has one made up exactly if it lacks it; and what the writer declares are the prefixes made
up, and before them perhaps what the caller's wish for the element calls for. -/
theorem counted_of_ends (h : e.emit.Ends w ps warning? w') :
    let ds := (e.madeUp w).map MadeUp.declaration
    Counted w.next (e.madeUp w) w'.next ∧
      (∀ g ∈ e.madeUp w, g.recorded.candidates g.space = []) ∧
      (∀ t ∈ e.turns w, (t.madeUp?.isSome ↔ t.LacksPrefix)) ∧
      (ps.flatMap Piece.added = ds ∨
        ∃ o ∈ e.wished?, ps.flatMap Piece.added = o :: ds ∧ o ∉ ds) := by
  cases e with
  | start name attributes childless =>
    obtain ⟨tag, el, ht, hps⟩ := started_of_ends h
    rw [hps]
    obtain ⟨hc, hg, hl, hadded⟩ := ht.counted
    exact ⟨hc, hg, hl, hadded.imp_right fun ho => ⟨_, rfl, ho⟩⟩
  | close | text | cdata | comment | instruction | doctype | declaration =>
    refine ⟨?_, nofun, fun _ ht => absurd ht List.not_mem_nil, .inl (added_of_ends h rfl)⟩
    rw [next_eq_of_ends h rfl]
    exact .nil

/-- If the prefixes that an event makes up are different, each is declared once for its namespace,
and not at all for another one unless the caller wishes the same prefix for the element. -/
theorem declared_of_ends (h : e.emit.Ends w ps warning? w')
    (hnd : ((e.madeUp w).map (·.pre)).Nodup) (hg : g ∈ e.madeUp w) :
    (ps.flatMap Piece.added).count g.declaration = 1 ∧
      ((∀ o ∈ e.wished?, o.pre ≠ some g.pre) →
        ((ps.flatMap Piece.added).map NsDecl.pre).count (some g.pre) = 1) := by
  have hnd' := MadeUp.nodup_pre_declaration hnd
  have hm := List.mem_map_of_mem (f := MadeUp.declaration) hg
  have hdecl := List.count_eq_one_of_mem (.of_map _ hnd') hm
  have hpre := List.count_eq_one_of_mem hnd' (List.mem_map_of_mem (f := NsDecl.pre) hm)
  obtain ⟨-, -, -, hadded | ⟨o, ho, hadded, hnot⟩⟩ := counted_of_ends h
  · rw [hadded]
    exact ⟨hdecl, fun _ => hpre⟩
  · rw [hadded]
    constructor
    · have hne : o ≠ g.declaration := fun he => hnot (he.symm ▸ hm)
      rw [List.count_cons_of_ne hne]
      exact hdecl
    · intro hwish
      rw [List.map_cons, List.count_cons_of_ne (hwish o ho)]
      exact hpre

end

end Event

namespace Session

variable {ω : Type} [Outlet ω]

/-- The prefixes that a run makes up, in their order. -/
def madeUp (s : Session ω) (es : List Event) : List MadeUp :=
  (s.steps es).flatMap fun x => x.2.madeUp x.1.writer

/-- Whether no event of a run fails. -/
def Succeeds (s : Session ω) (es : List Event) : Prop :=
  ∀ x ∈ s.steps es, (x.1.writer.perform x.1.out x.2).failure = none

instance (s : Session ω) (es : List Event) : Decidable (s.Succeeds es) :=
  inferInstanceAs (Decidable (∀ x ∈ s.steps es, _))

/-- A run counts the prefixes that it makes up. -/
theorem counted_run {s : Session ω} {es : List Event} (h : s.Succeeds es) :
    Counted s.writer.next (s.madeUp es) (s.run es).writer.next := by
  induction es generalizing s with
  | nil => exact .nil
  | cons e es ih =>
    obtain ⟨hd, hrest⟩ := List.forall_mem_cons.1 h
    obtain ⟨_, he⟩ := Writer.ends_of_perform hd
    exact (Event.counted_of_ends he).1.append (ih hrest)

/-- In a run in which no event fails, and as long as the counter counts exactly, the prefixes that
are made up have consecutive numbers from the first one on, and no two of them are the same. What
the writer declares in an event are the prefixes made up in it, in their order, and before them
perhaps the declaration that the caller's wish for the element calls for; so each is declared once
for its namespace, and not for another one unless the caller wishes the same prefix for the element.
A prefix is made up only for a namespace that has none recorded, and for each attribute that lacks
one. After the run the counter stands at the next number. -/
theorem madeUp_of_run (o : Options) (out : ω) (es : List Event) {k : Int}
    (hk : o.firstNumber = .ofInt k) (hdone : (start o out).Succeeds es)
    (hlow : -(Binary64.exactLimit : Int) ≤ k)
    (hhigh : k + ((start o out).madeUp es).length ≤ Binary64.exactLimit) :
    let gs := (start o out).madeUp es
    gs.map (·.pre) = (List.range gs.length).map (fun i : Nat => numbered (k + i)) ∧
      (gs.map (·.pre)).Nodup ∧
      (∀ x ∈ (start o out).steps es,
        let added := x.2.added x.1.writer
        let declared := (x.2.madeUp x.1.writer).map MadeUp.declaration
        (added = declared ∨ ∃ wish ∈ x.2.wished?, added = wish :: declared) ∧
          ∀ g ∈ x.2.madeUp x.1.writer, added.count g.declaration = 1 ∧
            ((∀ wish ∈ x.2.wished?, wish.pre ≠ some g.pre) →
              (added.map NsDecl.pre).count (some g.pre) = 1)) ∧
      (∀ g ∈ gs, g.recorded.candidates g.space = []) ∧
      (∀ x ∈ (start o out).steps es, ∀ t ∈ x.2.turns x.1.writer,
        (t.madeUp?.isSome ↔ t.LacksPrefix)) ∧
      ((start o out).run es).writer.next = .ofInt (k + gs.length) := by
  intro gs
  obtain ⟨hps, hn⟩ := (counted_run hdone).pre_eq_numbered hk hlow hhigh
  have hnd : (gs.map (·.pre)).Nodup := hps ▸ Counted.nodup_numbered k _
  have ends : ∀ x ∈ (start o out).steps es, ∃ warning?,
      x.2.emit.Ends x.1.writer (x.2.pieces x.1.writer) warning? (x.1.perform x.2).writer :=
    fun x hx => Writer.ends_of_perform (hdone x hx)
  refine ⟨hps, hnd, fun x hx => ⟨?_, fun g hg => ?_⟩, fun g hg => ?_, fun x hx => ?_, hn⟩
  · obtain ⟨_, he⟩ := ends x hx
    obtain ⟨-, -, -, hadded⟩ := Event.counted_of_ends he
    exact hadded.imp_right fun ⟨wish, hw, hadded, _⟩ => ⟨wish, hw, hadded⟩
  · obtain ⟨_, he⟩ := ends x hx
    refine Event.declared_of_ends he (hnd.sublist (List.Sublist.map _ ?_)) hg
    exact List.sublist_flatten_of_mem (List.mem_map_of_mem hx)
  · obtain ⟨x, hx, hg⟩ := List.mem_flatMap.1 hg
    obtain ⟨_, he⟩ := ends x hx
    exact (Event.counted_of_ends he).2.1 g hg
  · obtain ⟨_, he⟩ := ends x hx
    exact (Event.counted_of_ends he).2.2.1

/-- A count from below zero: an element whose own attributes bind the prefix wished for, and two
elements inside it that each need a prefix for the same namespace. -/
theorem madeUp_of_run_negative :
    let name := fun (l v : String) =>
      (⟨Text.ofString l, .absent, .given (Text.ofString v)⟩ : Name)
    let a : Name := ⟨Text.ofString "a", .given (Text.ofString "p"), .given (Text.ofString "urn:a")⟩
    let declared : Name := ⟨Text.ofString "p", .given xmlnsPrefix, .given xmlnsNamespace⟩
    let b := name "b" "urn:x"
    let c := name "c" ""
    let es := [Event.start a [⟨declared, Text.ofString "urn:p"⟩, ⟨name "x" "urn:x", []⟩] false,
      .start b [⟨name "y" "urn:y", []⟩] true, .close b, .start c [⟨name "y" "urn:y", []⟩] true,
      .close c, .close a]
    let o : Options := { firstNumber := .ofInt (-1) }
    let gs := (start o TextBuffer.empty).madeUp es
    (start o TextBuffer.empty).Succeeds es ∧ gs.length = 4 ∧
    ((start o TextBuffer.empty).run es).out.text =
      Text.ofString
        "<ns-1:a xmlns:ns-1=\"urn:a\" xmlns:p=\"urn:p\" xmlns:ns0=\"urn:x\" ns0:x=\"\">" ++
      Text.ofString
        "<ns0:b xmlns:ns1=\"urn:y\" ns1:y=\"\"/><c xmlns:ns2=\"urn:y\" ns2:y=\"\"/></ns-1:a>" ∧
    gs.map (·.pre) = (List.range gs.length).map (fun i : Nat => numbered (-1 + i)) ∧
      (gs.map (·.pre)).Nodup ∧
      (∀ x ∈ (start o TextBuffer.empty).steps es,
        let added := x.2.added x.1.writer
        let declared := (x.2.madeUp x.1.writer).map MadeUp.declaration
        (added = declared ∨ ∃ wish ∈ x.2.wished?, added = wish :: declared) ∧
          ∀ g ∈ x.2.madeUp x.1.writer, added.count g.declaration = 1 ∧
            ((∀ wish ∈ x.2.wished?, wish.pre ≠ some g.pre) →
              (added.map NsDecl.pre).count (some g.pre) = 1)) ∧
      (∀ g ∈ gs, g.recorded.candidates g.space = []) ∧
      (∀ x ∈ (start o TextBuffer.empty).steps es, ∀ t ∈ x.2.turns x.1.writer,
        (t.madeUp?.isSome ↔ t.LacksPrefix)) ∧
      ((start o TextBuffer.empty).run es).writer.next = .ofInt (-1 + gs.length) := by
  intro name a declared b c es o gs
  have hdone : (start o TextBuffer.empty).Succeeds es := by decide +kernel
  have hlen : gs.length = 4 := by decide +kernel
  refine ⟨hdone, hlen, by decide +kernel,
    madeUp_of_run o TextBuffer.empty es rfl hdone (by decide) ?_⟩
  rw [hlen]
  decide

end Session

end XmlWriter
