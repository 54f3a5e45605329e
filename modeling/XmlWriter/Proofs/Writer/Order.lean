import Mathlib.Data.List.Nodup
import XmlWriter.Proofs.Tag.Accepted
import XmlWriter.Proofs.Writer.Matching

/-!
# The order of attributes

The order of the attributes of a tag decides which prefix is recorded last, where prefixes are made
up and which duplicate is met first. It does not decide whether the tag is accepted. What is
collected from the declarations is the same up to the order of the bindings
(`Declarations.agree_of_perm`), and an element is then written in the same way, if not always with
the same prefix (`Resolution.Way.of_agree`); what is asked of each attribute is the same, and so are
the namespaces that a prefix is made up for (`OpenElement.Started.of_perm`). Main statement:
`Session.start_perm`.
-/

namespace XmlWriter

namespace PrefixMap

/-- Whether two maps have the same bindings, in whatever order. -/
def Same (m m' : PrefixMap) : Prop := ∀ b, b ∈ m.bindings ↔ b ∈ m'.bindings

section
variable {m m' : PrefixMap} (h : m.Same m')
include h

/-- Maps with the same bindings hold the same prefixes for a namespace. -/
theorem Same.holds_eq (space : Option Text) (pre : Text) :
    m.holds space pre = m'.holds space pre := by
  rw [Bool.eq_iff_iff, holds_iff, holds_iff, mem_candidates_iff, mem_candidates_iff]
  exact h _

/-- Maps with the same bindings lack a prefix for the same namespaces. -/
theorem Same.candidates_eq_nil_iff (space : Option Text) :
    m.candidates space = [] ↔ m'.candidates space = [] := by
  simp only [List.eq_nil_iff_forall_not_mem, mem_candidates_iff]
  exact forall_congr' fun _ => not_congr (h _)

/-- Maps with the same bindings have no prefix to prefer for the same names. -/
theorem Same.preferred?_eq_none_iff (space wish : Option Text) :
    m.preferred? space wish = none ↔ m'.preferred? space wish = none := by
  rw [PrefixMap.preferred?_eq_none_iff, PrefixMap.preferred?_eq_none_iff]
  exact h.candidates_eq_nil_iff space

/-- Bindings made in both maps are in both of them, whatever their prefixes. -/
theorem Same.add (space : Option Text) (pre : Text) : (m.add space pre).Same (m'.add space pre) :=
  fun b => by simp [PrefixMap.add, h b]

end

end PrefixMap

/-! ## Declarations -/

namespace Declarations

/-- What two collections of declarations have in common that differ only in the order in which they
have been collected. -/
structure Agree (d d' : Declarations) : Prop where
  default? : d.default? = d'.default?
  valueOf? : ∀ pre, d.valueOf? pre = d'.valueOf? pre
  prefixes : d.prefixes.Same d'.prefixes

section
variable {m : PrefixMap} {as as' : List Attribute} {pre v : Text} {b : Binding}

/-- The recorded prefixes are those recorded before and those of the prefix declarations. -/
theorem mem_bindings_collect_iff : b ∈ (collect m as).prefixes.bindings ↔
    b ∈ m.bindings ∨ ∃ a ∈ as, a.IsPrefixDeclaration ∧ a.value ≠ xmlNamespace ∧
      b = ⟨namespaceOf a.value, a.name.localPart⟩ := by
  constructor
  · intro h
    refine (mem_bindings_collect h).imp_right ?_
    rintro ⟨a, ha, hp, hx, -, rfl⟩
    exact ⟨a, ha, hp, hx, rfl⟩
  · rintro (h | ⟨a, ha, hp, hx, rfl⟩)
    · exact bindings_subset_collect h
    · exact mem_bindings_collect_of_mem ha hp hx

/-- An attribute binds a prefix anew if it is a prefix declaration that is not recorded. -/
theorem mem_bound_collectOne_iff {d : Declarations} {a : Attribute} {x : Text × Text} :
    x ∈ (d.collectOne a).bound ↔ x ∈ d.bound ∨ a.IsPrefixDeclaration ∧ a.value ≠ xmlNamespace ∧
      ⟨namespaceOf a.value, a.name.localPart⟩ ∉ d.prefixes.bindings ∧
      x = (a.name.localPart, a.value) := by
  rw [← PrefixMap.mem_candidates_iff, ← PrefixMap.holds_iff]
  unfold collectOne Attribute.IsPrefixDeclaration
  by_cases hd : a.isDeclaration = true
  · cases hw : a.name.wish with
    | none => simp [hd]
    | some w =>
      by_cases hx : a.value = xmlNamespace
      · simp [hx]
      · by_cases hh : d.prefixes.holds (namespaceOf a.value) a.name.localPart = true
        · simp [hh]
        · simp [hd, hx, hh, or_comm]
  · simp [hd]

/-- Among attributes with different keys those prefix declarations make a new binding that are not
recorded in the scope. -/
theorem mem_bound_collect_iff (hk : (as.map Attribute.key).Nodup) :
    (pre, v) ∈ (collect m as).bound ↔ ⟨namespaceOf v, pre⟩ ∉ m.bindings ∧
      ∃ a ∈ as, a.IsPrefixDeclaration ∧ a.value ≠ xmlNamespace ∧ a.name.localPart = pre ∧
        a.value = v := by
  induction as using List.reverseRecOn with
  | nil => simp [collect]
  | append_singleton as a ih =>
    rw [List.map_append, List.nodup_append] at hk
    obtain ⟨hk₁, -, hk₂⟩ := hk
    have hone : collect m (as ++ [a]) = (collect m as).collectOne a := by
      rw [collect, List.foldl_append]
      rfl
    -- an earlier declaration of the prefix would have the same key
    have hnew : a.IsPrefixDeclaration →
        (⟨namespaceOf a.value, a.name.localPart⟩ ∈ (collect m as).prefixes.bindings ↔
          ⟨namespaceOf a.value, a.name.localPart⟩ ∈ m.bindings) := by
      intro hp
      rw [mem_bindings_collect_iff, or_iff_left]
      rintro ⟨a', ha', hp', -, he⟩
      refine hk₂ _ (List.mem_map_of_mem ha') _ (List.mem_singleton_self _) ?_
      have hl : a.name.localPart = a'.name.localPart := congrArg Binding.pre he
      rw [Attribute.key_of_isDeclaration hp'.1, Attribute.key_of_isDeclaration hp.1, hl]
    rw [hone, mem_bound_collectOne_iff, ih hk₁]
    constructor
    · rintro (⟨hm, a', ha', h⟩ | ⟨hp, hx, hm, he⟩)
      · exact ⟨hm, a', List.mem_append_left _ ha', h⟩
      · cases he
        exact ⟨fun h => hm ((hnew hp).2 h), a, by simp, hp, hx, rfl, rfl⟩
    · rintro ⟨hm, a', ha', hp, hx, rfl, rfl⟩
      rcases List.mem_append.1 ha' with ha' | ha'
      · exact .inl ⟨hm, a', ha', hp, hx, rfl, rfl⟩
      · cases List.mem_singleton.1 ha'
        exact .inr ⟨hp, hx, fun h => hm ((hnew hp).1 h), rfl⟩

/-- With different keys a prefix has the value that it has been bound to. -/
theorem valueOf?_eq_some_iff (hk : (as.map Attribute.key).Nodup) :
    (collect m as).valueOf? pre = some v ↔ (pre, v) ∈ (collect m as).bound := by
  refine ⟨fun h => ?_, valueOf?_of_mem_bound hk⟩
  obtain ⟨l₁, l₂, hb, -⟩ := List.lookup_eq_some_iff.1 h
  simp [hb]

/-- With different keys the default value that is collected is that of the default declaration. -/
theorem default?_eq_some_iff (hk : (as.map Attribute.key).Nodup) (hn : ∀ a ∈ as, a.DefaultNamed) :
    (collect m as).default? = some v ↔ ∃ a ∈ as, a.IsDefaultDeclaration ∧ a.value = v := by
  refine ⟨mem_of_default?, ?_⟩
  rintro ⟨a, ha, hd, rfl⟩
  exact default?_of_mem hk hn ha hd

/-- From attributes with different keys the same declarations are collected in any order. -/
theorem agree_of_perm (hp : as.Perm as') (hk : (as.map Attribute.key).Nodup)
    (hn : ∀ a ∈ as, a.DefaultNamed) : (collect m as).Agree (collect m as') := by
  have hk' : (as'.map Attribute.key).Nodup := (hp.map _).nodup_iff.1 hk
  have hn' : ∀ a ∈ as', a.DefaultNamed := fun a ha => hn a (hp.mem_iff.2 ha)
  have hex : ∀ P : Attribute → Prop, (∃ a ∈ as, P a) ↔ ∃ a ∈ as', P a :=
    fun P => exists_congr fun _ => and_congr_left' hp.mem_iff
  refine ⟨Option.ext fun v => ?_, fun pre => Option.ext fun v => ?_, fun b => ?_⟩
  · rw [default?_eq_some_iff hk hn, default?_eq_some_iff hk' hn', hex]
  · rw [valueOf?_eq_some_iff hk, valueOf?_eq_some_iff hk', mem_bound_collect_iff hk,
      mem_bound_collect_iff hk', hex]
  · rw [mem_bindings_collect_iff, mem_bindings_collect_iff, hex]

end

end Declarations

/-! ## The element -/

namespace Resolution

variable {enforce : Bool} {d d' : Declarations} {inherited : Option Text} {name : Name}
  {n t : Counter} {r : Resolution}

/-- Declarations that agree have no prefix for the same elements. -/
theorem candidate?_eq_none_iff_of_agree (h : d.Agree d') (space wish : Option Text) :
    candidate? d space wish = none ↔ candidate? d' space wish = none := by
  unfold candidate?
  split
  · rfl
  · exact h.prefixes.preferred?_eq_none_iff _ _

/-- With the same declarations in another order an element is written in the same way, if not always
with the same prefix. -/
theorem Way.of_agree (h : Way enforce d inherited name n r t) (hd : d.Agree d') :
    ∃ r', Way enforce d' inherited name n r' t ∧ r'.inherited = r.inherited ∧
      r'.dropsDefault = r.dropsDefault ∧ r.prefixes.Same r'.prefixes := by
  have hnone := candidate?_eq_none_iff_of_agree hd name.space name.wish
  have hbinds : ∀ pre, d.binds pre = d'.binds pre := fun pre => congrArg _ (hd.valueOf? pre)
  cases h with
  | inPlace hi =>
    exact ⟨_, .inPlace hi, rfl, congrArg Option.isSome hd.default?.symm, hd.prefixes⟩
  | recorded hi hx hc =>
    have hc' : candidate? d' name.space name.wish ≠ none := by
      rw [Ne, ← hnone, hc]
      nofun
    obtain ⟨pre', hc'⟩ := Option.ne_none_iff_exists'.1 hc'
    exact ⟨_, .recorded hi hx hc', by simp only [withRecorded, hd.default?], rfl, hd.prefixes⟩
  | declared hi hx hc hw hb hv =>
    exact ⟨_, .declared hi hx (hnone.1 hc) hw (hbinds _ ▸ hb) hv,
      by simp only [withDeclared, hd.default?], rfl, hd.prefixes.add _ _⟩
  | generated hi hx hc hw hb hv =>
    exact ⟨_, .generated hi hx (hnone.1 hc) hw (hbinds _ ▸ hb) hv,
      by simp only [withDeclared, hd.default?], rfl, hd.prefixes.add _ _⟩
  | ownDefault hi hc hw hdef =>
    exact ⟨_, .ownDefault hi (hnone.1 hc) hw (hd.default? ▸ hdef), rfl, rfl, hd.prefixes⟩
  | default hi hc hw hdef hv =>
    exact ⟨_, .default hi (hnone.1 hc) hw (hd.default? ▸ hdef) hv, rfl, rfl, hd.prefixes⟩

end Resolution

/-! ## The attributes -/

namespace Attribute

variable {c c' : TagContext} {m m' m₁ m₁' : PrefixMap} {n n₁ n₁' : Counter} {a : Attribute}
  {as as' : List Attribute} {ps ps' : List Piece} {seen seen' : List (Option Text × Text)}

/-- What is left out depends on the bindings and not on their order. -/
theorem isLeftOut_eq_of_agree (hd : c.declarations.Agree c'.declarations)
    (hdrops : c'.dropsDefault = c.dropsDefault) (hm : m.Same m') :
    a.isLeftOut c m = a.isLeftOut c' m' := by
  rw [isLeftOut, isLeftOut, hdrops, hd.valueOf?, hm.holds_eq]

/-- The counter comes to the same number for the same attributes in any order. -/
theorem WrittenAll.next_eq_of_mem_iff (h : WrittenAll c seen m n as ps m₁ n₁)
    (h' : WrittenAll c' seen' m' n as' ps' m₁' n₁') (hm : m.Same m')
    (ha : ∀ a, a ∈ as ↔ a ∈ as') : n₁' = n₁ := by
  obtain ⟨spaces, hnd, hs, rfl⟩ := h.next_eq
  obtain ⟨spaces', hnd', hs', rfl⟩ := h'.next_eq
  have hmem : ∀ s, s ∈ spaces ↔ s ∈ spaces' := by
    intro s
    rw [hs, hs', hm.candidates_eq_nil_iff]
    exact and_congr_right fun _ => and_congr_right fun _ =>
      exists_congr fun a => and_congr_left' (ha a)
  rw [((List.perm_ext_iff_of_nodup hnd hnd').2 hmem).length_eq]

end Attribute

/-- The start tag of an element is accepted with its attributes in any order. The counter comes to
the same number, and the content inherits the same namespace. -/
theorem OpenElement.Started.of_perm {scope : Scope} {name : Name} {as as' : List Attribute}
    {childless : Bool} {n n' : Counter} {ps : List Piece} {e : OpenElement}
    (h : Started true scope name as childless n ps e n') (hp : as.Perm as')
    (hn : ∀ a ∈ as, a.DefaultNamed) :
    ∃ ps' e', Started true scope name as' childless n ps' e' n' ∧
      e'.selfClosed = e.selfClosed ∧ e'.scope.inherited = e.scope.inherited := by
  cases h with
  | @mk r _ n₁ _ _ hl hr ha =>
    let c : TagContext := ⟨true, Declarations.collect scope.prefixes as, r.dropsDefault⟩
    have hs : ∀ a ∈ as, a.Decided c r.prefixes :=
      fun a => Attribute.decided_of_collect rfl hr.bindings_subset
    obtain ⟨hk, hadm⟩ := (Attribute.exists_writtenAll_iff rfl hs n₁).1 ⟨_, _, _, ha⟩
    have hd := Declarations.agree_of_perm (m := scope.prefixes) hp hk hn
    obtain ⟨r', hr', hi, hdrops, hm⟩ := hr.of_agree hd
    let c' : TagContext := ⟨true, Declarations.collect scope.prefixes as', r'.dropsDefault⟩
    have hs' : ∀ a ∈ as', a.Decided c' r'.prefixes :=
      fun a => Attribute.decided_of_collect rfl hr'.bindings_subset
    have hk' : (as'.map Attribute.key).Nodup := (hp.map _).nodup_iff.1 hk
    have hadm' : ∀ a ∈ as', a.Admissible c' r'.prefixes := by
      intro a ha'
      refine (hadm a (hp.mem_iff.2 ha')).transfer (fun _ hleft => ?_) fun s _ _ hs => ?_
      · rw [← hleft]
        exact (Attribute.isLeftOut_eq_of_agree hd hdrops hm).symm
      · exact .inl ((hm.candidates_eq_nil_iff _).2 hs)
    obtain ⟨body', m', n₂, ha'⟩ := (Attribute.exists_writtenAll_iff rfl hs' n₁).2 ⟨hk', hadm'⟩
    obtain rfl := ha.next_eq_of_mem_iff ha' hm fun _ => hp.mem_iff
    exact ⟨_, _, .mk hl hr' ha', rfl, hi⟩

/-! ## Starts -/

namespace Writer

variable {ω : Type} [Outlet ω] {w : Writer} {out : ω} {name : Name} {as as' : List Attribute}
  {childless : Bool}

/-- If a start does not fail, it does not fail with its attributes in another order, and what is
left then differs at most in the name that the element is open under and in the recorded
prefixes. -/
theorem perform_start_of_perm (hw : w.enforce = true) (hout : Outlet.TakesAll out)
    (hp : as.Perm as') (hn : ∀ a ∈ as, a.DefaultNamed)
    (h : (w.perform out (.start name as childless)).failure = none) :
    (w.perform out (.start name as' childless)).failure = none ∧ ∃ e e' n,
      (w.perform out (.start name as childless)).writer = (w.withNext n).push e ∧
      (w.perform out (.start name as' childless)).writer = (w.withNext n).push e' ∧
      e'.selfClosed = e.selfClosed ∧ e'.scope.inherited = e.scope.inherited := by
  obtain ⟨_, he⟩ := ends_of_perform h
  obtain ⟨-, qs, e, n, hs, -, hwriter⟩ := Event.ends_emit_start.1 he
  rw [hw] at hs
  obtain ⟨qs', e', hs', hc, hi⟩ := (OpenElement.started_of_ends hs).of_perm hp hn
  have hends := OpenElement.ends_of_started hs'
  rw [← hw] at hends
  have he' := Event.ends_emit_start.2 ⟨rfl, qs', e', n, hends, rfl, rfl⟩
  have hperform := perform_of_ok hout he'.2.1
  refine ⟨congrArg Progress.failure hperform, e, e', n, hwriter, ?_, hc, hi⟩
  exact (congrArg Progress.writer hperform).trans he'.2.2

end Writer

namespace Session

variable {ω : Type} [Outlet ω]

/-- With checks enforced and an outlet that takes everything, a start in the course of a run does
not fail exactly if it does not fail with its attributes in any other order, provided that those
which declare the default namespace have the name of such a declaration. In either order the element
is then open inside the same ones, the counter stands at the same number, and the content of the
element inherits the same namespace. -/
theorem start_perm (o : Options) (ho : o.enforce = true) (out : ω) (hout : Outlet.TakesAll out)
    (es : List Event) (name : Name) (childless : Bool) {as as' : List Attribute}
    (hp : as.Perm as') (hn : ∀ a ∈ as, a.DefaultNamed) :
    let s := (start o out).run es
    let p := s.writer.perform s.out (.start name as childless)
    let p' := s.writer.perform s.out (.start name as' childless)
    (p.failure = none ↔ p'.failure = none) ∧
      (p.failure = none →
        p.writer.depth = p'.writer.depth ∧ p.writer.next = p'.writer.next ∧
        ∃ e e', p.writer.stack = e :: s.writer.stack ∧ p'.writer.stack = e' :: s.writer.stack ∧
          e.scope.inherited = e'.scope.inherited ∧ e.selfClosed = e'.selfClosed) := by
  intro s p p'
  have hw : s.writer.enforce = true := (opened_run_any o out es).2.1.trans ho
  have hout' : Outlet.TakesAll s.out := takesAll_run hout es
  have hn' : ∀ a ∈ as', a.DefaultNamed := fun a ha => hn a (hp.mem_iff.2 ha)
  refine ⟨⟨fun h => ?_, fun h => ?_⟩, fun h => ?_⟩
  · exact (Writer.perform_start_of_perm hw hout' hp hn h).1
  · exact (Writer.perform_start_of_perm hw hout' hp.symm hn' h).1
  · obtain ⟨-, e, e', n, he, he', hc, hi⟩ := Writer.perform_start_of_perm hw hout' hp hn h
    refine ⟨?_, ?_, e, e', ?_, ?_, hi.symm, hc.symm⟩
    · rw [he, he']
      rfl
    · rw [he, he']
      rfl
    · rw [he]
      rfl
    · rw [he']
      rfl

/-- Two attributes in namespaces without prefix, with the declaration of the default namespace
between them: in the reverse order each has the prefix that the other one had. -/
theorem start_perm_reverse :
    let attributes : List Attribute := [
      ⟨⟨Text.ofString "k", .absent, .given (Text.ofString "urn:x")⟩, []⟩,
      ⟨⟨xmlnsPrefix, .absent, .given xmlnsNamespace⟩, Text.ofString "urn:d"⟩,
      ⟨⟨Text.ofString "l", .absent, .given (Text.ofString "urn:y")⟩, []⟩]
    let s := (start {} TextBuffer.empty).run [.comment []]
    let p (as : List Attribute) := s.writer.perform s.out
      (.start ⟨Text.ofString "e", .absent, .given (Text.ofString "urn:d")⟩ as true)
    attributes.Perm attributes.reverse ∧ (∀ a ∈ attributes, a.DefaultNamed) ∧
      (p attributes).failure = none ∧ (p attributes.reverse).failure = none ∧
      (p attributes).writer.next = (p attributes.reverse).writer.next ∧
      (p attributes).out.text = Text.ofString "<!----><e" ++
        Text.ofString " xmlns:ns1=\"urn:x\" ns1:k=\"\" xmlns=\"urn:d\"" ++
        Text.ofString " xmlns:ns2=\"urn:y\" ns2:l=\"\"/>" ∧
      (p attributes.reverse).out.text = Text.ofString "<!----><e" ++
        Text.ofString " xmlns:ns1=\"urn:y\" ns1:l=\"\" xmlns=\"urn:d\"" ++
        Text.ofString " xmlns:ns2=\"urn:x\" ns2:k=\"\"/>" := by
  intro attributes s p
  have hp : attributes.Perm attributes.reverse := attributes.reverse_perm.symm
  have hn : ∀ a ∈ attributes, a.DefaultNamed := by decide +kernel
  have hf : (p attributes).failure = none := by decide +kernel
  obtain ⟨hiff, hleft⟩ := start_perm {} rfl TextBuffer.empty (TextBuffer.takesAll _)
    [.comment []] ⟨Text.ofString "e", .absent, .given (Text.ofString "urn:d")⟩ true hp hn
  obtain ⟨-, hnext, -⟩ := hleft hf
  refine ⟨hp, hn, hf, hiff.1 hf, ?_, by decide +kernel, by decide +kernel⟩
  simpa only [p, s] using hnext

end Session

end XmlWriter
