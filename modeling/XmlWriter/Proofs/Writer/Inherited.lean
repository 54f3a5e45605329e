import XmlWriter.Proofs.Writer.Session

/-!
# The inherited namespace is the default namespace

The writer does not keep the default namespace in scope. It passes an inherited namespace down,
which is updated where the name of an element is found, while another pass decides whether the
default declaration among the attributes is written. Main statements: `Resolution.defaultValue?` is
the value of the default declaration that a tag shows (`OpenElement.Started.value?_none`), and with
checks enforced the inherited namespace of every open element is the default namespace in scope or
the XML namespace (`Session.inherited_eq_default`).
-/

namespace XmlWriter

namespace Resolution

/-- The value of the default declaration that a tag shows, if it shows one: the one that the writer
adds, or else the one among the attributes, unless that is dropped or declares the XML namespace. -/
def defaultValue? (r : Resolution) (d : Declarations) : Option Text :=
  match r.own with
  | some ⟨none, v⟩ => some v
  | _ => if r.dropsDefault then none else d.default?.filter fun v => v ≠ xmlNamespace

/-- The value is that of the added declaration, or of one among the attributes that is neither
dropped nor for the XML namespace. -/
theorem defaultValue?_eq_some_iff {enforce : Bool} {d : Declarations} {inherited : Option Text}
    {name : Name} {n t : Counter} {r : Resolution} (h : Way enforce d inherited name n r t)
    {v : Text} :
    r.defaultValue? d = some v ↔ r.own = some ⟨none, v⟩ ∨
      r.dropsDefault = false ∧ d.default? = some v ∧ v ≠ xmlNamespace := by
  unfold defaultValue?
  split
  next w ho =>
    have := h.dropsDefault ho
    simp [ho, this]
  next hn =>
    have : r.own ≠ some ⟨none, v⟩ := fun ho => hn v ho
    cases r.dropsDefault <;> simp [this, Option.filter_eq_some_iff]

/-- If an element inherits the default namespace around it or the XML namespace, so does its content
with the default namespace that its tag leaves, and an element without a prefix is in that one. -/
theorem Way.tracks {enforce : Bool} {d : Declarations} {inherited default : Option Text}
    {name : Name} {n t : Counter} {r : Resolution} (h : Way enforce d inherited name n r t)
    (hx : ⟨some xmlNamespace, xmlPrefix⟩ ∈ d.prefixes.bindings)
    (hi : inherited = default ∨ inherited = some xmlNamespace) :
    let inner := (r.defaultValue? d).elim default namespaceOf
    (r.inherited = inner ∨ r.inherited = some xmlNamespace) ∧
      (r.name.pre = none → name.space = inner) := by
  cases h with
  | inPlace hs =>
    -- whatever the attributes declare is left out, so the default namespace stays
    have hv : defaultValue? (Resolution.inPlace d inherited name.localPart) d = none := by
      cases hd : d.default? <;> simp [defaultValue?, Resolution.inPlace, hd]
    simp only [hv, Option.elim_none]
    refine ⟨hi, fun hp => ?_⟩
    have hne : inherited ≠ some xmlNamespace := fun hx => by simp [Resolution.inPlace, hx] at hp
    exact hs.symm.trans (hi.resolve_right hne)
  | recorded =>
    refine ⟨?_, fun hp => by cases hp⟩
    cases hd : d.default? with
    | none => simpa [defaultValue?, withRecorded, inheritedWith, hd] using hi
    | some v =>
      by_cases hv : v = xmlNamespace
      · simpa [defaultValue?, withRecorded, hd, hv, Option.filter_some] using hi
      · simp [defaultValue?, withRecorded, inheritedWith, hd, hv, Option.filter_some]
  | declared | generated =>
    refine ⟨?_, fun hp => by cases hp⟩
    cases hd : d.default? with
    | none => simpa [defaultValue?, withDeclared, inheritedWith, hd] using hi
    | some v =>
      by_cases hv : v = xmlNamespace
      · -- the declaration of the XML namespace is left out, but handed down
        refine .inr ?_
        simp only [withDeclared, inheritedWith, hd, hv]
        exact namespaceOf_eq_some_iff.2 ⟨rfl, by decide⟩
      · simp [defaultValue?, withDeclared, inheritedWith, hd, hv, Option.filter_some]
  | ownDefault _ hc _ hd =>
    obtain ⟨v, hv⟩ := Option.isSome_iff_exists.1 hd.1
    have hs : name.space = some v := hd.2.symm.trans hv
    have hne : v ≠ xmlNamespace := fun h => space_ne_xmlNamespace hx hc (h ▸ hs)
    have hin : namespaceOf v = name.space := by
      simpa [hs] using InForce.namespaceOf_getD name.space_ne_some_nil
    simp [defaultValue?, withOwnDefault, hv, hne, hin, Option.filter_some]
  | default => simp [defaultValue?, withDefault, InForce.namespaceOf_getD name.space_ne_some_nil]

end Resolution

namespace InForce

variable {context : Option Text} {t : StartTag} {ts : List StartTag}

/-- A tag without a default declaration leaves the default namespace as it is. -/
theorem default_inside_of_none (h : ∀ v, (⟨none, xmlnsPrefix⟩, v) ∉ t.attributes) :
    (inside context (t :: ts)).default = (inside context ts).default := by
  have hn : value? t.declarations.reverse none = none := by
    refine value?_eq_none_iff.2 fun d hd hp => h d.value ?_
    have hm := StartTag.mem_declarations.1 (List.mem_reverse.1 hd)
    rwa [NsDecl.name, hp] at hm
  rw [default, inside_cons, value?_append, hn]
  rfl

/-- A tag with one default declaration gives the default namespace. -/
theorem default_inside_of_mem {v : Text}
    (h : ∀ w, (⟨none, xmlnsPrefix⟩, w) ∈ t.attributes ↔ v = w) :
    (inside context (t :: ts)).default = namespaceOf v := by
  have hv : value? t.declarations.reverse none = some v := by
    refine value?_eq_some_of_forall ?_ fun d hd hp => ?_
    · exact List.mem_reverse.2 (StartTag.mem_declarations.2 ((h v).2 rfl))
    · have hm := StartTag.mem_declarations.1 (List.mem_reverse.1 hd)
      rw [NsDecl.name, hp] at hm
      exact ((h d.value).1 hm).symm
  rw [default, inside_cons, value?_append, hv]
  rfl

/-- Around the outermost tag the default namespace is that of the context. -/
theorem default_root (h : context ≠ some []) : (inside context []).default = context :=
  namespaceOf_getD h

end InForce

namespace Attribute

/-- What a tag shows for its attributes as a default declaration is one of them. -/
theorem Shows.default {c : TagContext} {m m' : PrefixMap} {as : List Attribute} {v : Text}
    (h : Shows c m m' as (⟨none, xmlnsPrefix⟩, v)) (he : c.enforce = true) :
    ∃ a ∈ as, a.IsDefaultDeclaration ∧ a.value = v ∧ c.dropsDefault = false ∧ v ≠ xmlNamespace := by
  generalize hx : ((⟨none, xmlnsPrefix⟩, v) : QName × Text) = x at h
  cases h with
  | @declaration a ha hd hl hf hc =>
    obtain ⟨m₁, -, hl⟩ := hl
    simp only [Prod.mk.injEq, QName.mk.injEq] at hx
    obtain ⟨⟨hw, -⟩, rfl⟩ := hx
    have hw : a.name.wish = none := by simpa using hw.symm
    simp only [isLeftOut, hw, Bool.or_eq_false_iff, decide_eq_false_iff_not] at hl
    exact ⟨a, ha, ⟨hd, hw⟩, rfl, hl.2, hl.1⟩
  | generated => simp at hx
  | @ordinary a pre ha hd _ hr hc =>
    -- an attribute of that name in no namespace does not pass
    simp only [Prod.mk.injEq, QName.mk.injEq] at hx
    obtain ⟨⟨rfl, hl⟩, rfl⟩ := hx
    rcases hr with ⟨hs, -⟩ | ⟨_, _, -, hp, -⟩
    · have hf := hc.1
      rw [he, vet_true_eq_ok_iff, nameFlaw?, if_pos ⟨hl.symm, hs⟩] at hf
      simp at hf
    · cases hp

end Attribute

namespace OpenElement

/-- A tag shows a default declaration exactly when it has a value for it. -/
theorem mem_default_iff {scope : Scope} {name : Name} {attributes : List Attribute}
    {n n₁ n₂ : Counter} {body : List Piece} {r : Resolution} {m : PrefixMap} {v : Text}
    (hn : ∀ a ∈ attributes, a.DefaultNamed)
    (hr : Resolution.Way true (Declarations.collect scope.prefixes attributes) scope.inherited
      name n r n₁)
    (ha : Attribute.WrittenAll
      ⟨true, Declarations.collect scope.prefixes attributes, r.dropsDefault⟩ [] r.prefixes n₁
      attributes body m n₂) :
    (⟨none, xmlnsPrefix⟩, v) ∈ (Piece.head r.name r.own).shown ++ body.flatMap Piece.shown ↔
      r.defaultValue? (Declarations.collect scope.prefixes attributes) = some v := by
  rw [Resolution.defaultValue?_eq_some_iff hr, List.mem_append]
  have hown : (⟨none, xmlnsPrefix⟩, v) ∈ (Piece.head r.name r.own).shown ↔
      r.own = some ⟨none, v⟩ := by
    rcases r.own with _ | ⟨_ | p, w⟩ <;> simp [Piece.shown, NsDecl.name, eq_comm]
  refine or_congr hown ⟨fun h => ?_, ?_⟩
  · obtain ⟨a, hm, hd, rfl, hdrop, hx⟩ := (ha.shows h).default rfl
    exact ⟨hdrop, Declarations.default?_of_mem (ha.nodup_key rfl).1 hn hm hd, hx⟩
  · rintro ⟨hd, hv, hx⟩
    obtain ⟨a, hm, hdd, rfl⟩ := Declarations.mem_of_default? hv
    rcases ha.leftOut_or_mem hm hdd.1 with ⟨m₁, hl⟩ | ⟨hp, -⟩
    · simp [Attribute.isLeftOut, hdd.2, hx, hd] at hl
    · refine List.mem_flatMap.2 ⟨_, hp, ?_⟩
      simp [Attribute.declarationPiece, Attribute.piece, hdd.2, hn a hm hdd]

section
variable {scope : Scope} {name : Name} {attributes : List Attribute} {childless : Bool}
  {n n' : Counter} {ps : List Piece} {e : OpenElement} {context : Option Text}
  {tags : List StartTag}

/-- A start tag written in a scope that tracks the default namespace leaves one that does, and an
element without a prefix is in the default namespace that its tag leaves. -/
theorem Started.tracks (h : Started true scope name attributes childless n ps e n')
    (hn : ∀ a ∈ attributes, a.DefaultNamed)
    (hx : ⟨some xmlNamespace, xmlPrefix⟩ ∈ scope.prefixes.bindings)
    (hi : scope.inherited = (InForce.inside context tags).default ∨
      scope.inherited = some xmlNamespace) :
    let default := (InForce.inside context (.ofPieces ps :: tags)).default
    (e.scope.inherited = default ∨ e.scope.inherited = some xmlNamespace) ∧
      (e.name.pre = none → name.space = default) := by
  cases h with
  | @mk r m n₁ n₂ body _ hr ha =>
    have hm := fun v => mem_default_iff (v := v) hn hr ha
    have hd : (InForce.inside context (.ofPieces (.head r.name r.own :: (body ++
        slash name childless)) :: tags)).default = (r.defaultValue? (Declarations.collect
          scope.prefixes attributes)).elim (InForce.inside context tags).default namespaceOf := by
      rw [StartTag.ofPieces_start ha.spelled]
      cases hv : r.defaultValue? (Declarations.collect scope.prefixes attributes) with
      | none => exact InForce.default_inside_of_none fun v hv' => by simp [(hm v).1 hv'] at hv
      | some v =>
        refine InForce.default_inside_of_mem fun w => (hm w).trans ?_
        rw [hv, Option.some.injEq]
    simp only [hd]
    exact hr.tracks (Declarations.bindings_subset_collect hx) hi

end

end OpenElement

/-- The inherited namespace inside the innermost element is the default namespace in scope, or the
XML namespace; and the XML namespace keeps its prefix. -/
theorem Opened.tracks {root : Scope} {stack : OpenElements} {tags : List StartTag}
    (h : Opened true root (fun as => ∀ a ∈ as, a.DefaultNamed) stack tags)
    (hx : ⟨some xmlNamespace, xmlPrefix⟩ ∈ root.prefixes.bindings)
    (hr : root.inherited ≠ some []) :
    ⟨some xmlNamespace, xmlPrefix⟩ ∈ (stack.scope root).prefixes.bindings ∧
      ((stack.scope root).inherited = (InForce.inside root.inherited tags).default ∨
        (stack.scope root).inherited = some xmlNamespace) := by
  induction h with
  | nil =>
    exact ⟨hx, .inl (InForce.default_root hr).symm⟩
  | cons _ hP hs ih =>
    obtain ⟨hx', hi⟩ := ih
    exact ⟨hs.bindings_subset hx', (hs.tracks hP hx' hi).1⟩

namespace Session

variable {ω : Type} [Outlet ω]

/-- What an open element inherits is the default namespace that its start tag and those around it
leave, or the XML namespace; and an element that a start writes without a prefix is in the default
namespace that its tag leaves. The default declarations among the attributes must have their name.
-/
theorem inherited_eq_default (o : Options) (ho : o.enforce = true) (hp : o.prefixes = .standard)
    (out : ω) (es : List Event)
    (hes : ∀ e ∈ es, e.OfAttributes fun as => ∀ a ∈ as, a.DefaultNamed) :
    let s := (start o out).run es
    let default := fun tags => (InForce.inside o.context.value? tags).default
    (∀ k e, s.writer.stack[k]? = some e →
      e.scope.inherited = default (s.tags.drop k) ∨ e.scope.inherited = some xmlNamespace) ∧
    ∀ name attributes childless, (∀ a ∈ attributes, a.DefaultNamed) →
      (s.writer.perform s.out (.start name attributes childless)).failure = none →
      let tag := StartTag.ofPieces (Event.pieces s.writer (.start name attributes childless))
      tag.name.pre = none → name.space = default (tag :: s.tags) := by
  intro s default
  obtain ⟨h, he, hr⟩ := opened_run o out es hes
  rw [ho] at h
  have hx : ⟨some xmlNamespace, xmlPrefix⟩ ∈ o.prefixes.bindings := by
    rw [hp]
    exact PrefixMap.mem_bindings_add _ _ _
  have hc := NamePart.value?_ne_some_nil o.context
  refine ⟨fun k e hk => ((h.of_getElem? hk).tracks hx hc).2, ?_⟩
  intro name attributes childless hn hf tag hpre
  obtain ⟨qs, e, n, hs, hq, -⟩ := started_of_perform hf
  rw [he, hr, ho] at hs
  have ht : tag = StartTag.ofPieces qs :=
    (congrArg StartTag.ofPieces hq).trans (StartTag.ofPieces_tagEnd qs)
  obtain ⟨hx', hi⟩ := h.tracks hx hc
  rw [ht, hs.name_ofPieces] at hpre
  rw [ht]
  exact (hs.tracks hn hx' hi).2 hpre

/-- An element that declares a default namespace, inside a context that has another one. -/
theorem inherited_eq_default_declared :
    let space := fun (v : String) => NamePart.given (Text.ofString v)
    let o : Options := { context := space "urn:c" }
    let es : List Event := [.start ⟨Text.ofString "a", .absent, space "urn:d"⟩
      [⟨⟨xmlnsPrefix, .absent, .given xmlnsNamespace⟩, Text.ofString "urn:d"⟩] false]
    let s := (start o TextBuffer.empty).run es
    s.tags.length = 1 ∧ ∀ k e, s.writer.stack[k]? = some e →
      e.scope.inherited = (InForce.inside o.context.value? (s.tags.drop k)).default ∨
        e.scope.inherited = some xmlNamespace :=
  ⟨by decide +kernel, (inherited_eq_default _ rfl rfl TextBuffer.empty _ (by decide)).1⟩

end Session

end XmlWriter
