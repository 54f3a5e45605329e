import XmlWriter.Proofs.Number.Generated
import XmlWriter.Proofs.Reading.Reader
import XmlWriter.Proofs.Tag.Start

/-!
# Tags whose declarations are allowed

The rules for reserved prefixes and namespaces are checked where the attributes are written, and for
an element only that it does not wish for the prefix of declarations. So a declaration that breaks a
rule can get into a tag in two ways: the declaration added for the element is not checked
(`Name.Declarable` says which elements need none that breaks a rule), and neither is the local part
of a prefix declaration (`Attribute.SparesReserved`). `OpenElement.Started.isLegal_iff` says that
there is no other way, as long as no such declaration is in force already.
-/

namespace XmlWriter

/-- Whether a tag declares nothing that is not allowed and does not have the prefix of declarations
itself. -/
def StartTag.IsLegal (t : StartTag) : Prop :=
  (∀ d ∈ t.declarations, d.IsLegal) ∧ t.name.pre ≠ some xmlnsPrefix

/-- Whether a prefix may be bound to a namespace. -/
def Binding.IsLegal (b : Binding) : Prop := NsDecl.IsLegal ⟨some b.pre, b.space.getD []⟩

/-- What a prefix may be bound to is a namespace, and not the one of declarations. -/
theorem Binding.IsLegal.space_ne {b : Binding} (h : b.IsLegal) :
    b.space ≠ none ∧ b.space ≠ some xmlnsNamespace := by
  obtain ⟨hd, -, h0, -⟩ := h
  exact ⟨fun hs => h0 (by rw [hs]; rfl), fun hs => hd (by rw [hs]; rfl)⟩

/-- Whether an attribute does not declare the prefix of declarations, and `xml` only for its
namespace. What it declares for that namespace does not matter, since it is left out. -/
def Attribute.SparesReserved (a : Attribute) : Prop :=
  a.IsPrefixDeclaration → a.value ≠ xmlNamespace →
    a.name.localPart ≠ xmlnsPrefix ∧ a.name.localPart ≠ xmlPrefix

/-- Whether an element can be written with a declaration that is allowed, or with none, if it
inherits a namespace and finds some prefixes recorded: it is in the namespace that it inherits, or
else it is not in the one of declarations, wishes for a prefix only if it is in a namespace, and
wishes for `xml` only if there is a prefix for its namespace already. -/
def Name.Declarable (inherited : Option Text) (m : PrefixMap) (name : Name) : Prop :=
  inherited = name.space ∨
    name.space ≠ some xmlnsNamespace ∧ (name.wish ≠ none → name.space ≠ none) ∧
      (name.wish = some xmlPrefix → ∃ p, ⟨name.space, p⟩ ∈ m.bindings)

/-- A prefix that is not reserved may be bound to a namespace that is not reserved. -/
theorem NsDecl.isLegal_some {p v : Text} (hp : p ≠ xmlnsPrefix) (hx : p ≠ xmlPrefix) (h0 : v ≠ [])
    (hv : v ≠ xmlNamespace) (hd : v ≠ xmlnsNamespace) : NsDecl.IsLegal ⟨some p, v⟩ :=
  ⟨hd, hp, h0, fun h => absurd h hx, fun h => absurd h hv⟩

/-- A namespace has a name that is not empty. -/
theorem Name.getD_space_ne_nil {name : Name} (h : name.space ≠ none) :
    name.space.getD [] ≠ [] := by
  obtain ⟨s, hs⟩ := Option.ne_none_iff_exists'.1 h
  rw [hs]
  exact fun h => name.space_ne_some_nil (hs.trans (congrArg some h))

/-- A namespace is not one that a text names if the text is not its name. -/
theorem Name.getD_space_ne {name : Name} {v : Text} (h : name.space ≠ some v) (h0 : v ≠ []) :
    name.space.getD [] ≠ v := by
  intro hv
  cases hs : name.space with
  | none => exact h0 (by rw [← hv, hs]; rfl)
  | some s => exact h (by rw [hs, ← hv, hs]; rfl)

namespace Resolution

section
variable {d : Declarations} {inherited : Option Text} {name : Name} {n t : Counter}
  {r : Resolution} {o : NsDecl}

/-- The prefix that a tag declares for an element is not that of declarations. -/
theorem Way.pre_ne_xmlnsPrefix_of_own (h : Way true d inherited name n r t) (ho : r.own = some o) :
    o.pre ≠ some xmlnsPrefix := by
  cases h with
  | inPlace | recorded | ownDefault => cases ho
  | declared _ hw _ hwish =>
    cases ho
    exact hwish ▸ hw rfl
  | generated =>
    cases ho
    exact fun h => Counter.generated_ne_xmlnsPrefix n (Option.some.inj h)
  | default =>
    cases ho
    exact nofun

/-- The declaration that a tag adds for an element is allowed if the element can have one. -/
theorem Way.isLegal_own (h : Way true d inherited name n r t)
    (hx : ⟨some xmlNamespace, xmlPrefix⟩ ∈ d.prefixes.bindings)
    (hn : name.Declarable inherited d.prefixes) (ho : r.own = some o) : o.IsLegal := by
  cases h with
  | inPlace | recorded | ownDefault => cases ho
  | @declared wish hi hw hc hwish =>
    cases ho
    obtain ⟨hd, hs, hxml⟩ := hn.resolve_left hi
    have h0 := Name.getD_space_ne_nil (hs (by simp [hwish]))
    refine NsDecl.isLegal_some (fun h => hw rfl (h ▸ hwish)) (fun h => ?_) h0
      (Name.getD_space_ne (space_ne_xmlNamespace hx hc) (by decide))
      (Name.getD_space_ne hd (by decide))
    obtain ⟨p, hp⟩ := hxml (h ▸ hwish)
    exact not_mem_bindings_of_candidate? hc p hp
  | @generated wish hi hw hc hwish =>
    cases ho
    obtain ⟨hd, hs, -⟩ := hn.resolve_left hi
    have h0 := Name.getD_space_ne_nil (hs (by simp [hwish]))
    exact NsDecl.isLegal_some (Counter.generated_ne_xmlnsPrefix n)
      (Counter.generated_ne_xmlPrefix n) h0
      (Name.getD_space_ne (space_ne_xmlNamespace hx hc) (by decide))
      (Name.getD_space_ne hd (by decide))
  | default hi hc =>
    cases ho
    obtain ⟨hd, -, -⟩ := hn.resolve_left hi
    exact ⟨Name.getD_space_ne hd (by decide),
      Name.getD_space_ne (space_ne_xmlNamespace hx hc) (by decide)⟩

end

end Resolution

namespace OpenElement

section
variable {scope : Scope} {name : Name} {attributes : List Attribute} {childless : Bool}
  {n n' : Counter} {ps : List Piece} {e : OpenElement}

/-! ## What follows from a tag that is legal -/

/-- Inside a tag that is legal, only what may be bound is recorded if that was so around it. -/
theorem Started.isLegal_bindings (h : Started true scope name attributes childless n ps e n')
    (hs : ∀ b ∈ scope.prefixes.bindings, b.IsLegal)
    (ht : ∀ d ∈ (StartTag.ofPieces ps).declarations, d.IsLegal) :
    ∀ b ∈ e.scope.prefixes.bindings, b.IsLegal := fun b hb =>
  (h.mem_bindings hb).elim (hs b) (ht _)

/-- What the attributes declare is recorded inside the tag. -/
theorem Started.mem_bindings_of_isPrefixDeclaration
    (h : Started true scope name attributes childless n ps e n') {a : Attribute}
    (ha : a ∈ attributes) (hp : a.IsPrefixDeclaration) (hx : a.value ≠ xmlNamespace) :
    ⟨namespaceOf a.value, a.name.localPart⟩ ∈ e.scope.prefixes.bindings := by
  cases h with
  | mk _ hr hall =>
    exact hall.bindings_subset (hr.bindings_subset
      (Declarations.mem_bindings_collect_of_mem ha hp hx))

/-- The attributes in a tag that is legal spare what is reserved. -/
theorem Started.sparesReserved (h : Started true scope name attributes childless n ps e n')
    (hb : ∀ b ∈ e.scope.prefixes.bindings, b.IsLegal) :
    ∀ a ∈ attributes, a.SparesReserved := by
  intro a ha hp hx
  obtain ⟨-, hn, -, hiff⟩ := hb _ (h.mem_bindings_of_isPrefixDeclaration ha hp hx)
  refine ⟨hn, fun hl => hx ?_⟩
  simpa using hiff.1 hl

/-- An element whose tag is legal has a name that can be declared, or needs no declaration. -/
theorem Started.declarable (h : Started true scope name attributes childless n ps e n')
    (hx : ⟨some xmlNamespace, xmlPrefix⟩ ∈ scope.prefixes.bindings)
    (hb : ∀ b ∈ e.scope.prefixes.bindings, b.IsLegal)
    (ht : ∀ d ∈ (StartTag.ofPieces ps).declarations, d.IsLegal) :
    name.Declarable scope.inherited (Declarations.collect scope.prefixes attributes).prefixes := by
  have hspare := h.sparesReserved hb
  cases h with
  | @mk r m n₁ n₂ body hl hw ha =>
    rw [StartTag.declarations_start ha.spelled] at ht
    refine or_iff_not_imp_left.2 fun hi => ?_
    cases hw with
    | inPlace hi' => exact absurd hi' hi
    | recorded _ hw hc =>
      have hm := Resolution.mem_bindings_of_candidate? hc (hw rfl)
      obtain ⟨h0, hd⟩ := (hb _ (ha.bindings_subset hm)).space_ne
      exact ⟨hd, fun _ => h0, fun _ => ⟨_, hm⟩⟩
    | @declared wish _ _ _ hwish =>
      have hown : (Binding.mk name.space wish).IsLegal := ht _ (List.mem_append_left _ (.head _))
      obtain ⟨h0, hd⟩ := hown.space_ne
      refine ⟨hd, fun _ => h0, fun hxml => ?_⟩
      rw [hwish] at hxml
      have hs : name.space = some xmlNamespace := Decidable.byContradiction fun hs =>
        Name.getD_space_ne hs (by decide) (hown.2.2.2.1 (Option.some.inj hxml))
      exact ⟨xmlPrefix, hs ▸ Declarations.bindings_subset_collect hx⟩
    | @generated wish _ _ _ hwish hbinds =>
      have hown : (Binding.mk name.space (Counter.generated n)).IsLegal :=
        ht _ (List.mem_append_left _ (.head _))
      obtain ⟨h0, hd⟩ := hown.space_ne
      refine ⟨hd, fun _ => h0, fun hxml => ?_⟩
      -- the attributes would bind `xml`
      obtain ⟨a, hm, hp, hv, hl'⟩ := Declarations.exists_of_binds hbinds
      rw [hwish] at hxml
      exact absurd (hl'.trans (Option.some.inj hxml)) (hspare a hm hp hv).2
    | ownDefault _ _ hwish hdef =>
      refine ⟨fun hs => ?_, by simp [hwish], by simp [hwish]⟩
      obtain ⟨a, hm, hd, hv⟩ := Declarations.mem_of_default? (hdef.2.trans hs)
      rcases ha.leftOut_or_mem hm hd.1 with ⟨m₁, hlo⟩ | ⟨-, hf⟩
      · have hne : xmlnsNamespace ≠ xmlNamespace := by decide
        simp [Attribute.isLeftOut, hd.2, hv, hne, Resolution.withOwnDefault] at hlo
      · simp [Attribute.declarationFlaw?, hv] at hf
    | default _ _ hwish =>
      obtain ⟨hd, -⟩ := ht _ (List.mem_append_left _ (.head _))
      exact ⟨fun hs => hd (by rw [hs]; rfl), by simp [hwish], by simp [hwish]⟩

/-! ## Which tags are legal -/

/-- If no declaration of an element or of its attributes is of the prefix of declarations, it does
not come to be recorded. -/
theorem Started.ne_xmlnsPrefix (h : Started true scope name attributes childless n ps e n')
    (hs : ∀ b ∈ scope.prefixes.bindings, b.pre ≠ xmlnsPrefix)
    (ha : ∀ a ∈ attributes, a.SparesReserved) :
    ∀ b ∈ e.scope.prefixes.bindings, b.pre ≠ xmlnsPrefix := by
  cases h with
  | @mk r m n₁ n₂ body hl hw hall =>
    have hcol : ∀ b ∈ (Declarations.collect scope.prefixes attributes).prefixes.bindings,
        b.pre ≠ xmlnsPrefix := by
      intro b hb
      rcases Declarations.mem_bindings_collect hb with hb | ⟨a, hm, hp, hx, -, rfl⟩
      · exact hs b hb
      · exact (ha a hm hp hx).1
    intro b hb
    rcases hall.exists_generated hb with hb | ⟨k, hk⟩
    · rcases hw.mem_bindings hb with hb | ⟨ho, -⟩
      · exact hcol b hb
      · exact fun hp => hw.pre_ne_xmlnsPrefix_of_own ho (congrArg some hp)
    · rw [hk]
      exact Counter.generated_ne_xmlnsPrefix k

end

end OpenElement

namespace Attribute

/-- A declaration passes its check exactly when it binds something else than the namespace of
declarations. -/
theorem declarationFlaw?_eq_none_iff {a : Attribute} :
    a.declarationFlaw? = none ↔ a.value ≠ xmlnsNamespace ∧ a.value ≠ [] := by
  unfold declarationFlaw?
  split
  next h => simp [h]
  next h =>
    split
    next h0 => simp [h0]
    next h0 => simp [h, h0]

/-- A declaration that a tag shows for attributes that spare what is reserved is allowed, unless the
prefix of declarations is recorded. -/
theorem Shows.isLegal {c : TagContext} {m m' : PrefixMap} {as : List Attribute} {d : NsDecl}
    (h : Shows c m m' as (d.name, d.value)) (he : c.enforce = true)
    (hx : ⟨some xmlNamespace, xmlPrefix⟩ ∈ m.bindings) (ha : ∀ a ∈ as, a.SparesReserved)
    (hm : ∀ b ∈ m'.bindings, b.pre ≠ xmlnsPrefix) : d.IsLegal := by
  generalize hq : (d.name, d.value) = x at h
  cases h with
  | @declaration a hmem hd hl hf hc =>
    obtain ⟨m₁, -, hl⟩ := hl
    simp only [isLeftOut, Bool.or_eq_false_iff, decide_eq_false_iff_not] at hl
    rw [he, vet_true_eq_ok_iff, declarationFlaw?_eq_none_iff] at hf
    rcases d with ⟨_ | p, v⟩
    · obtain rfl : v = a.value := congrArg Prod.snd hq
      exact ⟨hf.1, hl.1⟩
    · simp only [NsDecl.name, Prod.mk.injEq, QName.mk.injEq] at hq
      obtain ⟨⟨hw, rfl⟩, rfl⟩ := hq
      have hw : a.name.wish ≠ none := fun hn => by simp [hn] at hw
      obtain ⟨hp, hp'⟩ := ha a hmem ⟨hd, hw⟩ hl.1
      exact NsDecl.isLegal_some hp hp' hf.2 hl.1 hf.1
  | @generated a s n hmem hd hs hn =>
    rcases d with ⟨_ | p, v⟩
    · simp [NsDecl.name] at hq
    · simp only [NsDecl.name, Prod.mk.injEq, QName.mk.injEq, true_and] at hq
      obtain ⟨rfl, rfl⟩ := hq
      refine NsDecl.isLegal_some (Counter.generated_ne_xmlnsPrefix n)
        (Counter.generated_ne_xmlPrefix n) ?_ ?_ ?_
      · rintro rfl
        exact a.name.space_ne_some_nil hs
      · rintro rfl
        exact hn _ hx
      · exact ne_xmlnsNamespace hd hs
  | @ordinary a pre hmem hd hw hr hc =>
    -- it is none, since its prefix is recorded and it is not named like the default declaration
    have hn : NsDecl.ofAttribute? (⟨pre, a.name.localPart⟩, a.value) = none := by
      refine (he ▸ hc).ofAttribute?_eq_none ?_ ?_
      · rintro rfl
        rcases hr with ⟨hs, -⟩ | ⟨_, _, -, hp, -⟩
        · exact hs
        · cases hp
      · rintro rfl
        rcases hr with ⟨-, hp⟩ | ⟨s, p, -, hp, hb⟩
        · cases hp
        · cases hp
          exact hm _ hb rfl
    rw [← hq, NsDecl.ofAttribute?_name] at hn
    cases hn

end Attribute

namespace OpenElement

section
variable {scope : Scope} {name : Name} {attributes : List Attribute} {childless : Bool}
  {n n' : Counter} {ps : List Piece} {e : OpenElement}

/-- A tag is legal if the declaration that is added for the element and the attributes are. -/
theorem Started.isLegal (h : Started true scope name attributes childless n ps e n')
    (hx : ⟨some xmlNamespace, xmlPrefix⟩ ∈ scope.prefixes.bindings)
    (hs : ∀ b ∈ scope.prefixes.bindings, b.pre ≠ xmlnsPrefix)
    (hn : name.Declarable scope.inherited
      (Declarations.collect scope.prefixes attributes).prefixes)
    (ha : ∀ a ∈ attributes, a.SparesReserved) : (StartTag.ofPieces ps).IsLegal := by
  have hm := h.ne_xmlnsPrefix hs ha
  refine ⟨fun d hd => ?_, fun hp => ?_⟩
  · cases h with
    | @mk r m n₁ n₂ body hl hw hall =>
      have hx : ⟨some xmlNamespace, xmlPrefix⟩ ∈
          (Declarations.collect scope.prefixes attributes).prefixes.bindings :=
        Declarations.bindings_subset_collect hx
      rw [StartTag.declarations_start hall.spelled] at hd
      rcases List.mem_append.1 hd with hd | hd
      · exact hw.isLegal_own hx hn (Option.mem_toList.1 hd)
      · obtain ⟨x, hmem, hxd⟩ := List.mem_filterMap.1 hd
        rw [NsDecl.ofAttribute?_eq_some_iff.1 hxd] at hmem
        exact (hall.shows hmem).isLegal rfl (hw.bindings_subset hx) ha hm
  · rcases h.mem_bindings_of_pre hp with hb | ⟨hp, -⟩
    · exact hm _ hb rfl
    · exact absurd hp (by decide)

/-- Inside tags that are legal, a start tag is legal exactly if its element can be declared and its
attributes spare what is reserved. -/
theorem Started.isLegal_iff (h : Started true scope name attributes childless n ps e n')
    (hx : ⟨some xmlNamespace, xmlPrefix⟩ ∈ scope.prefixes.bindings)
    (hs : ∀ b ∈ scope.prefixes.bindings, b.IsLegal) :
    (StartTag.ofPieces ps).IsLegal ↔
      name.Declarable scope.inherited
        (Declarations.collect scope.prefixes attributes).prefixes ∧
      ∀ a ∈ attributes, a.SparesReserved := by
  constructor
  · rintro ⟨ht, -⟩
    have hb := h.isLegal_bindings hs ht
    exact ⟨h.declarable hx hb ht, h.sparesReserved hb⟩
  · exact fun ⟨hn, ha⟩ => h.isLegal hx (fun b hb => (hs b hb).2.1) hn ha

end

end OpenElement

end XmlWriter
