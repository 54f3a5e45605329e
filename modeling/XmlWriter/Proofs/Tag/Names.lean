import XmlWriter.Proofs.Number.Generated
import XmlWriter.Proofs.Tag.Distinct

/-!
# Tags whose names are qualified names

Local parts are checked, but prefixes are not. A prefix that a name is written with has been
recorded, and what is recorded was declared in the tag or around it, where it is the local part of
an attribute and is checked as such, with two exceptions: the prefix that an element wishes for is
declared as it is (`Name.Spellable` says which elements do no harm by it), and so is a generated
one. `OpenElement.Started.hasQNames_iff` says that nothing else can spoil the names in a tag.
-/

namespace XmlWriter

/-- The names in a tag, the element's name and those of the attributes, are qualified names. -/
def StartTag.HasQNames (t : StartTag) : Prop := ∀ x ∈ t.name.text :: t.names, IsQName x

instance : DecidablePred StartTag.HasQNames := fun t =>
  inferInstanceAs (Decidable (∀ x ∈ t.name.text :: t.names, IsQName x))

/-- Whether an element can be written with a prefix that is an NCName, or with none, if it inherits
a namespace and finds some prefixes recorded: it is in the namespace that it inherits, or there is a
prefix for its namespace already, or else the prefix that it wishes for is an NCName. -/
def Name.Spellable (inherited : Option Text) (m : PrefixMap) (name : Name) : Prop :=
  inherited = name.space ∨ (∃ p, ⟨name.space, p⟩ ∈ m.bindings) ∨
    ∀ p, name.wish = some p → IsNCName p

/-- No generated prefix that a tag declares has a plus sign in it. -/
def StartTag.CountsPlainly (t : StartTag) : Prop :=
  ∀ d ∈ t.declarations, ∀ n, d.pre = some (Counter.generated n) →
    Text.unit '+' ∉ Counter.generated n

namespace StartTag

variable {t : StartTag}

/-- No name in such a tag delimits anything. -/
theorem HasQNames.not_mem (h : t.HasQNames) {x : Text} (hx : x ∈ t.name.text :: t.names)
    {u : UInt16} (hu : u ∈ delimiters) : u ∉ x := by
  obtain ⟨q, hq, rfl⟩ := h x hx
  exact hq.not_mem hu

/-- The prefixes that such a tag declares are NCNames. -/
theorem HasQNames.isNCName (h : t.HasQNames) {d : NsDecl} (hd : d ∈ t.declarations) {p : Text}
    (hp : d.pre = some p) : IsNCName p := by
  have hm : d.name.text ∈ t.names := List.mem_map.2 ⟨_, mem_declarations.1 hd, rfl⟩
  rcases d with ⟨pre, v⟩
  obtain rfl : pre = some p := hp
  exact (isQName_prefixed_iff.1 (h _ (.tail _ hm))).2

/-- If all names of a tag are QNames, its generated prefixes are, so that it counts plainly. -/
theorem HasQNames.countsPlainly (h : t.HasQNames) : t.CountsPlainly := fun _ hd _ hn =>
  Counter.isNCName_generated_iff.1 (h.isNCName hd hn)

end StartTag

namespace Attribute

/-- The local part of an attribute in a tag is an NCName or a generated prefix. -/
theorem Shows.isNCName_or_generated {c : TagContext} {m m' : PrefixMap} {as : List Attribute}
    {x : QName × Text} (h : Shows c m m' as x) (he : c.enforce = true) :
    IsNCName x.1.localPart ∨ ∃ n, x.1.localPart = Counter.generated n := by
  cases h with
  | declaration _ _ _ _ hc => exact .inl (he ▸ hc).isNCName
  | generated => exact .inr ⟨_, rfl⟩
  | ordinary _ _ _ _ hc => exact .inl (he ▸ hc).isNCName

/-- The name of an attribute in a tag is proper if only NCNames are recorded. -/
theorem Shows.isProper {c : TagContext} {m m' : PrefixMap} {as : List Attribute}
    {x : QName × Text} (h : Shows c m m' as x) (he : c.enforce = true)
    (hm : ∀ b ∈ m'.bindings, IsNCName b.pre) : x.1.IsProper := by
  cases h with
  | @declaration a _ _ _ _ hc =>
    refine ⟨fun p hp => ?_, (he ▸ hc).isNCName⟩
    obtain ⟨w, -, rfl⟩ := Option.map_eq_some_iff.1 hp
    decide
  | @generated _ s n _ _ _ _ hb =>
    have hn : IsNCName (Counter.generated n) := hm _ hb
    exact NsDecl.isProper_name (d := ⟨some (Counter.generated n), s⟩) fun p hp =>
      Option.some.inj hp ▸ hn
  | ordinary _ _ _ hr hc =>
    refine ⟨fun p hp => ?_, (he ▸ hc).isNCName⟩
    rcases hr with ⟨-, hn⟩ | ⟨_, q, -, hq, hb⟩
    · exact absurd (hn.symm.trans hp) nofun
    · exact Option.some.inj (hq.symm.trans hp) ▸ hm _ hb

end Attribute

namespace OpenElement

section
variable {scope : Scope} {name : Name} {attributes : List Attribute} {childless : Bool}
  {n n' : Counter} {ps : List Piece} {e : OpenElement} {b : Binding}

/-! ## What follows from qualified names -/

/-- A prefix that the attributes bind anew is declared by what is written for them. -/
theorem exists_mem_declarations_of_binds {c : TagContext} {m m' : PrefixMap} {body : List Piece}
    {p : Text} (h : Attribute.WrittenAll c [] m n attributes body m' n') (he : c.enforce = true)
    (hc : c.declarations = Declarations.collect scope.prefixes attributes)
    (hb : (Declarations.collect scope.prefixes attributes).binds p = true) :
    ∃ v, ⟨some p, v⟩ ∈ (body.flatMap Piece.shown).filterMap NsDecl.ofAttribute? := by
  obtain ⟨v, hv⟩ := Option.isSome_iff_exists.1 hb
  obtain ⟨l₁, l₂, hl, -⟩ := List.lookup_eq_some_iff.1 hv
  have hm : (p, v) ∈ (Declarations.collect scope.prefixes attributes).bound := by simp [hl]
  obtain ⟨a, ha, hp, hx, rfl, rfl⟩ := Declarations.mem_bound_collect hm
  have hpiece := declarationPiece_mem h he hc ha hp hx (hc ▸ hm)
  obtain ⟨w, hw⟩ := Option.ne_none_iff_exists'.1 hp.2
  refine ⟨a.value, List.mem_filterMap.2 ⟨_, List.mem_flatMap.2 ⟨_, hpiece, .head _⟩, ?_⟩⟩
  simp [NsDecl.ofAttribute?, hw]

/-- An element whose tag has qualified names could be spelled. -/
theorem Started.spellable (h : Started true scope name attributes childless n ps e n')
    (ht : (StartTag.ofPieces ps).HasQNames) :
    name.Spellable scope.inherited (Declarations.collect scope.prefixes attributes).prefixes := by
  cases h with
  | mk hl hw ha =>
    have hq := StartTag.declarations_start ha.spelled
    cases hw with
    | inPlace hi => exact .inl hi
    | recorded _ hx hc => exact .inr (.inl ⟨_, Resolution.mem_bindings_of_candidate? hc (hx rfl)⟩)
    | @declared wish _ _ _ hwish =>
      refine .inr (.inr fun p hp => ?_)
      obtain rfl := Option.some.inj (hwish.symm.trans hp)
      exact ht.isNCName (by rw [hq]; exact List.mem_append_left _ (.head _)) rfl
    | @generated wish _ _ _ hwish hbinds =>
      -- the attributes declare the prefix that the element does not get
      refine .inr (.inr fun p hp => ?_)
      obtain rfl := Option.some.inj (hwish.symm.trans hp)
      obtain ⟨v, hv⟩ := exists_mem_declarations_of_binds ha rfl rfl hbinds
      exact ht.isNCName (by rw [hq]; exact List.mem_append_right _ hv) rfl
    | ownDefault _ _ hwish | default _ _ hwish =>
      exact .inr (.inr fun p hp => absurd (hwish.symm.trans hp) nofun)

/-! ## Which tags have qualified names -/

/-- The prefixes that a tag declares are NCNames if the element can be spelled. -/
theorem Started.isNCName_declared (h : Started true scope name attributes childless n ps e n')
    (hn : name.Spellable scope.inherited (Declarations.collect scope.prefixes attributes).prefixes)
    (hc : (StartTag.ofPieces ps).CountsPlainly) :
    ∀ d ∈ (StartTag.ofPieces ps).declarations, ∀ p, d.pre = some p → IsNCName p := by
  rintro ⟨_, v⟩ hd p rfl
  have plain : ∀ {k}, p = Counter.generated k → IsNCName p := by
    rintro k rfl
    exact Counter.isNCName_generated_iff.2 (hc _ hd k rfl)
  cases h with
  | mk hl hw ha =>
    rw [StartTag.declarations_start ha.spelled] at hd
    rcases List.mem_append.1 hd with hd | hd
    · rw [Option.mem_toList] at hd
      cases hw with
      | inPlace | recorded | ownDefault | default => cases hd
      | generated => exact plain (by cases hd; rfl)
      | declared hi _ hcand hwish =>
        cases hd
        rcases hn with hi' | ⟨q, hq⟩ | hn
        · exact absurd hi' hi
        · exact absurd hq (Resolution.not_mem_bindings_of_candidate? hcand q)
        · exact hn _ hwish
    · obtain ⟨x, hmem, hxd⟩ := List.mem_filterMap.1 hd
      rw [NsDecl.ofAttribute?_eq_some_iff.1 hxd] at hmem
      exact ((ha.shows hmem).isNCName_or_generated rfl).elim id fun ⟨_, hk⟩ => plain hk

/-- Inside a tag whose declarations are of NCNames, only these are recorded if that was so around
it. -/
theorem Started.isNCName_bindings (h : Started true scope name attributes childless n ps e n')
    (hs : ∀ b ∈ scope.prefixes.bindings, IsNCName b.pre)
    (ht : ∀ d ∈ (StartTag.ofPieces ps).declarations, ∀ p, d.pre = some p → IsNCName p) :
    ∀ b ∈ e.scope.prefixes.bindings, IsNCName b.pre := fun b hb =>
  (h.mem_bindings hb).elim (hs b) fun hd => ht _ hd _ rfl

/-- The name of an element is proper if only NCNames are recorded inside its tag. -/
theorem Started.isProper_name (h : Started true scope name attributes childless n ps e n')
    (hb : ∀ b ∈ e.scope.prefixes.bindings, IsNCName b.pre) :
    (StartTag.ofPieces ps).name.IsProper := by
  refine ⟨fun p hp => ?_, ?_⟩
  · rcases h.mem_bindings_of_pre hp with hm | ⟨rfl, -⟩
    · exact hb _ hm
    · decide
  · rw [h.name_ofPieces, h.localPart]
    cases h with
    | mk hl => exact isNCName_iff.1 (vet_true_eq_ok_iff.1 hl)

/-- The names in a tag are proper if its declarations are of NCNames and only these are recorded
inside it. -/
theorem Started.isProper (h : Started true scope name attributes childless n ps e n')
    (hb : ∀ b ∈ e.scope.prefixes.bindings, IsNCName b.pre)
    (ht : ∀ d ∈ (StartTag.ofPieces ps).declarations, ∀ p, d.pre = some p → IsNCName p) :
    (StartTag.ofPieces ps).name.IsProper ∧
      ∀ x ∈ (StartTag.ofPieces ps).attributes, x.1.IsProper := by
  refine ⟨h.isProper_name hb, fun x hx => ?_⟩
  cases hd : NsDecl.ofAttribute? x with
  | some d =>
    rw [NsDecl.ofAttribute?_eq_some_iff.1 hd]
    exact NsDecl.isProper_name (ht d (List.mem_filterMap.2 ⟨x, hx, hd⟩))
  | none =>
    cases h with
    | mk _ _ ha =>
      have hm : x ∈ (StartTag.ofPieces _).ordinary := List.mem_filter.2 ⟨hx, by simp [hd]⟩
      rw [StartTag.ordinary_start ha.spelled] at hm
      exact (ha.shows (List.mem_filter.1 hm).1).isProper rfl hb

/-- If only NCNames are recorded around a tag, its names are qualified names exactly if the element
can be spelled and the prefixes that are generated for it have no plus sign. -/
theorem Started.hasQNames_iff (h : Started true scope name attributes childless n ps e n')
    (hs : ∀ b ∈ scope.prefixes.bindings, IsNCName b.pre) :
    (StartTag.ofPieces ps).HasQNames ↔
      name.Spellable scope.inherited (Declarations.collect scope.prefixes attributes).prefixes ∧
      (StartTag.ofPieces ps).CountsPlainly := by
  refine ⟨fun ht => ⟨h.spellable ht, ht.countsPlainly⟩, fun ⟨hn, hc⟩ => ?_⟩
  have ht := h.isNCName_declared hn hc
  obtain ⟨hname, hall⟩ := h.isProper (h.isNCName_bindings hs ht) ht
  exact List.forall_mem_cons.2
    ⟨⟨_, hname, rfl⟩, List.forall_mem_map.2 fun x hx => ⟨x.1, hall x hx, rfl⟩⟩

end

end OpenElement

end XmlWriter
