import XmlWriter.Proofs.Reading.StartTag
import XmlWriter.Proofs.Tag.Attributes
import XmlWriter.Proofs.Tag.Declarations
import XmlWriter.Tag.Start

/-!
# Start tags that are written to the end

`OpenElement.Started` says what has happened when a start tag has been written, and
`OpenElement.started_of_ends` that nothing else can have. The rest of the module says it for the
reader's view of the tag: its name and its attributes (`StartTag.ofPieces_start`,
`Attribute.WrittenAll.shows`), and with checks enforced, that a prefix which the content finds
recorded was recorded before or is declared in the tag (`OpenElement.Started.mem_bindings`), and
that the element has a prefix that is recorded for its namespace
(`OpenElement.Started.mem_bindings_of_pre`).
-/

namespace XmlWriter

namespace OpenElement

/-- The slash of a start tag, if it is an empty-element tag. -/
def slash (name : Name) (childless : Bool) : List Piece :=
  if childless then [.slash (isVoidElement name.space name.localPart)] else []

/-- A start tag has been written, all but its end, in a scope and with the counter at `n`: the
pieces of it, the element that is then open and where the counter then stands. -/
inductive Started (enforce : Bool) (scope : Scope) (name : Name) (attributes : List Attribute)
    (childless : Bool) (n : Counter) : List Piece → OpenElement → Counter → Prop
  | mk {r : Resolution} {m : PrefixMap} {n₁ n₂ : Counter} {body : List Piece}
      (hl : vet enforce (LocalPart.flaw? .element name.localPart) = .ok ())
      (hr : Resolution.Way enforce (Declarations.collect scope.prefixes attributes) scope.inherited
        name n r n₁)
      (ha : Attribute.WrittenAll
        ⟨enforce, Declarations.collect scope.prefixes attributes, r.dropsDefault⟩ [] r.prefixes n₁
        attributes body m n₂) :
      Started enforce scope name attributes childless n
        (.head r.name r.own :: (body ++ slash name childless))
        ⟨r.name, childless, ⟨m, r.inherited⟩⟩ n₂

/-- When a start tag has been written, its name has been found first, then its attributes have been
written, and the slash comes last. -/
theorem resolved_of_ends {enforce : Bool} {scope : Scope} {name : Name}
    {attributes : List Attribute} {childless : Bool} {n n' : Counter} {ps : List Piece}
    {e : OpenElement}
    (h : (start enforce scope name attributes childless).Ends n ps e n') :
    let d := Declarations.collect scope.prefixes attributes
    vet enforce (LocalPart.flaw? .element name.localPart) = .ok () ∧ ∃ r n₁ body m,
      (Resolution.of enforce d scope.inherited name).Ends n [] r n₁ ∧
      (Attribute.writeAll ⟨enforce, d, r.dropsDefault⟩ [] r.prefixes attributes).Ends
        n₁ body m n' ∧
      ps = .head r.name r.own :: (body ++ slash name childless) ∧
      e = ⟨r.name, childless, ⟨m, r.inherited⟩⟩ := by
  obtain ⟨hl, h⟩ := Emit.ends_demand_bind.1 h
  simp only [Emit.ends_bind, Emit.ends_write] at h
  obtain ⟨_, r, n₁, _, hr, ⟨_, _, _, _, ⟨rfl, rfl⟩,
    ⟨body, m, t, _, ha, hs, rfl⟩, rfl⟩, rfl⟩ := h
  obtain ⟨rfl, -⟩ := Resolution.way_of_ends hr
  refine ⟨hl, r, _, body, m, hr, ?_⟩
  cases childless with
  | false =>
    obtain ⟨rfl, rfl, rfl⟩ := Emit.ends_pure.1 hs
    exact ⟨ha, rfl, rfl⟩
  | true =>
    rw [if_pos rfl, Emit.ends_bind] at hs
    obtain ⟨_, _, _, _, hp, hs, rfl⟩ := hs
    obtain ⟨rfl, rfl⟩ := Emit.ends_write.1 hp
    obtain ⟨rfl, rfl, rfl⟩ := Emit.ends_pure.1 hs
    exact ⟨ha, rfl, rfl⟩

/-- Nothing else can have happened when a start tag has been written. -/
theorem started_of_ends {enforce : Bool} {scope : Scope} {name : Name}
    {attributes : List Attribute} {childless : Bool} {n n' : Counter} {ps : List Piece}
    {e : OpenElement}
    (h : (start enforce scope name attributes childless).Ends n ps e n') :
    Started enforce scope name attributes childless n ps e n' := by
  obtain ⟨hl, r, n₁, body, m, hr, ha, rfl, rfl⟩ := resolved_of_ends h
  exact .mk hl (Resolution.way_of_ends hr).2 (Attribute.writtenAll_of_ends ha)

end OpenElement

/-! ## The tag as a reader sees it -/

/-- The empty value stands for no namespace, and no namespace for the empty value. -/
@[simp] theorem getD_namespaceOf (v : Text) : (namespaceOf v).getD [] = v := by
  cases v <;> rfl

namespace StartTag

/-- What stands in a tag for attributes adds what it shows and nothing else. -/
theorem foldl_add_of_spelled {R : Attribute → Option Text → Prop} {as : List Attribute}
    {ps : List Piece} (h : Attribute.Spelled R as ps) (t : StartTag) :
    ps.foldl add t = { t with attributes := t.attributes ++ ps.flatMap Piece.shown } := by
  induction h generalizing t with
  | nil => simp
  | leftOut _ _ ih => exact ih t
  | declaration _ _ ih | named _ _ _ ih =>
    rw [List.foldl_cons, ih]
    simp [add, Attribute.declarationPiece, Attribute.piece]
  | generated _ _ _ ih =>
    rw [List.foldl_cons, List.foldl_cons, ih]
    simp [add, Attribute.piece]

/-- A start tag has the name and the declaration of its head, then what its body shows. -/
theorem ofPieces_start {R : Attribute → Option Text → Prop} {as : List Attribute}
    {ps : List Piece} (h : Attribute.Spelled R as ps) (q : QName) (own : Option NsDecl)
    (name : Name) (childless : Bool) :
    ofPieces (.head q own :: (ps ++ OpenElement.slash name childless)) =
      ⟨q, (Piece.head q own).shown ++ ps.flatMap Piece.shown, childless⟩ := by
  rw [ofPieces, List.foldl_cons, List.foldl_append, foldl_add_of_spelled h]
  cases childless <;> rfl

/-- A start tag has the declaration of its head, then those that its body shows. -/
theorem declarations_start {R : Attribute → Option Text → Prop} {as : List Attribute}
    {ps : List Piece} (h : Attribute.Spelled R as ps) (q : QName) (own : Option NsDecl)
    (name : Name) (childless : Bool) :
    (ofPieces (.head q own :: (ps ++ OpenElement.slash name childless))).declarations =
      own.toList ++ (ps.flatMap Piece.shown).filterMap NsDecl.ofAttribute? := by
  rw [ofPieces_start h, declarations, List.filterMap_append]
  cases own <;> simp [Piece.shown]

/-- A start tag has the ordinary attributes that its body shows. -/
theorem ordinary_start {R : Attribute → Option Text → Prop} {as : List Attribute}
    {ps : List Piece} (h : Attribute.Spelled R as ps) (q : QName) (own : Option NsDecl)
    (name : Name) (childless : Bool) :
    (ofPieces (.head q own :: (ps ++ OpenElement.slash name childless))).ordinary =
      (ps.flatMap Piece.shown).filter fun x => (NsDecl.ofAttribute? x).isNone := by
  rw [ofPieces_start h, ordinary, List.filter_append]
  cases own <;> simp [Piece.shown]

end StartTag

namespace Attribute

section
variable {R : Attribute → Option Text → Prop} {as : List Attribute} {ps : List Piece}

/-- What stands in a tag for attributes stands inside it. -/
theorem Spelled.isInTag (h : Spelled R as ps) : ∀ p ∈ ps, p.isInTag = true := by
  induction h with
  | nil => simp
  | leftOut _ _ ih => exact ih
  | declaration _ _ ih | named _ _ _ ih | generated _ _ _ ih =>
    simpa [declarationPiece, piece, Piece.isInTag] using ih

/-- The declarations among attributes are read as declarations. -/
theorem ofAttribute?_declarationPiece {a : Attribute} (hd : a.isDeclaration = true)
    (hn : a.DefaultNamed) :
    ∃ d, NsDecl.ofAttribute? (⟨a.name.wish.map fun _ => xmlnsPrefix, a.name.localPart⟩, a.value) =
      some d := by
  cases hw : a.name.wish with
  | none => exact ⟨⟨none, a.value⟩, by simp [NsDecl.ofAttribute?, hn ⟨hd, hw⟩]⟩
  | some w => exact ⟨⟨some a.name.localPart, a.value⟩, by simp [NsDecl.ofAttribute?]⟩

/-- What a reader takes for ordinary attributes are some of those that are; and if none of them is
missing, it is each of them in turn. -/
theorem Spelled.ordinary (h : Spelled R as ps) (hn : ∀ a ∈ as, a.DefaultNamed) :
    let read := (ps.flatMap Piece.shown).filter fun x => (NsDecl.ofAttribute? x).isNone
    let plain := as.filter fun a => !a.isDeclaration
    read.length ≤ plain.length ∧ (read.length = plain.length →
      List.Forall₂ (fun a x => x = (⟨x.1.pre, a.name.localPart⟩, a.value) ∧ R a x.1.pre)
        plain read) := by
  induction h with
  | nil => exact ⟨Nat.le_refl _, fun _ => .nil⟩
  | leftOut hd _ ih => simpa [hd] using ih fun a ha => hn a (.tail _ ha)
  | @declaration a as ps hd _ ih =>
    obtain ⟨d, hx⟩ := ofAttribute?_declarationPiece hd (hn a (.head _))
    simpa [hd, declarationPiece, piece, hx] using ih fun a ha => hn a (.tail _ ha)
  | @named a as ps pre hd hR _ ih | @generated a as ps pre d hd hR _ ih =>
    obtain ⟨hle, hall⟩ := ih fun a ha => hn a (.tail _ ha)
    simp only [piece, List.flatMap_cons, Piece.shown_generated, Piece.shown_attribute,
      List.singleton_append, List.filter_cons, NsDecl.ofAttribute?_name, Option.isNone_some, hd,
      Bool.not_false, if_true, Bool.false_eq_true, if_false, List.length_cons]
    split
    · refine ⟨Nat.succ_le_succ hle, fun he => .cons ⟨rfl, hR⟩ (hall ?_)⟩
      simpa using he
    · -- it is read as a declaration, and missed
      exact ⟨Nat.le_succ_of_le hle, fun he => by omega⟩

/-- A reader misses none of the ordinary attributes if none is spelled as a declaration. -/
theorem Spelled.length_ordinary (h : Spelled R as ps) (hn : ∀ a ∈ as, a.DefaultNamed)
    (hR : ∀ a pre, R a pre → NsDecl.ofAttribute? (⟨pre, a.name.localPart⟩, a.value) = none) :
    ((ps.flatMap Piece.shown).filter fun x => (NsDecl.ofAttribute? x).isNone).length =
      (as.filter fun a => !a.isDeclaration).length := by
  induction h with
  | nil => rfl
  | leftOut hd _ ih => simpa [hd] using ih fun a ha => hn a (.tail _ ha)
  | declaration hd _ ih =>
    obtain ⟨d, hx⟩ := ofAttribute?_declarationPiece hd (hn _ (.head _))
    simpa [hd, declarationPiece, piece, hx] using ih fun a ha => hn a (.tail _ ha)
  | named hd h _ ih | generated hd h _ ih =>
    simpa [hd, piece, hR _ _ h] using ih fun a ha => hn a (.tail _ ha)

end

/-- The local part of a passed attribute is an NCName. -/
theorem Passes.isNCName {a : Attribute} (hc : a.Passes true) : IsNCName a.name.localPart := by
  have hf := hc.1
  rw [vet_true_eq_ok_iff, nameFlaw?, Option.or_eq_none_iff] at hf
  exact isNCName_iff.1 hf.1

/-- A passed attribute in no namespace does not have the name of the default declaration. -/
theorem Passes.localPart_ne {a : Attribute} (hc : a.Passes true) (hs : a.name.space = none) :
    a.name.localPart ≠ xmlnsPrefix := by
  intro hl
  have hf := hc.1
  rw [vet_true_eq_ok_iff, nameFlaw?, Option.or_eq_none_iff, if_pos ⟨hl, hs⟩] at hf
  exact absurd hf.2 (by simp)

/-- A passed attribute is an ordinary one to a reader as well, if its prefix is not that of
declarations. -/
theorem Passes.ofAttribute?_eq_none {a : Attribute} (hc : a.Passes true) {pre : Option Text}
    (hp : pre = none → a.name.space = none) (hx : pre ≠ some xmlnsPrefix) :
    NsDecl.ofAttribute? (⟨pre, a.name.localPart⟩, a.value) = none := by
  cases pre with
  | none => exact if_neg (hc.localPart_ne (hp rfl))
  | some p => exact if_neg fun h => hx (congrArg some h)

/-- What a tag may show for some attributes that find the map `m` and leave the map `m'`: a
declaration that is not left out, the declaration of a prefix generated for a namespace without one,
or any other attribute with a prefix of the map. -/
inductive Shows (c : TagContext) (m m' : PrefixMap) (as : List Attribute) : QName × Text → Prop
  | declaration {a : Attribute} (ha : a ∈ as) (hd : a.isDeclaration = true)
      (hl : ∃ m₁, m.bindings ⊆ m₁.bindings ∧ a.isLeftOut c m₁ = false)
      (hf : vet c.enforce a.declarationFlaw? = .ok ()) (hc : a.Passes c.enforce) :
      Shows c m m' as (⟨a.name.wish.map fun _ => xmlnsPrefix, a.name.localPart⟩, a.value)
  | generated {a : Attribute} {s : Text} {n : Counter} (ha : a ∈ as) (hd : a.isDeclaration = false)
      (hs : a.name.space = some s) (hn : ∀ p, ⟨some s, p⟩ ∉ m.bindings)
      (hb : ⟨some s, Counter.generated n⟩ ∈ m'.bindings) :
      Shows c m m' as (⟨some xmlnsPrefix, Counter.generated n⟩, s)
  | ordinary {a : Attribute} {pre : Option Text} (ha : a ∈ as) (hd : a.isDeclaration = false)
      (hw : a.writtenName m' = ⟨pre, a.name.localPart⟩) (hr : RecordedAs m' a.name.space pre)
      (hc : a.Passes c.enforce) : Shows c m m' as (⟨pre, a.name.localPart⟩, a.value)

/-- What a tag may show it may show with further attributes, and from fewer recorded prefixes. -/
theorem Shows.mono {c : TagContext} {m₀ m m' : PrefixMap} {as as' : List Attribute}
    {x : QName × Text} (h : Shows c m m' as x) (hm : m₀.bindings ⊆ m.bindings) (hs : as ⊆ as') :
    Shows c m₀ m' as' x := by
  cases h with
  | declaration ha hd hl hf hc =>
    obtain ⟨m₁, hm₁, hl⟩ := hl
    exact .declaration (hs ha) hd ⟨m₁, fun _ hb => hm₁ (hm hb), hl⟩ hf hc
  | generated ha hd hsp hn hb => exact .generated (hs ha) hd hsp (fun p hb => hn p (hm hb)) hb
  | ordinary ha hd hw hr hc => exact .ordinary (hs ha) hd hw hr hc

section
variable {c : TagContext} {m m₁ m' : PrefixMap} {n n' : Counter} {a : Attribute}
  {as : List Attribute} {ps : List Piece} {x : QName × Text}

/-- A tag shows nothing else for an attribute, whatever the attributes after it leave. -/
theorem Written.shows (h : a.Written c m n ps m₁ n') (hb : m₁.bindings ⊆ m'.bindings)
    (hp : ∀ {space wish p}, m₁.preferred? space wish = some p → m'.preferred? space wish = some p)
    (hx : x ∈ ps.flatMap Piece.shown) : Shows c m m' [a] x := by
  cases h with
  | leftOut => cases hx
  | declaration hd hl hf hc =>
    rw [declarationPiece, piece, List.flatMap_singleton, Piece.shown_attribute,
      List.mem_singleton] at hx
    exact hx ▸ .declaration (.head _) hd ⟨m, fun _ h => h, hl⟩ hf hc
  | plain hs hc =>
    rw [piece, List.flatMap_singleton, Piece.shown_attribute, List.mem_singleton] at hx
    have hd : a.isDeclaration = false := by simp [isDeclaration, hs]
    exact hx ▸ .ordinary (.head _) hd (by simp [writtenName, hd, hs]) (.inl ⟨hs, rfl⟩) hc
  | @recorded s p hd hs hpre hc =>
    rw [piece, List.flatMap_singleton, Piece.shown_attribute, List.mem_singleton] at hx
    have hm := PrefixMap.mem_candidates_iff.1 (PrefixMap.mem_candidates_of_preferred? hpre)
    exact hx ▸ .ordinary (.head _) hd (by simp [writtenName, hd, hs, hp hpre])
      (.inr ⟨s, p, hs, rfl, hb hm⟩) hc
  | @generated s hd hs hpre hv hc =>
    simp only [piece, List.flatMap_cons, List.flatMap_nil, List.append_nil,
      Piece.shown_generated, Piece.shown_attribute, List.mem_append, List.mem_singleton] at hx
    have hnil := PrefixMap.preferred?_eq_none_iff.1 hpre
    have hm := hb (PrefixMap.mem_bindings_add _ _ _)
    rcases hx with rfl | rfl
    · refine .generated (.head _) hd hs (fun p hb => ?_) hm
      rw [← PrefixMap.mem_candidates_iff, hnil] at hb
      cases hb
    · have hpre := hp (PrefixMap.preferred?_add hnil (Counter.generated n) a.name.wish)
      exact .ordinary (.head _) hd (by simp [writtenName, hd, hs, hpre])
        (.inr ⟨s, _, hs, rfl, hm⟩) hc

/-- A tag shows nothing else for its attributes. -/
theorem WrittenAll.shows {seen : List (Option Text × Text)}
    (h : WrittenAll c seen m n as ps m' n') (hx : x ∈ ps.flatMap Piece.shown) :
    Shows c m m' as x := by
  induction h with
  | nil => cases hx
  | cons _ ha has ih =>
    rw [List.flatMap_append] at hx
    rcases List.mem_append.1 hx with hx | hx
    · exact (ha.shows has.bindings_subset has.preferred?_eq hx).mono (fun _ hb => hb) (by simp)
    · exact (ih hx).mono ha.bindings_subset (List.subset_cons_self _ _)

end

end Attribute

namespace OpenElement

section
variable {enforce : Bool} {scope : Scope} {name : Name} {attributes : List Attribute}
  {childless : Bool} {n n' : Counter} {ps : List Piece} {e : OpenElement} {b : Binding} {pre : Text}

/-- The tag shows the name that the element is open under. -/
theorem Started.name_ofPieces (h : Started enforce scope name attributes childless n ps e n') :
    (StartTag.ofPieces ps).name = e.name := by
  cases h with
  | mk _ _ ha => rw [StartTag.ofPieces_start ha.spelled]

/-- The written name has the local part of the given one. -/
theorem Started.localPart (h : Started enforce scope name attributes childless n ps e n') :
    e.name.localPart = name.localPart := by
  cases h with
  | mk _ hr => exact hr.localPart

/-- A start tag reads as that of an empty element exactly if it has no children. -/
theorem Started.isEmpty_ofPieces (h : Started enforce scope name attributes childless n ps e n') :
    (StartTag.ofPieces ps).isEmpty = childless := by
  cases h with
  | mk _ _ ha => rw [StartTag.ofPieces_start ha.spelled]

/-- The open element remembers whether its start tag closed it. -/
theorem Started.selfClosed (h : Started enforce scope name attributes childless n ps e n') :
    e.selfClosed = childless := by
  cases h with
  | mk => rfl

/-- With checks enforced no two attributes have the same key. -/
theorem Started.nodup_key (h : Started true scope name attributes childless n ps e n') :
    (attributes.map Attribute.key).Nodup := by
  cases h with
  | mk _ _ ha => exact (ha.nodup_key rfl).1

/-- All pieces of a start tag but its end stand inside it. -/
theorem Started.isInTag (h : Started enforce scope name attributes childless n ps e n') :
    ∀ p ∈ ps, p.isInTag = true := by
  cases h with
  | mk _ _ ha =>
    intro p hp
    rcases List.mem_cons.1 hp with rfl | hp
    · rfl
    · rcases List.mem_append.1 hp with hp | hp
      · exact ha.spelled.isInTag p hp
      · cases childless with
        | false => cases hp
        | true =>
          rw [slash, if_pos rfl, List.mem_singleton] at hp
          exact hp ▸ rfl

/-- A prefix recorded in the scope stays recorded inside. -/
theorem Started.bindings_subset (h : Started enforce scope name attributes childless n ps e n') :
    scope.prefixes.bindings ⊆ e.scope.prefixes.bindings := by
  cases h with
  | mk _ hr ha =>
    exact fun _ hb =>
      ha.bindings_subset (hr.bindings_subset (Declarations.bindings_subset_collect hb))

/-- A prefix declaration that is new is not left out. -/
theorem declarationPiece_mem {c : TagContext} {m m' : PrefixMap} {body : List Piece}
    {a : Attribute} (h : Attribute.WrittenAll c [] m n attributes body m' n')
    (he : c.enforce = true) (hc : c.declarations = Declarations.collect scope.prefixes attributes)
    (ha : a ∈ attributes) (hp : a.IsPrefixDeclaration) (hx : a.value ≠ xmlNamespace)
    (hb : (a.name.localPart, a.value) ∈ c.declarations.bound) : a.declarationPiece ∈ body := by
  rcases h.leftOut_or_mem ha hp.1 with ⟨m₁, hl⟩ | ⟨hm, -⟩
  · obtain ⟨w, hw⟩ := Option.ne_none_iff_exists'.1 hp.2
    have hv : c.declarations.valueOf? a.name.localPart = some a.value := by
      rw [hc] at hb ⊢
      exact Declarations.valueOf?_of_mem_bound (h.nodup_key he).1 hb
    simp [Attribute.isLeftOut, hw, hv, hx] at hl
  · exact hm

/-- What the content finds recorded was recorded before, or the tag declares it. -/
theorem Started.mem_bindings (h : Started true scope name attributes childless n ps e n')
    (hb : b ∈ e.scope.prefixes.bindings) :
    b ∈ scope.prefixes.bindings ∨ (StartTag.ofPieces ps).Declares b.pre b.space := by
  cases h with
  | @mk r _ _ _ body _ hr ha =>
    rw [StartTag.ofPieces_start ha.spelled]
    rcases ha.mem_bindings hb with hb | ⟨s, hs, hp⟩
    · rcases hr.mem_bindings hb with hb | ⟨ho, -⟩
      · rcases Declarations.mem_bindings_collect hb with hb | ⟨a, hm, hpd, hx, hbd, rfl⟩
        · exact .inl hb
        · -- recorded from an attribute: that one is new, so it is written
          have hp := declarationPiece_mem ha rfl rfl hm hpd hx hbd
          obtain ⟨w, hw⟩ := Option.ne_none_iff_exists'.1 hpd.2
          refine .inr (StartTag.mem_declarations.2 (List.mem_append_right _ ?_))
          refine List.mem_flatMap.2 ⟨_, hp, ?_⟩
          simp [Attribute.declarationPiece, Attribute.piece, NsDecl.name, hw]
      · refine .inr (StartTag.mem_declarations.2 (List.mem_append_left _ ?_))
        simp [Piece.shown, ho]
    · refine .inr (StartTag.mem_declarations.2 (List.mem_append_right _ ?_))
      exact List.mem_flatMap.2 ⟨_, hp, by simp [hs]⟩

/-- The prefix that the element is written with is recorded inside for its namespace, except that
`xml` needs no record. -/
theorem Started.mem_bindings_of_pre (h : Started true scope name attributes childless n ps e n')
    (hp : (StartTag.ofPieces ps).name.pre = some pre) :
    ⟨name.space, pre⟩ ∈ e.scope.prefixes.bindings ∨
      pre = xmlPrefix ∧ name.space = some xmlNamespace := by
  rw [h.name_ofPieces] at hp
  cases h with
  | mk _ hr ha => exact (hr.mem_bindings_of_pre hp).imp_left fun hb => ha.bindings_subset hb

end

end OpenElement

end XmlWriter
