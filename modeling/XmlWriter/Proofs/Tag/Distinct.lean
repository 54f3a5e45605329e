import XmlWriter.Proofs.Tag.Start

/-!
# Attributes with one name

The check for duplicates compares namespaces and local parts, but what must not be repeated in a tag
is a text. `OpenElement.Started.nodup_names` says that the names in a tag are different, unless a
prefix that was generated is declared once more for another namespace, or two attributes in
different namespaces have taken the same prefix from the map, or an attribute can be taken for what
it is not (`Attribute.DulyNamed`). In the first two cases a name is repeated
(`StartTag.not_nodup_of_declaresTwice`, `OpenElement.Started.not_nodup_of_sharesName`).
-/

namespace XmlWriter

/-! ## When two names have one text -/

/-- Without a colon in the local part a text is that of one qualified name only. -/
theorem QName.text_inj {q q' : QName} (h : Text.unit ':' ∉ q.localPart)
    (h' : Text.unit ':' ∉ q'.localPart) (ht : q.text = q'.text) : q = q' := by
  rcases q with ⟨_ | p, l⟩ <;> rcases q' with ⟨_ | p', l'⟩
  · rw [text_none, text_none] at ht
    rw [ht]
  · rw [text_none, text_some] at ht
    exact absurd (by simp [ht]) h
  · rw [text_none, text_some] at ht
    exact absurd (by simp [← ht]) h'
  · rw [text_some, text_some, List.append_eq_append_iff] at ht
    -- the text after the prefix begins with a colon and has no other
    rcases ht with ⟨_ | ⟨u, r⟩, rfl, hr⟩ | ⟨_ | ⟨u, r⟩, rfl, hr⟩
    · simpa using hr
    · rw [List.cons_append, List.cons.injEq] at hr
      exact absurd (by simp [hr.2]) h
    · simpa using hr.symm
    · rw [List.cons_append, List.cons.injEq] at hr
      exact absurd (by simp [hr.2]) h'

namespace NsDecl

/-- Whether a text is the name of an attribute that makes a declaration. -/
def IsName (t : Text) : Prop := ∃ d : NsDecl, d.name.text = t

/-- Declarations whose names have one text are of one prefix. -/
theorem pre_eq_of_text {d d' : NsDecl} (h : d.name.text = d'.name.text) : d.pre = d'.pre := by
  rcases d with ⟨_ | p, v⟩ <;> rcases d' with ⟨_ | p', v'⟩
  · rfl
  · simp [name] at h
  · simp [name] at h
  · simpa [name] using h

/-- Whether a name with the prefix looks like that of a prefix declaration. -/
def IsPrefixOfName (p : Text) : Prop := p = xmlnsPrefix ∨ xmlnsPrefix ++ [Text.unit ':'] <+: p

instance (p : Text) : Decidable (IsPrefixOfName p) := inferInstanceAs (Decidable (_ ∨ _))

/-- A qualified name is not that of a declaration unless it is `xmlns` or its prefix looks like the
beginning of one. -/
theorem not_isName {q : QName} (hl : q.pre = none → q.localPart ≠ xmlnsPrefix)
    (hc : Text.unit ':' ∉ q.localPart) (hp : ∀ p, q.pre = some p → ¬ IsPrefixOfName p) :
    ¬ IsName q.text := by
  have hx : Text.unit ':' ∉ xmlnsPrefix := by decide
  rintro ⟨⟨_ | d, v⟩, ht⟩ <;> rcases q with ⟨_ | p, l⟩
  · exact hl rfl ht.symm
  · rw [QName.text_some] at ht
    exact hx (by rw [show xmlnsPrefix = _ from ht]; simp)
  · rw [QName.text_none] at ht
    exact hc (by simp [← ht, name])
  · -- the first colon of the name stands after `xmlns`
    rw [name, QName.text_some, QName.text_some, List.append_eq_append_iff] at ht
    rcases ht with ⟨_ | ⟨u, r⟩, rfl, hr⟩ | ⟨_ | ⟨u, r⟩, he, hr⟩
    · exact hp _ rfl (.inl (List.append_nil _))
    · rw [List.cons_append, List.cons.injEq] at hr
      exact hp _ rfl (.inr ⟨r, by simp [← hr.1]⟩)
    · exact hp _ rfl (.inl (by simpa using he.symm))
    · rw [List.cons_append, List.cons.injEq] at hr
      exact hx (by rw [he, ← hr.1]; simp)

end NsDecl

namespace StartTag

/-- The names in a tag, as texts. -/
def names (t : StartTag) : List Text := t.attributes.map (·.1.text)

/-- Whether a generated prefix is declared for two values. -/
def DeclaresTwice (t : StartTag) : Prop :=
  ∃ n v v', v ≠ v' ∧ ⟨some (Counter.generated n), v⟩ ∈ t.declarations ∧
    ⟨some (Counter.generated n), v'⟩ ∈ t.declarations

/-- The name of a prefix that is declared twice is repeated. -/
theorem not_nodup_of_declaresTwice {t : StartTag} (h : t.DeclaresTwice) : ¬ t.names.Nodup := by
  obtain ⟨n, v, v', hv, hd, hd'⟩ := h
  intro hn
  have he := List.inj_on_of_nodup_map hn (mem_declarations.1 hd) (mem_declarations.1 hd') rfl
  exact hv (congrArg Prod.snd he)

end StartTag

namespace Attribute

/-- Whether an attribute cannot be taken for what it is not, in a tag that leaves the prefix map
`m`: a default declaration has the name of one, and an attribute that is no declaration does not
have a prefix that looks like one. -/
def DulyNamed (m : PrefixMap) (a : Attribute) : Prop :=
  a.DefaultNamed ∧
    (a.isDeclaration = false → ∀ p, (a.writtenName m).pre = some p → ¬ NsDecl.IsPrefixOfName p)

/-- Whether two of some attributes are written with one name although they are in different
namespaces. -/
def SharesName (m : PrefixMap) (as : List Attribute) : Prop :=
  ∃ a ∈ as, ∃ b ∈ as, a.isDeclaration = false ∧ b.isDeclaration = false ∧
    a.name.space ≠ b.name.space ∧ a.writtenName m = b.writtenName m

@[simp] theorem writtenName_localPart (m : PrefixMap) (a : Attribute) :
    (a.writtenName m).localPart = a.name.localPart := rfl

/-- An attribute that is duly named and no declaration does not have the name of one. -/
theorem DulyNamed.not_isName {m : PrefixMap} {a : Attribute} (h : a.DulyNamed m)
    (hd : a.isDeclaration = false) (hc : a.Passes true)
    (hn : (a.writtenName m).pre = none → a.name.space = none) :
    ¬ NsDecl.IsName (a.writtenName m).text :=
  NsDecl.not_isName (fun hp => hc.localPart_ne (hn hp)) hc.isNCName.1 (h.2 hd)

/-- Where the declarations of a tag come from that finds the prefix map `m` and leaves `m'`: from
the attributes, or generated for a namespace that has no prefix. -/
inductive Origin (c : TagContext) (m m' : PrefixMap) (as : List Attribute) : NsDecl → Prop
  | given {a : Attribute} (ha : a ∈ as) (hd : a.isDeclaration = true) (hn : a.DefaultNamed)
      (hl : ∃ m₁, m.bindings ⊆ m₁.bindings ∧ a.isLeftOut c m₁ = false) :
      Origin c m m' as ⟨a.name.wish.map fun _ => a.name.localPart, a.value⟩
  | generated {s : Text} (n : Counter) (h0 : s ≠ []) (hn : ∀ p, ⟨some s, p⟩ ∉ m.bindings)
      (hb : ⟨some s, Counter.generated n⟩ ∈ m'.bindings) :
      Origin c m m' as ⟨some (Counter.generated n), s⟩

/-- Attributes whose prefix declarations are recorded in a prefix map, but for those of the XML
namespace. -/
def Recorded (m : PrefixMap) (as : List Attribute) : Prop :=
  ∀ a ∈ as, a.IsPrefixDeclaration → a.value ≠ xmlNamespace →
    ⟨namespaceOf a.value, a.name.localPart⟩ ∈ m.bindings

section
variable {c : TagContext} {m m₁ m' : PrefixMap} {a : Attribute} {as bs : List Attribute}
  {n n' : Counter} {ps : List Piece} {x y : QName × Text} {d d' : NsDecl}

/-- What a tag shows for attributes that are duly named are declarations and attributes that have
not the name of one. -/
theorem Shows.origin_or_ordinary (h : Shows c m m' as x) (he : c.enforce = true)
    (hr : ∀ a ∈ as, a.DulyNamed m') :
    (∃ d, Origin c m m' as d ∧ x = (d.name, d.value)) ∨
      ∃ a ∈ as, a.isDeclaration = false ∧ x = (a.writtenName m', a.value) ∧
        ¬ NsDecl.IsName x.1.text ∧ Text.unit ':' ∉ a.name.localPart := by
  cases h with
  | @declaration a ha hd hl hf hc =>
    refine .inl ⟨_, .given ha hd (hr a ha).1 hl, ?_⟩
    cases hw : a.name.wish with
    | none => simp [NsDecl.name, (hr a ha).1 ⟨hd, hw⟩]
    | some w => simp [NsDecl.name]
  | @generated a s n ha hd hs hn hb =>
    refine .inl ⟨_, .generated n ?_ hn hb, rfl⟩
    rintro rfl
    exact a.name.space_ne_some_nil hs
  | @ordinary a pre ha hd hw hrec hc =>
    rw [he] at hc
    have hn : ¬ NsDecl.IsName (a.writtenName m').text := by
      refine (hr a ha).not_isName hd hc fun hp => ?_
      rw [hw] at hp
      rcases hrec with ⟨hs, -⟩ | ⟨_, _, -, hsome, -⟩
      · exact hs
      · exact absurd (hsome.symm.trans hp) (by simp)
    exact .inr ⟨a, ha, hd, by rw [hw], hw ▸ hn, hc.isNCName.1⟩

/-- What is recorded for attributes is so for some of them, and in a larger map. -/
theorem Recorded.mono (h : Recorded m as) (hm : m.bindings ⊆ m'.bindings) (hs : bs ⊆ as) :
    Recorded m' bs := fun a ha hp hx => hm (h a (hs ha) hp hx)

/-- A declaration from an attribute is recorded. -/
theorem Recorded.mem_bindings (h : Recorded m as) (ha : a ∈ as) (hd : a.isDeclaration = true)
    (hw : a.name.wish ≠ none) (hl : ∃ m₁, m'.bindings ⊆ m₁.bindings ∧ a.isLeftOut c m₁ = false) :
    ⟨namespaceOf a.value, a.name.localPart⟩ ∈ m.bindings := by
  obtain ⟨m₁, -, hl⟩ := hl
  simp only [isLeftOut, Bool.or_eq_false_iff, decide_eq_false_iff_not] at hl
  exact h a ha ⟨hd, hw⟩ hl.1

/-- What a declaration says is recorded after it. -/
theorem Origin.mem_bindings {p : Text} (h : Origin c m m' as d) (hrec : Recorded m as)
    (hm : m.bindings ⊆ m'.bindings) (hp : d.pre = some p) :
    ⟨namespaceOf d.value, p⟩ ∈ m'.bindings := by
  cases h with
  | @given a ha hd hn hl =>
    cases hw : a.name.wish with
    | none => simp [hw] at hp
    | some w =>
      obtain rfl : a.name.localPart = p := by simpa [hw] using hp
      exact hm (hrec.mem_bindings ha hd (by simp [hw]) hl)
  | generated n h0 hn hb =>
    cases hp
    rwa [namespaceOf_eq_some_iff.2 ⟨rfl, h0⟩]

/-- What is recorded is not what a prefix is generated for. -/
theorem ne_of_not_mem_bindings {p v s : Text} (hv : ⟨namespaceOf v, p⟩ ∈ m.bindings) (h0 : s ≠ [])
    (hn : ∀ p, ⟨some s, p⟩ ∉ m.bindings) : v ≠ s := by
  rintro rfl
  rw [namespaceOf_eq_some_iff.2 ⟨rfl, h0⟩] at hv
  exact hn p hv

/-- If a declaration has the prefix of one that is written for later attributes, the prefix is a
generated one, and the values are different. -/
theorem Origin.ne_of_pre_eq (h : Origin c m m₁ [a] d) (h' : Origin c m₁ m' as d')
    (hp : d.pre = d'.pre) (hk : ∀ b ∈ as, a.key ≠ b.key) (hm : m.bindings ⊆ m₁.bindings)
    (hrec : Recorded m (a :: as)) :
    ∃ n, d.pre = some (Counter.generated n) ∧ d.value ≠ d'.value := by
  cases h' with
  | generated n h0 hn =>
    have hb := h.mem_bindings (hrec.mono (fun _ h => h) (by simp)) hm hp
    exact ⟨n, hp, ne_of_not_mem_bindings hb h0 hn⟩
  | @given b hb' hd' hn' hl' =>
    cases h with
    | @given a' ha hd hn hl =>
      -- two declarations of one prefix have one key
      obtain rfl := List.mem_singleton.1 ha
      refine absurd ?_ (hk b hb')
      rw [key_of_isDeclaration hd, key_of_isDeclaration hd']
      cases hw : a'.name.wish <;> cases hw' : b.name.wish <;> simp only [hw, hw'] at hp
      · rw [hn ⟨hd, hw⟩, hn' ⟨hd', hw'⟩]
      · cases hp
      · cases hp
      · rw [show a'.name.localPart = b.name.localPart from Option.some.inj hp]
    | generated n h0 hn =>
      have hw : b.name.wish ≠ none := fun hw => by simp [hw] at hp
      have hb := hrec.mem_bindings (.tail _ hb') hd' hw hl'
      exact ⟨n, rfl, (ne_of_not_mem_bindings hb h0 hn).symm⟩

/-- The name that an attribute is written with stays the name that the prefix map gives it. -/
theorem Written.writtenName_eq (h : a.Written c m n ps m₁ n')
    (hp : ∀ {space wish p}, m₁.preferred? space wish = some p →
      m'.preferred? space wish = some p) : a.writtenName m' = a.writtenName m₁ := by
  cases h with
  | leftOut hd | declaration hd => simp [writtenName, hd]
  | plain hs => simp [writtenName, hs]
  | recorded hd hs hpre => simp [writtenName, hd, hs, hpre, hp hpre]
  | generated hd hs hpre =>
    have hnew := PrefixMap.preferred?_add (PrefixMap.preferred?_eq_none_iff.1 hpre)
      (Counter.generated n) a.name.wish
    simp [writtenName, hd, hs, hnew, hp hnew]

/-- Whether two attributes of a tag declare a generated prefix for different values. -/
def Redeclares (x y : QName × Text) : Prop :=
  ∃ n v v', v ≠ v' ∧ NsDecl.ofAttribute? x = some ⟨some (Counter.generated n), v⟩ ∧
    NsDecl.ofAttribute? y = some ⟨some (Counter.generated n), v'⟩

/-- Two declarations of one generated prefix for different values redeclare it. -/
theorem redeclares_of_pre (hp : d.pre = d'.pre)
    (h : ∃ n, d.pre = some (Counter.generated n) ∧ d.value ≠ d'.value) :
    Redeclares (d.name, d.value) (d'.name, d'.value) := by
  obtain ⟨n, hn, hv⟩ := h
  refine ⟨n, _, _, hv, ?_, ?_⟩
  · rw [NsDecl.ofAttribute?_name, ← hn]
  · rw [NsDecl.ofAttribute?_name, ← hn, hp]

/-- The attributes that are no declarations stand in the tag in their order. -/
theorem Written.ordinary_sublist (h : a.Written c m n ps m' n') :
    (([a].filter fun a => !a.isDeclaration).map fun a => (a.writtenName m', a.value)).Sublist
      (ps.flatMap Piece.shown) := by
  cases h with
  | leftOut hd | declaration hd => simp [hd]
  | plain hs =>
    have hd : a.isDeclaration = false := by simp [isDeclaration, hs]
    simp [hd, piece, writtenName, hs]
  | recorded hd hs hpre => simp [hd, piece, writtenName, hs, hpre]
  | generated hd hs hpre =>
    have hnew := PrefixMap.preferred?_add (PrefixMap.preferred?_eq_none_iff.1 hpre)
      (Counter.generated n) a.name.wish
    simp [hd, piece, writtenName, hs, hnew]

/-- The attributes that declare nothing are written in their order. -/
theorem WrittenAll.ordinary_sublist {seen : List (Option Text × Text)}
    (h : WrittenAll c seen m n as ps m' n') :
    ((as.filter fun a => !a.isDeclaration).map fun a => (a.writtenName m', a.value)).Sublist
      (ps.flatMap Piece.shown) := by
  induction h with
  | nil => exact .slnil
  | @cons _ _ _ m' _ _ _ a as _ _ _ ha has ih =>
    have hname := ha.writtenName_eq has.preferred?_eq
    rw [← List.singleton_append, List.filter_append, List.map_append, List.flatMap_append]
    refine .append ?_ ih
    convert ha.ordinary_sublist using 1
    exact List.map_congr_left fun b hb => by
      obtain rfl := List.mem_singleton.1 (List.mem_of_mem_filter hb)
      rw [hname]

/-- What a tag shows for one attribute that is duly named has different names. -/
theorem Written.pairwise (h : a.Written c m n ps m' n') (he : c.enforce = true)
    (hr : a.DulyNamed m') :
    (ps.flatMap Piece.shown).Pairwise fun x y => x.1.text ≠ y.1.text := by
  cases h with
  | leftOut => exact .nil
  | declaration | plain | recorded => simp [declarationPiece, piece]
  | @generated s hd hs hpre _ hc =>
    rw [he] at hc
    have hnew := PrefixMap.preferred?_add (PrefixMap.preferred?_eq_none_iff.1 hpre)
      (Counter.generated n) a.name.wish
    have hn := hr.not_isName hd hc (by simp [writtenName, hd, hs, hnew])
    simp only [writtenName, hd, hs, Option.bind_some, hnew] at hn
    simpa [piece] using fun ht => hn ⟨_, ht⟩

/-- What a tag shows for attributes that are duly named and share no name has different names, but
for prefixes that are declared twice. -/
theorem WrittenAll.pairwise {seen : List (Option Text × Text)}
    (h : WrittenAll c seen m n as ps m' n') (he : c.enforce = true)
    (hr : ∀ a ∈ as, a.DulyNamed m') (hs : ¬ SharesName m' as) (hrec : Recorded m as) :
    (ps.flatMap Piece.shown).Pairwise fun x y => x.1.text = y.1.text → Redeclares x y := by
  have hkeys := (h.nodup_key he).1
  induction h with
  | nil => exact .nil
  | @cons seen m m₁ m' n n₁ n' a as ps ps' hk ha has ih =>
    have hname : a.writtenName m' = a.writtenName m₁ := ha.writtenName_eq has.preferred?_eq
    have hd : a.DulyNamed m₁ := by
      rw [DulyNamed, ← hname]
      exact hr a (.head _)
    have hr' : ∀ b ∈ as, b.DulyNamed m' := fun b hb => hr b (.tail _ hb)
    have hs' : ¬ SharesName m' as := fun ⟨b, hb, b', hb', h⟩ =>
      hs ⟨b, .tail _ hb, b', .tail _ hb', h⟩
    rw [List.map_cons, List.nodup_cons] at hkeys
    rw [List.flatMap_append, List.pairwise_append]
    refine ⟨(ha.pairwise he hd).imp fun hne ht => absurd ht hne,
      ih hr' hs' (hrec.mono ha.bindings_subset (List.subset_cons_self _ _)) hkeys.2,
      fun x hx y hy ht => ?_⟩
    have hkey : ∀ b ∈ as, a.key ≠ b.key := fun b hb hk => hkeys.1 (hk ▸ List.mem_map_of_mem hb)
    rcases (ha.shows (fun _ hb => hb) id hx).origin_or_ordinary he (by simpa using hd) with
      ⟨d, hd, rfl⟩ | ⟨b, hb, hbd, rfl, hxn, hxc⟩ <;>
    rcases (has.shows hy).origin_or_ordinary he hr' with
      ⟨d', hd', rfl⟩ | ⟨b', hb', hbd', rfl, hyn, hyc⟩
    · have hp := NsDecl.pre_eq_of_text ht
      exact redeclares_of_pre hp (hd.ne_of_pre_eq hd' hp hkey ha.bindings_subset hrec)
    · exact absurd ⟨d, ht⟩ hyn
    · exact absurd ⟨d', ht.symm⟩ hxn
    · -- two names with one text: either the attributes have one key or they share the name
      obtain rfl := List.mem_singleton.1 hb
      have hq := QName.text_inj hxc hyc ht
      refine absurd ⟨b, .head _, b', .tail _ hb', hbd, hbd', fun hsp => ?_, hname.trans hq⟩ hs
      exact hkey b' hb' (Prod.ext hsp (congrArg QName.localPart hq))

end

end Attribute

namespace Resolution

section
variable {m m' : PrefixMap} {inherited : Option Text} {name : Name} {n t : Counter}
  {r : Resolution} {as : List Attribute} {d d' : NsDecl}

/-- The prefix declarations among some attributes are recorded for them. -/
theorem Way.recorded_attributes {enforce : Bool}
    (h : Way enforce (Declarations.collect m as) inherited name n r t) :
    Attribute.Recorded r.prefixes as := fun _ ha hp hx =>
  h.bindings_subset (Declarations.mem_bindings_collect_of_mem ha hp hx)

/-- A prefix that the tag declares for the element is recorded for its namespace. -/
theorem Way.mem_bindings_of_own {enforce : Bool} {p v : Text} {d : Declarations}
    (h : Way enforce d inherited name n r t) (ho : r.own = some ⟨some p, v⟩) :
    ⟨namespaceOf v, p⟩ ∈ r.prefixes.bindings := by
  cases h with
  | inPlace | recorded | ownDefault | default => cases ho
  | declared | generated =>
    cases ho
    rw [InForce.namespaceOf_getD name.space_ne_some_nil]
    exact PrefixMap.mem_bindings_add _ _ _

/-- If the declaration that the tag adds for the element has the prefix of one that is written for
the attributes, the prefix is a generated one, and the values are different. -/
theorem Way.ne_of_pre_eq
    (h : Way true (Declarations.collect m as) inherited name n r t) (ho : r.own = some d)
    (h' : Attribute.Origin ⟨true, Declarations.collect m as, r.dropsDefault⟩ r.prefixes m' as d')
    (hp : d.pre = d'.pre) : ∃ n, d.pre = some (Counter.generated n) ∧ d.value ≠ d'.value := by
  have hrec := h.recorded_attributes
  cases h' with
  | generated k h0 hn =>
    have hd : d = ⟨some (Counter.generated k), d.value⟩ := congrArg (NsDecl.mk · d.value) hp
    have hv := h.mem_bindings_of_own (ho.trans (congrArg some hd))
    exact ⟨k, hp, Attribute.ne_of_not_mem_bindings hv h0 hn⟩
  | @given b hb hd hn hl =>
    obtain ⟨m₁, hm, hl⟩ := hl
    simp only [Attribute.isLeftOut, Bool.or_eq_false_iff, decide_eq_false_iff_not] at hl
    cases hw : b.name.wish with
    | none =>
      -- the tag adds a default declaration only in place of those among the attributes
      rw [hw] at hl hp
      have hd : d = ⟨none, d.value⟩ := congrArg (NsDecl.mk · d.value) hp
      rw [h.dropsDefault (ho.trans (congrArg some hd))] at hl
      cases hl.2
    | some w =>
      have hbd : b.IsPrefixDeclaration := ⟨hd, by simp [hw]⟩
      have hbc := Declarations.mem_bindings_collect_of_mem (m := m) hb hbd hl.1
      rw [hw] at hl hp
      cases h with
      | inPlace | recorded | ownDefault => cases ho
      | default =>
        cases ho
        cases hp
      | @declared wish _ _ _ _ hbinds =>
        -- the attributes do not bind the wished prefix, so it was recorded and is left out
        cases ho
        obtain rfl : wish = b.name.localPart := Option.some.inj hp
        have hh : m₁.holds (namespaceOf b.value) b.name.localPart = true :=
          PrefixMap.holds_iff.2 (PrefixMap.mem_candidates_iff.2 (hm (List.mem_append_left _ hbc)))
        have hv : (Declarations.collect m as).valueOf? b.name.localPart = some b.value := by
          simpa [hh] using hl.2
        simp [Declarations.binds, hv] at hbinds
      | generated _ _ hc =>
        cases ho
        refine ⟨n, rfl, fun hv : name.space.getD [] = b.value => ?_⟩
        rw [← hv, InForce.namespaceOf_getD name.space_ne_some_nil] at hbc
        exact not_mem_bindings_of_candidate? hc _ hbc

end

end Resolution

namespace OpenElement

section
variable {scope : Scope} {name : Name} {attributes : List Attribute} {childless : Bool}
  {n n' : Counter} {ps : List Piece} {e : OpenElement}

/-- The names in a tag are different, as texts, if no generated prefix is declared for two values,
if no two attributes in different namespaces have one name, and if the attributes that have the
name of a declaration are those that are one. -/
theorem Started.nodup_names (h : Started true scope name attributes childless n ps e n')
    (ht : ¬ (StartTag.ofPieces ps).DeclaresTwice)
    (hs : ¬ Attribute.SharesName e.scope.prefixes attributes)
    (hr : ∀ a ∈ attributes, a.DulyNamed e.scope.prefixes) :
    (StartTag.ofPieces ps).names.Nodup := by
  suffices (StartTag.ofPieces ps).attributes.Pairwise fun x y =>
      x.1.text = y.1.text → Attribute.Redeclares x y by
    rw [StartTag.names, List.Nodup, List.pairwise_map]
    refine this.imp_of_mem fun {x y} hx hy hxy he => ht ?_
    obtain ⟨k, v, v', hv, hdx, hdy⟩ := hxy he
    exact ⟨k, v, v', hv, List.mem_filterMap.2 ⟨x, hx, hdx⟩, List.mem_filterMap.2 ⟨y, hy, hdy⟩⟩
  cases h with
  | @mk r m n₁ n₂ body hl hw ha =>
    rw [StartTag.ofPieces_start ha.spelled, List.pairwise_append]
    refine ⟨?_, ha.pairwise rfl hr hs hw.recorded_attributes, fun x hx y hy he => ?_⟩
    · cases r.own <;> simp [Piece.shown]
    obtain ⟨d, ho, rfl⟩ : ∃ d, r.own = some d ∧ (d.name, d.value) = x := by
      simpa [Piece.shown] using hx
    rcases (ha.shows hy).origin_or_ordinary rfl hr with ⟨d', hd', rfl⟩ | ⟨b, -, -, rfl, hn, -⟩
    · have hp := NsDecl.pre_eq_of_text he
      exact Attribute.redeclares_of_pre hp (hw.ne_of_pre_eq ho hd' hp)
    · exact absurd ⟨d, he⟩ hn

/-- A name that attributes in different namespaces share is repeated. -/
theorem Started.not_nodup_of_sharesName
    (h : Started true scope name attributes childless n ps e n')
    (hs : Attribute.SharesName e.scope.prefixes attributes) :
    ¬ (StartTag.ofPieces ps).names.Nodup := by
  intro hn
  obtain ⟨a, ha, b, hb, hda, hdb, hsp, hname⟩ := hs
  cases h with
  | @mk r m n₁ n₂ body hl hw hall =>
    have hsub := (hall.ordinary_sublist.trans
      (List.sublist_append_right (Piece.head r.name r.own).shown _)).map (·.1.text)
    rw [StartTag.names, StartTag.ofPieces_start hall.spelled] at hn
    have hinj := hn.sublist hsub
    rw [List.map_map] at hinj
    refine hsp (congrArg (·.name.space) (List.inj_on_of_nodup_map hinj
      (List.mem_filter.2 ⟨ha, by simp [hda]⟩) (List.mem_filter.2 ⟨hb, by simp [hdb]⟩) ?_))
    exact congrArg QName.text hname

end

end OpenElement

end XmlWriter
