import XmlWriter.Proofs.Reading.Settled
import XmlWriter.Proofs.Tag.Start

/-!
# Tags that use every prefix for one namespace

A start tag whose names and declarations agree with one meaning of the prefixes adds only
declarations that fit those in force, and the counter goes up by the number of prefixes that are
made up for the tag (`OpenElement.Started.fits`). A reader finds every ordinary attribute in it
(`OpenElement.Started.ordinary`).
-/

namespace XmlWriter

/-! ## Names and attributes that agree -/

/-- Whether a name that wishes for a prefix is in the namespace that the prefix means. -/
def Name.Agrees (f : Text → Text) (n : Name) : Prop :=
  ∀ p, n.wish = some p → IsFree p ∧ n.space = some (f p)

/-- The attributes that agree with a meaning of the prefixes: default declarations with any value,
declarations of prefixes for what they mean, and ordinary attributes with such names. -/
inductive Attribute.Agrees (f : Text → Text) (a : Attribute) : Prop
  | default (hd : a.IsDefaultDeclaration) (hl : a.name.localPart = xmlnsPrefix)
  | pre (hd : a.isDeclaration = true) (hw : a.name.wish = some xmlnsPrefix)
      (hl : IsFree a.name.localPart) (hv : a.value = f a.name.localPart)
  | ordinary (hd : a.isDeclaration = false) (hn : a.name.Agrees f)

section
variable {f : Text → Text} {a : Attribute}

/-- Only a default declaration named as one agrees with a meaning. -/
theorem Attribute.Agrees.defaultNamed (h : a.Agrees f) : a.DefaultNamed := by
  rintro ⟨hd, hw⟩
  cases h with
  | default _ hl => exact hl
  | pre _ hw' => rw [hw] at hw'; cases hw'
  | ordinary hd' => rw [hd] at hd'; cases hd'

/-- A prefix declaration that agrees is one of a prefix of the caller, for what it means. -/
theorem Attribute.Agrees.of_isPrefixDeclaration (h : a.Agrees f) (hp : a.IsPrefixDeclaration) :
    IsFree a.name.localPart ∧ a.value = f a.name.localPart := by
  cases h with
  | default hd => exact absurd hd.2 hp.2
  | pre _ _ hl hv => exact ⟨hl, hv⟩
  | ordinary hd => rw [hp.1] at hd; cases hd

end

/-! ## The declarations of a tag -/

namespace Piece

/-- The declarations that a reader finds in some pieces of a tag. -/
def declarations (ps : List Piece) : List NsDecl := (ps.flatMap shown).filterMap NsDecl.ofAttribute?

/-- How many prefixes have been made up for some pieces, each declared in one of its own. -/
def madeUp (ps : List Piece) : Nat :=
  ps.countP fun
    | .generated _ => true
    | _ => false

@[simp] theorem declarations_append (ps qs : List Piece) :
    declarations (ps ++ qs) = declarations ps ++ declarations qs := by
  simp [declarations]

@[simp] theorem madeUp_append (ps qs : List Piece) :
    madeUp (ps ++ qs) = madeUp ps + madeUp qs :=
  List.countP_append

@[simp] theorem madeUp_tagEnd (ps : List Piece) : madeUp (.tagEnd :: ps) = madeUp ps := rfl

@[simp] theorem madeUp_endTag (q : QName) (ps : List Piece) :
    madeUp (.endTag q :: ps) = madeUp ps :=
  rfl

end Piece

/-- A prefix map in which `xml` is recorded, and else only prefixes that can have been declared
before the one with number `k`. -/
structure PrefixMap.Knows (m : PrefixMap) (k : Int) : Prop where
  xml : ⟨some xmlNamespace, xmlPrefix⟩ ∈ m.bindings
  known : ∀ b ∈ m.bindings, IsKnown k b.pre

/-- One more prefix that can have been declared may be recorded. -/
theorem PrefixMap.Knows.add {m : PrefixMap} {k k' : Int} {space : Option Text} {p : Text}
    (hm : m.Knows k) (hk : k ≤ k') (hp : IsKnown k' p) : (m.add space p).Knows k' where
  xml := List.mem_append_left _ hm.xml
  known b hb := by
    rcases List.mem_append.1 hb with hb | hb
    · exact (hm.known b hb).mono hk
    · rw [List.mem_singleton] at hb
      exact hb ▸ hp

namespace Attribute

/-- Whether a declaration of a tag may come from an attribute, where the default declarations among
the attributes may have been dropped. -/
def IsOrigin (drops : Bool) (a : Attribute) (d : NsDecl) : Prop :=
  a.IsDefaultDeclaration ∧ drops = false ∧ d.pre = none ∨
    a.IsPrefixDeclaration ∧ d.pre = some a.name.localPart

/-- The declarations that stand in a tag for one attribute when the next prefix to be made up has
the number `k`, and the number after them. -/
inductive Declares (f : Text → Text) (drops : Bool) (k : Int) (a : Attribute) :
    List NsDecl → Int → Prop
  | none : Declares f drops k a [] k
  | origin {d : NsDecl} (hs : a.IsOrigin drops d) (hd : d.Fits f k k) : Declares f drops k a [d] k
  | made {d : NsDecl} (hp : d.pre = some (numbered k)) (hd : d.Fits f k (k + 1)) :
      Declares f drops k a [d] (k + 1)

/-- The declarations that stand in a tag for its attributes. -/
inductive DeclaresAll (f : Text → Text) (drops : Bool) :
    Int → List Attribute → List NsDecl → Int → Prop
  | nil {k : Int} : DeclaresAll f drops k [] [] k
  | cons {k k₁ k' : Int} {a : Attribute} {as : List Attribute} {ds ds' : List NsDecl}
      (ha : a.Declares f drops k ds k₁) (has : DeclaresAll f drops k₁ as ds' k') :
      DeclaresAll f drops k (a :: as) (ds ++ ds') k'

section
variable {f : Text → Text} {c : TagContext} {m m' : PrefixMap} {n n' : Counter} {k k' : Int}
  {a : Attribute} {as : List Attribute} {ps : List Piece}

@[simp] theorem madeUp_piece (a : Attribute) (pre : Option Text) : Piece.madeUp [a.piece pre] = 0 :=
  rfl

@[simp] theorem madeUp_declarationPiece (a : Attribute) : Piece.madeUp [a.declarationPiece] = 0 :=
  rfl

@[simp] theorem madeUp_generated (d : NsDecl) (a : Attribute) (pre : Option Text) :
    Piece.madeUp [.generated d, a.piece pre] = 1 :=
  rfl

/-- A written attribute declares what its name and value say. -/
@[simp] theorem declarations_piece (a : Attribute) (pre : Option Text) :
    Piece.declarations [a.piece pre] =
      (NsDecl.ofAttribute? (⟨pre, a.name.localPart⟩, a.value)).toList := by
  unfold Piece.declarations piece
  cases h : NsDecl.ofAttribute? (⟨pre, a.name.localPart⟩, a.value) <;> simp [h]

/-- A declaration that is not left out and passes its check declares what fits. -/
theorem Agrees.declares_declarationPiece (ha : a.Agrees f) (hf : IsMeaning f)
    (hd : a.isDeclaration = true) (hl : a.isLeftOut c m = false)
    (hfl : vet true a.declarationFlaw? = .ok ()) :
    a.Declares f c.dropsDefault k (Piece.declarations [a.declarationPiece]) k := by
  simp only [isLeftOut, Bool.or_eq_false_iff, decide_eq_false_iff_not] at hl
  have hx : a.value ≠ xmlnsNamespace := by
    intro hx
    rw [vet_true_eq_ok_iff, declarationFlaw?, if_pos hx] at hfl
    cases hfl
  rw [declarationPiece, declarations_piece]
  cases ha with
  | default hdef hlp =>
    rw [hdef.2] at hl
    rw [hdef.2, hlp]
    exact .origin (.inl ⟨hdef, hl.2, rfl⟩) (.default hl.1 hx)
  | pre _ hw hp hv =>
    have hne : a.name.localPart ≠ xmlPrefix := fun h => hl.1 (by rw [hv, h, hf.xml])
    have hfit : NsDecl.Fits f k ⟨some a.name.localPart, a.value⟩ k := hv ▸ .meant hp hne
    rw [hw]
    exact .origin (.inr ⟨⟨hd, by simp [hw]⟩, rfl⟩) hfit
  | ordinary hd' => rw [hd] at hd'; cases hd'

/-- The declaration of a prefix that is made up for an ordinary attribute fits. -/
theorem declares_generated {s : Text} (hm : m.Knows k) (hd : a.isDeclaration = false)
    (hs : a.name.space = some s) (hp : m.preferred? (some s) a.name.wish = none)
    (hc : a.Passes true) {drops : Bool} :
    a.Declares f drops k (Piece.declarations
      [.generated ⟨some (numbered k), s⟩, a.piece (some (numbered k))]) (k + 1) := by
  have hpx : some (numbered k) ≠ some xmlnsPrefix := fun h =>
    numbered_ne_xmlnsPrefix k (Option.some.inj h)
  have h0 : s ≠ [] := by
    rintro rfl
    exact a.name.namespacePart.value?_ne_some_nil hs
  have hx : s ≠ xmlNamespace := by
    rintro rfl
    have hxml := PrefixMap.mem_candidates_iff.2 hm.xml
    rw [PrefixMap.preferred?_eq_none_iff.1 hp] at hxml
    cases hxml
  have hd' : s ≠ xmlnsNamespace := ne_xmlnsNamespace hd hs
  rw [← List.singleton_append, Piece.declarations_append, declarations_piece,
    hc.ofAttribute?_eq_none (by simp) hpx]
  exact .made rfl (.made h0 hx hd')

/-- What is written for an attribute that agrees declares what fits, and counts the prefixes that
are made up. -/
theorem Written.declares (h : a.Written c m n ps m' n') (he : c.enforce = true) (hf : IsMeaning f)
    (ha : a.Agrees f) (hm : m.Knows k) (h1 : 1 ≤ k) (hn : n = .ofInt k)
    (hk : k + Piece.madeUp ps ≤ Binary64.exactLimit) :
    n' = .ofInt (k + Piece.madeUp ps) ∧ m'.Knows (k + Piece.madeUp ps) ∧
      a.Declares f c.dropsDefault k (Piece.declarations ps) (k + Piece.madeUp ps) := by
  cases h with
  | leftOut =>
    rw [show Piece.madeUp [] = 0 from rfl, Int.natCast_zero, Int.add_zero]
    exact ⟨hn, hm, .none⟩
  | declaration hd hl hfl hc =>
    rw [he] at hfl
    rw [madeUp_declarationPiece, Int.natCast_zero, Int.add_zero]
    exact ⟨hn, hm, ha.declares_declarationPiece hf hd hl hfl⟩
  | plain hs hc =>
    rw [he] at hc
    rw [madeUp_piece, Int.natCast_zero, Int.add_zero, declarations_piece,
      hc.ofAttribute?_eq_none (fun _ => hs) (by simp)]
    exact ⟨hn, hm, .none⟩
  | @recorded s p hd hs hp hc =>
    rw [he] at hc
    have hb := PrefixMap.mem_candidates_iff.1 (PrefixMap.mem_candidates_of_preferred? hp)
    have hpx : some p ≠ some xmlnsPrefix := fun h =>
      (hm.known _ hb).ne_xmlnsPrefix (Option.some.inj h)
    rw [madeUp_piece, Int.natCast_zero, Int.add_zero, declarations_piece,
      hc.ofAttribute?_eq_none (by simp) hpx]
    exact ⟨hn, hm, .none⟩
  | @generated s hd hs hp hv hc =>
    rw [he] at hc
    rw [madeUp_generated, Int.natCast_one] at hk ⊢
    have hlim : k.natAbs ≤ Binary64.exactLimit ∧ (k + 1).natAbs ≤ Binary64.exactLimit := by omega
    have hnew : Counter.generated n = numbered k := by
      rw [hn, Counter.generated_ofInt hlim.1]
    rw [hnew]
    exact ⟨by rw [hn, Binary64.next_ofInt hlim.1 hlim.2],
      hm.add (by omega) (.inr ⟨k, h1, by omega, rfl⟩), declares_generated hm hd hs hp hc⟩

/-- What is written for attributes that agree declares what fits. -/
theorem WrittenAll.declaresAll {seen : List (Option Text × Text)}
    (h : WrittenAll c seen m n as ps m' n') (he : c.enforce = true) (hf : IsMeaning f)
    (ha : ∀ a ∈ as, a.Agrees f) (hm : m.Knows k) (h1 : 1 ≤ k) (hn : n = .ofInt k)
    (hk : k + Piece.madeUp ps ≤ Binary64.exactLimit) :
    n' = .ofInt (k + Piece.madeUp ps) ∧ m'.Knows (k + Piece.madeUp ps) ∧
      DeclaresAll f c.dropsDefault k as (Piece.declarations ps) (k + Piece.madeUp ps) := by
  induction h generalizing k with
  | nil =>
    rw [show Piece.madeUp [] = 0 from rfl, Int.natCast_zero, Int.add_zero]
    exact ⟨hn, hm, .nil⟩
  | cons _ hw _ ih =>
    rw [Piece.madeUp_append, Int.natCast_add, ← Int.add_assoc] at hk ⊢
    obtain ⟨hn₁, hm₁, hd₁⟩ := hw.declares he hf (ha _ (.head _)) hm h1 hn (by omega)
    obtain ⟨hn', hm', hds⟩ := ih (fun a h => ha a (.tail _ h)) hm₁ (by omega) hn₁ hk
    rw [Piece.declarations_append]
    exact ⟨hn', hm', .cons hd₁ hds⟩

end

section
variable {f : Text → Text} {drops : Bool} {k k' : Int} {a b : Attribute} {as : List Attribute}
  {d d' : NsDecl} {ds : List NsDecl}

/-- A declaration that comes from an attribute that agrees is not for a numbered prefix. -/
theorem IsOrigin.pre_ne_numbered (h : a.IsOrigin drops d) (ha : a.Agrees f) (j : Int) :
    d.pre ≠ some (numbered j) := by
  rcases h with ⟨-, -, hp⟩ | ⟨hd, hp⟩
  · rw [hp]
    exact nofun
  · rw [hp]
    exact fun h => (ha.of_isPrefixDeclaration hd).1.2.2 j (Option.some.inj h)

/-- Attributes that agree and that declarations of one prefix come from have one key. -/
theorem IsOrigin.key_eq (h : a.IsOrigin drops d) (h' : b.IsOrigin drops d') (hp : d.pre = d'.pre)
    (ha : a.Agrees f) (hb : b.Agrees f) : a.key = b.key := by
  have hdecl : a.isDeclaration = true ∧ b.isDeclaration = true := by
    rcases h with ⟨hd, -⟩ | ⟨hd, -⟩ <;> rcases h' with ⟨hd', -⟩ | ⟨hd', -⟩ <;>
      exact ⟨hd.1, hd'.1⟩
  have hl : a.name.localPart = b.name.localPart := by
    rcases h with ⟨hd, -, hn⟩ | ⟨-, hn⟩ <;> rcases h' with ⟨hd', -, hn'⟩ | ⟨-, hn'⟩ <;>
      rw [hn, hn'] at hp
    · rw [ha.defaultNamed hd, hb.defaultNamed hd']
    · cases hp
    · cases hp
    · exact Option.some.inj hp
  rw [key_of_isDeclaration hdecl.1, key_of_isDeclaration hdecl.2, hl]

/-- An attribute never sets the count of generated prefixes back. -/
theorem Declares.le (h : a.Declares f drops k ds k') : k ≤ k' := by
  cases h with
  | none | origin => exact Int.le_refl k
  | made => omega

/-- A list of attributes never sets the count of generated prefixes back. -/
theorem DeclaresAll.le (h : DeclaresAll f drops k as ds k') : k ≤ k' := by
  induction h with
  | nil => exact Int.le_refl _
  | cons ha _ ih => exact Int.le_trans ha.le ih

/-- Under a meaning of the prefixes every declaration of a tag is legal. -/
theorem DeclaresAll.isLegal (h : DeclaresAll f drops k as ds k') (hf : IsMeaning f) :
    ∀ d ∈ ds, d.IsLegal := by
  induction h with
  | nil => exact nofun
  | cons ha _ ih =>
    intro d hd
    rcases List.mem_append.1 hd with hd | hd
    · cases ha with
      | none => cases hd
      | origin _ hfit | made _ hfit => exact List.mem_singleton.1 hd ▸ hfit.isLegal hf
    · exact ih d hd

/-- The declarations of the attributes leave things settled. -/
theorem DeclaresAll.settled (h : DeclaresAll f drops k as ds k') (h1 : 1 ≤ k) {s : InForce}
    (hs : s.Settled f k) : InForce.Settled f k' (ds.reverse ++ s) := by
  induction h generalizing s with
  | nil => exact hs
  | cons ha _ ih =>
    rw [List.reverse_append, List.append_assoc]
    refine ih (Int.le_trans h1 ha.le) ?_
    cases ha with
    | none => exact hs
    | origin _ hfit | made _ hfit => exact hs.cons h1 hfit

/-- A declaration that stands in a tag for its attributes comes from one of them, or has been made
up for one. -/
theorem DeclaresAll.origin (h : DeclaresAll f drops k as ds k') (hd : d ∈ ds) :
    (∃ a ∈ as, a.IsOrigin drops d) ∨ ∃ j, k ≤ j ∧ d.pre = some (numbered j) := by
  induction h with
  | nil => cases hd
  | cons ha _ ih =>
    rcases List.mem_append.1 hd with hd | hd
    · cases ha with
      | none => cases hd
      | origin hs => exact .inl ⟨_, .head _, List.mem_singleton.1 hd ▸ hs⟩
      | made hp => exact .inr ⟨_, Int.le_refl _, List.mem_singleton.1 hd ▸ hp⟩
    · rcases ih hd with ⟨a, hm, hs⟩ | ⟨j, hj, hp⟩
      · exact .inl ⟨a, .tail _ hm, hs⟩
      · exact .inr ⟨j, Int.le_trans ha.le hj, hp⟩

/-- Attributes that agree and have different keys do not declare a prefix twice. -/
theorem DeclaresAll.nodup_pre (h : DeclaresAll f drops k as ds k') (h1 : 1 ≤ k)
    (ha : ∀ a ∈ as, a.Agrees f) (hk : (as.map key).Nodup) : (ds.map (·.pre)).Nodup := by
  induction h with
  | nil => exact .nil
  | @cons k k₁ k' a as ds ds' hd hds ih =>
    have h1' := Int.le_trans h1 hd.le
    rw [List.map_cons, List.nodup_cons] at hk
    have hrest := ih h1' (fun b hb => ha b (.tail _ hb)) hk.2
    have key : ∀ b ∈ as, b.key ≠ a.key := fun b hb he => hk.1 (List.mem_map.2 ⟨b, hb, he⟩)
    cases hd with
    | none => exact hrest
    | @origin d hs _ =>
      refine List.nodup_cons.2 ⟨fun hm => ?_, hrest⟩
      obtain ⟨d', hd', hp⟩ := List.mem_map.1 hm
      rcases hds.origin hd' with ⟨b, hb, hs'⟩ | ⟨j, -, hj⟩
      · exact key b hb (hs'.key_eq hs hp (ha b (.tail _ hb)) (ha a (.head _)))
      · exact hs.pre_ne_numbered (ha a (.head _)) j (hp.symm.trans hj)
    | @made d hn _ =>
      refine List.nodup_cons.2 ⟨fun hm => ?_, hrest⟩
      obtain ⟨d', hd', hp⟩ := List.mem_map.1 hm
      have hp : d'.pre = some (numbered k) := hp.trans hn
      rcases hds.origin hd' with ⟨b, hb, hs'⟩ | ⟨j, hj, hj'⟩
      · exact hs'.pre_ne_numbered (ha b (.tail _ hb)) k hp
      · rw [hp] at hj'
        have := numbered_inj (Option.some.inj hj')
        omega

end

end Attribute

/-! ## The whole tag -/

/-- Whether an element agrees with a meaning of the prefixes: its name does, it is not in the
namespace of declarations, and its attributes do. -/
structure TagAgrees (f : Text → Text) (n : Name) (as : List Attribute) : Prop where
  name : n.Agrees f
  space : n.space ≠ some xmlnsNamespace
  attributes : ∀ a ∈ as, a.Agrees f

section
variable {f : Text → Text} {m : PrefixMap} {as : List Attribute} {k : Int} {inherited : Option Text}
  {name : Name} {n t : Counter} {r : Resolution}

/-- Collecting attributes that agree records only prefixes of the caller. -/
theorem PrefixMap.Knows.collect (hm : m.Knows k) (ha : ∀ a ∈ as, a.Agrees f) :
    (Declarations.collect m as).prefixes.Knows k where
  xml := Declarations.bindings_subset_collect hm.xml
  known b hb := by
    rcases Declarations.mem_bindings_collect hb with hb | ⟨a, hma, hp, -, -, rfl⟩
    · exact hm.known b hb
    · exact .inl ((ha a hma).of_isPrefixDeclaration hp).1

/-- Where a namespace has no prefix, no attribute that agrees declares one that means it. -/
theorem Attribute.Agrees.localPart_ne {a : Attribute} {p : Text} {wish : Option Text}
    (ha : a.Agrees f) (hf : IsMeaning f) (hm : (Declarations.collect m as).prefixes.Knows k)
    (hc : Resolution.candidate? (Declarations.collect m as) (some (f p)) wish = none) (hma : a ∈ as)
    (hp : a.IsPrefixDeclaration) : a.name.localPart ≠ p := by
  rintro rfl
  have hv := (ha.of_isPrefixDeclaration hp).2
  have hx : a.value ≠ xmlNamespace := by
    intro hx
    rw [← hv, hx] at hc
    exact Resolution.not_mem_bindings_of_candidate? hc _ hm.xml
  have hb := Declarations.mem_bindings_collect_of_mem (m := m) hma hp hx
  rw [hv, namespaceOf_eq_some_iff.2 ⟨rfl, hf.ne_nil _⟩] at hb
  exact Resolution.not_mem_bindings_of_candidate? hc _ hb

/-- What a tag that agrees declares for its name fits and does not come from an attribute as well;
and no prefix is made up for the name. -/
theorem Resolution.Way.fits
    (h : Way true (Declarations.collect m as) inherited name n r t) (hf : IsMeaning f)
    (ht : TagAgrees f name as) (hm : m.Knows k) :
    t = n ∧ r.prefixes.Knows k ∧
      ∀ d, r.own = some d → d.Fits f k k ∧ ∀ a ∈ as, ¬ a.IsOrigin r.dropsDefault d := by
  have hmc := hm.collect ht.attributes
  cases h with
  | inPlace | recorded | ownDefault => exact ⟨rfl, hmc, nofun⟩
  | @declared wish _ _ hc hw hb hv =>
    obtain ⟨hfree, hs⟩ := ht.name wish hw
    rw [hs] at hc ⊢
    have hx : wish ≠ xmlPrefix := by
      rintro rfl
      rw [hf.xml] at hc
      exact not_mem_bindings_of_candidate? hc _ hmc.xml
    refine ⟨rfl, hmc.add (Int.le_refl k) (.inl hfree), fun d hd => ?_⟩
    cases hd
    refine ⟨.meant hfree hx, ?_⟩
    rintro a ha (⟨-, -, hp⟩ | ⟨hp, hl⟩)
    · cases hp
    · exact (ht.attributes a ha).localPart_ne hf hmc hc ha hp (Option.some.inj hl).symm
  | @generated wish _ _ hc hw hb hv =>
    -- the attributes would have to bind the prefix to something else
    exfalso
    rw [(ht.name wish hw).2] at hc
    obtain ⟨v, hl⟩ := Option.isSome_iff_exists.1 hb
    obtain ⟨l₁, l₂, hbd, -⟩ := List.lookup_eq_some_iff.1 hl
    have hm' : (wish, v) ∈ (Declarations.collect m as).bound := by simp [hbd]
    obtain ⟨a, ha, hp, -, hl, -⟩ := Declarations.mem_bound_collect hm'
    exact (ht.attributes a ha).localPart_ne hf hmc hc ha hp hl
  | default _ hc hw hd hv =>
    refine ⟨rfl, hmc, fun d hd => ?_⟩
    cases hd
    have hne : ∀ v, name.space ≠ some v → v ≠ [] → name.space.getD [] ≠ v := by
      intro v hs hv
      cases hsp : name.space with
      | none => exact hv.symm
      | some s => exact fun he => hs (hsp ▸ congrArg some he)
    refine ⟨.default (hne _ (fun hs => ?_) (by decide)) (hne _ ht.space (by decide)), ?_⟩
    · rw [hs] at hc
      exact not_mem_bindings_of_candidate? hc _ hmc.xml
    · rintro a ha (⟨-, hdr, -⟩ | ⟨-, hp⟩)
      · cases hdr
      · cases hp

end

/-- A start tag that adds only declarations that fit, where the next prefix to be made up is the one
with number `k` before it and the one with number `k'` after it. -/
structure StartTag.Fits (f : Text → Text) (k : Int) (t : StartTag) (k' : Int) : Prop where
  isLegal : ∀ d ∈ t.declarations, d.IsLegal
  nodup : (t.declarations.map (·.pre)).Nodup
  settled : ∀ s : InForce, s.Settled f k → InForce.Settled f k' (t.declarations.reverse ++ s)

/-- What is declared in a tag that fits is an NCName. -/
theorem StartTag.Fits.isNCName {f : Text → Text} {k k' : Int} {t : StartTag} {d : NsDecl} {p : Text}
    (h : t.Fits f k k') (hd : d ∈ t.declarations) (hp : d.pre = some p) : IsNCName p :=
  ((h.settled [] InForce.settled_nil).known d (by simpa using hd) p hp).isNCName

namespace OpenElement

section
variable {f : Text → Text} {scope : Scope} {name : Name} {attributes : List Attribute}
  {childless : Bool} {n n' : Counter} {ps : List Piece} {e : OpenElement} {k : Int}

/-- A start tag that agrees adds declarations that fit and records prefixes that it declares, and
the counter goes up by the number of prefixes that are made up. -/
theorem Started.fits (h : Started true scope name attributes childless n ps e n') (hf : IsMeaning f)
    (ht : TagAgrees f name attributes) (hm : scope.prefixes.Knows k) (h1 : 1 ≤ k)
    (hn : n = .ofInt k) (hk : k + Piece.madeUp ps ≤ Binary64.exactLimit) :
    n' = .ofInt (k + Piece.madeUp ps) ∧ e.scope.prefixes.Knows (k + Piece.madeUp ps) ∧
      (StartTag.ofPieces ps).Fits f k (k + Piece.madeUp ps) := by
  cases h with
  | @mk r m n₁ _ body _ hr ha =>
    obtain ⟨rfl, hmr, hown⟩ := hr.fits hf ht hm
    have hcount : Piece.madeUp (.head r.name r.own :: (body ++ slash name childless)) =
        Piece.madeUp body := by
      cases childless <;> simp [Piece.madeUp, slash]
    rw [hcount] at hk ⊢
    obtain ⟨hn', hm', hds⟩ := ha.declaresAll rfl hf ht.attributes hmr h1 hn hk
    refine ⟨hn', hm', ?_⟩
    have hdecl := StartTag.declarations_start ha.spelled r.name r.own name childless
    have hnodup := hds.nodup_pre h1 ht.attributes (ha.nodup_key rfl).1
    cases ho : r.own with
    | none =>
      rw [ho] at hdecl
      refine ⟨?_, ?_, fun s hs => ?_⟩ <;> rw [hdecl]
      · exact hds.isLegal hf
      · exact hnodup
      · exact hds.settled h1 hs
    | some d =>
      obtain ⟨hfit, hsrc⟩ := hown d ho
      rw [ho] at hdecl
      refine ⟨?_, ?_, fun s hs => ?_⟩ <;> rw [hdecl, Option.toList_some, List.singleton_append]
      · intro d' hd'
        rcases List.mem_cons.1 hd' with rfl | hd'
        · exact hfit.isLegal hf
        · exact hds.isLegal hf d' hd'
      · refine List.nodup_cons.2 ⟨fun hm => ?_, hnodup⟩
        obtain ⟨d', hd', hp⟩ := List.mem_map.1 hm
        rcases hds.origin hd' with ⟨a, ha, hs⟩ | ⟨j, -, hj⟩
        · refine hsrc a ha ?_
          rw [Attribute.IsOrigin, hp] at hs
          exact hs
        · exact hfit.pre_ne_numbered rfl j (hp.symm.trans hj)
      · rw [List.reverse_cons, List.append_assoc, List.singleton_append]
        exact hds.settled h1 (hs.cons h1 hfit)

/-- In a tag that agrees a reader finds every ordinary attribute. -/
theorem Started.ordinary (h : Started true scope name attributes childless n ps e n')
    (ht : TagAgrees f name attributes) (hm : e.scope.prefixes.Knows k) :
    List.Forall₂ (fun a x => x = (⟨x.1.pre, a.name.localPart⟩, a.value) ∧
        Attribute.RecordedAs e.scope.prefixes a.name.space x.1.pre ∧ a.Passes true)
      (attributes.filter fun a => !a.isDeclaration) (StartTag.ofPieces ps).ordinary := by
  cases h with
  | mk _ _ ha =>
    have hn : ∀ a ∈ attributes, a.DefaultNamed := fun a h => (ht.attributes a h).defaultNamed
    rw [StartTag.ordinary_start ha.spelled]
    refine (ha.spelled.ordinary hn).2 (ha.spelled.length_ordinary hn ?_)
    rintro a pre ⟨hr, hc⟩
    refine hc.ofAttribute?_eq_none ?_ ?_
    · rintro rfl
      rcases hr with ⟨hs, -⟩ | ⟨_, _, -, hp, -⟩
      · exact hs
      · cases hp
    · rintro rfl
      rcases hr with ⟨-, hp⟩ | ⟨_, _, -, hp, hb⟩
      · cases hp
      · exact (hm.known _ hb).ne_xmlnsPrefix (Option.some.inj hp).symm

end

end OpenElement

end XmlWriter
