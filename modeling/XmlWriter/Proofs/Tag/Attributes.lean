import XmlWriter.Proofs.Tag.Resolution
import XmlWriter.Tag.Attributes

/-!
# What is written for the attributes of a tag

`Attribute.Written` lists what writing one attribute can do when it ends well, and
`Attribute.WrittenAll` chains it over the attributes of a tag, with the prefix map and the counter
passed from each to the next. `Attribute.writtenAll_of_ends` says that the writer does nothing else.
With checks enforced, no two attributes have the same key (`Attribute.WrittenAll.nodup_key`), every
attribute has been left out or is there (`Attribute.WrittenAll.leftOut_or_mem`), and what was
recorded on the way stands as a declaration in the tag (`Attribute.WrittenAll.mem_bindings`).
-/

namespace XmlWriter

namespace Attribute

/-- The checks that every attribute is put to that is written. -/
def Passes (enforce : Bool) (a : Attribute) : Prop :=
  vet enforce a.nameFlaw? = .ok () ∧ vet enforce (AttValue.flaw? a.value) = .ok ()

/-- The piece that an attribute is written as, with a prefix. -/
def piece (a : Attribute) (pre : Option Text) : Piece := .attribute ⟨pre, a.name.localPart⟩ a.value

/-- The piece that a declaration is written as. -/
def declarationPiece (a : Attribute) : Piece := a.piece (a.name.wish.map fun _ => xmlnsPrefix)

/-- The name that an attribute has in a tag which leaves the prefix map `m`. -/
def writtenName (m : PrefixMap) (a : Attribute) : QName where
  pre :=
    if a.isDeclaration then a.name.wish.map fun _ => xmlnsPrefix
    else a.name.space.bind fun s => m.preferred? (some s) a.name.wish
  localPart := a.name.localPart

/-- What writing one attribute does when it ends well: what it hands on, and the prefix map and the
counter for the next one. -/
inductive Written (c : TagContext) (m : PrefixMap) (n : Counter) (a : Attribute) :
    List Piece → PrefixMap → Counter → Prop
  | leftOut (hd : a.isDeclaration = true) (h : a.isLeftOut c m = true) : Written c m n a [] m n
  | declaration (hd : a.isDeclaration = true) (h : a.isLeftOut c m = false)
      (hf : vet c.enforce a.declarationFlaw? = .ok ()) (hc : a.Passes c.enforce) :
      Written c m n a [a.declarationPiece] m n
  | plain (hs : a.name.space = none) (hc : a.Passes c.enforce) : Written c m n a [a.piece none] m n
  | recorded {space pre : Text} (hd : a.isDeclaration = false) (hs : a.name.space = some space)
      (hp : m.preferred? (some space) a.name.wish = some pre) (hc : a.Passes c.enforce) :
      Written c m n a [a.piece (some pre)] m n
  | generated {space : Text} (hd : a.isDeclaration = false) (hs : a.name.space = some space)
      (hp : m.preferred? (some space) a.name.wish = none)
      (hv : vet c.enforce (AttValue.flaw? space) = .ok ()) (hc : a.Passes c.enforce) :
      Written c m n a
        [.generated ⟨some (Counter.generated n), space⟩, a.piece (some (Counter.generated n))]
        (m.add (some space) (Counter.generated n)) n.next

/-- What writing attributes one after the other does when it ends well. The keys of the attributes
before them are given. -/
inductive WrittenAll (c : TagContext) : List (Option Text × Text) → PrefixMap → Counter →
    List Attribute → List Piece → PrefixMap → Counter → Prop
  | nil {seen : List (Option Text × Text)} {m : PrefixMap} {n : Counter} :
      WrittenAll c seen m n [] [] m n
  | cons {seen : List (Option Text × Text)} {m m' m'' : PrefixMap} {n n' n'' : Counter}
      {a : Attribute} {as : List Attribute} {ps ps' : List Piece}
      (hk : vet c.enforce (a.duplicateFlaw? seen) = .ok ()) (ha : a.Written c m n ps m' n')
      (has : WrittenAll c (a.key :: seen) m' n' as ps' m'' n'') :
      WrittenAll c seen m n (a :: as) (ps ++ ps') m'' n''

/-! ## The writer does nothing else -/

/-- An attribute that passes its checks is handed on as one piece. -/
theorem ends_writeWith {enforce : Bool} {a : Attribute} {pre : Option Text} {u : Unit}
    {n t : Counter} {ps : List Piece} :
    (a.writeWith enforce pre).Ends n ps u t ↔ a.Passes enforce ∧ ps = [a.piece pre] ∧ t = n := by
  simp only [writeWith, Emit.ends_demand_bind, Emit.ends_write, Passes, piece, and_assoc]

/-- A generated prefix is declared in one piece, and the counter moves on by one. -/
theorem ends_declarePrefix {enforce : Bool} {space pre : Text} {n t : Counter} {ps : List Piece} :
    (declarePrefix enforce space).Ends n ps pre t ↔
      vet enforce (AttValue.flaw? space) = .ok () ∧
        ps = [.generated ⟨some (Counter.generated n), space⟩] ∧
        pre = Counter.generated n ∧ t = n.next := by
  simp only [declarePrefix, Emit.ends_bind, Counter.ends_take, Emit.ends_demand, Emit.ends_write,
    Emit.ends_pure]
  constructor
  · rintro ⟨_, _, _, _, ⟨rfl, rfl, rfl⟩, ⟨_, _, _, _, ⟨h, rfl, rfl⟩,
      ⟨_, _, _, _, ⟨rfl, rfl⟩, ⟨rfl, rfl, rfl⟩, rfl⟩, rfl⟩, rfl⟩
    exact ⟨h, rfl, rfl, rfl⟩
  · rintro ⟨h, rfl, rfl, rfl⟩
    exact ⟨[], _, _, _, ⟨rfl, rfl, rfl⟩, ⟨[], (), _, _, ⟨h, rfl, rfl⟩,
      ⟨_, (), _, [], ⟨rfl, rfl⟩, ⟨rfl, rfl, rfl⟩, rfl⟩, rfl⟩, rfl⟩

/-- Writing an attribute that ends well does one of the things listed. -/
theorem written_of_ends {c : TagContext} {m m' : PrefixMap} {a : Attribute} {n n' : Counter}
    {ps : List Piece} (h : (a.write c m).Ends n ps m' n') : a.Written c m n ps m' n' := by
  unfold write at h
  split at h
  next hs =>
    simp only [Emit.ends_bind, ends_writeWith, Emit.ends_pure] at h
    obtain ⟨_, _, _, _, ⟨hc, rfl, rfl⟩, ⟨rfl, rfl, rfl⟩, rfl⟩ := h
    exact .plain hs hc
  next space hs =>
    by_cases hd : a.isDeclaration = true
    · rw [if_pos hd] at h
      simp only [Emit.ends_bind, Emit.ends_pure] at h
      obtain ⟨_, _, _, _, h, ⟨rfl, rfl, rfl⟩, rfl⟩ := h
      unfold writeDeclaration at h
      by_cases hl : a.isLeftOut c m' = true
      · rw [if_pos hl, Emit.ends_pure] at h
        obtain ⟨rfl, -, rfl⟩ := h
        exact .leftOut hd hl
      · rw [if_neg hl] at h
        simp only [Emit.ends_demand_bind, ends_writeWith] at h
        obtain ⟨hf, hc, rfl, rfl⟩ := h
        exact .declaration hd (by simpa using hl) hf hc
    · rw [if_neg hd] at h
      have hd' : a.isDeclaration = false := by simpa using hd
      split at h
      next pre hp =>
        simp only [Emit.ends_bind, ends_writeWith, Emit.ends_pure] at h
        obtain ⟨_, _, _, _, ⟨hc, rfl, rfl⟩, ⟨rfl, rfl, rfl⟩, rfl⟩ := h
        exact .recorded hd' hs hp hc
      next hp =>
        simp only [Emit.ends_bind, ends_writeWith, ends_declarePrefix, Emit.ends_pure] at h
        obtain ⟨_, _, _, _, ⟨hv, rfl, rfl, rfl⟩, ⟨_, _, _, _, ⟨hc, rfl, rfl⟩,
          ⟨rfl, rfl, rfl⟩, rfl⟩, rfl⟩ := h
        exact .generated hd' hs hp hv hc

/-- Writing attributes that ends well does one of the things listed for each of them. -/
theorem writtenAll_of_ends {c : TagContext} {seen : List (Option Text × Text)} {m m' : PrefixMap}
    {as : List Attribute} {n n' : Counter} {ps : List Piece}
    (h : (writeAll c seen m as).Ends n ps m' n') : WrittenAll c seen m n as ps m' n' := by
  induction as generalizing seen m n ps with
  | nil =>
    rw [writeAll, Emit.ends_pure] at h
    obtain ⟨rfl, rfl, rfl⟩ := h
    exact .nil
  | cons a as ih =>
    obtain ⟨hk, h⟩ := Emit.ends_demand_bind.1 h
    obtain ⟨_, _, _, _, ha, has, rfl⟩ := Emit.ends_bind.1 h
    exact .cons hk (written_of_ends ha) (ih has)

/-! ## What is left in the tag and in the map -/

/-- The prefix that a name in a namespace has by a prefix map: none for a name in no namespace, and
else one that is recorded for the namespace. -/
def RecordedAs (m : PrefixMap) (space pre : Option Text) : Prop :=
  space = none ∧ pre = none ∨ ∃ s p, space = some s ∧ pre = some p ∧ ⟨some s, p⟩ ∈ m.bindings

/-- What stands in a tag for attributes, one after the other: nothing or itself for a declaration,
and for any other attribute itself, with a prefix that `R` allows it and after a generated
declaration, if it needed one. -/
inductive Spelled (R : Attribute → Option Text → Prop) : List Attribute → List Piece → Prop
  | nil : Spelled R [] []
  | leftOut {a : Attribute} {as : List Attribute} {ps : List Piece}
      (hd : a.isDeclaration = true) (has : Spelled R as ps) : Spelled R (a :: as) ps
  | declaration {a : Attribute} {as : List Attribute} {ps : List Piece}
      (hd : a.isDeclaration = true) (has : Spelled R as ps) :
      Spelled R (a :: as) (a.declarationPiece :: ps)
  | named {a : Attribute} {as : List Attribute} {ps : List Piece} {pre : Option Text}
      (hd : a.isDeclaration = false) (hR : R a pre) (has : Spelled R as ps) :
      Spelled R (a :: as) (a.piece pre :: ps)
  | generated {a : Attribute} {as : List Attribute} {ps : List Piece} {pre : Option Text}
      {d : NsDecl} (hd : a.isDeclaration = false) (hR : R a pre) (has : Spelled R as ps) :
      Spelled R (a :: as) (.generated d :: a.piece pre :: ps)

/-- A weaker condition on the prefixes allows at least as much. -/
theorem Spelled.mono {R R' : Attribute → Option Text → Prop} {as : List Attribute}
    {ps : List Piece} (h : Spelled R as ps) (hR : ∀ a pre, a ∈ as → R a pre → R' a pre) :
    Spelled R' as ps := by
  induction h with
  | nil => exact .nil
  | leftOut hd _ ih => exact .leftOut hd (ih fun a pre ha => hR a pre (.tail _ ha))
  | declaration hd _ ih => exact .declaration hd (ih fun a pre ha => hR a pre (.tail _ ha))
  | named hd h _ ih =>
    exact .named hd (hR _ _ (.head _) h) (ih fun a pre ha => hR a pre (.tail _ ha))
  | generated hd h _ ih =>
    exact .generated hd (hR _ _ (.head _) h) (ih fun a pre ha => hR a pre (.tail _ ha))

section
variable {c : TagContext} {seen : List (Option Text × Text)} {m m' : PrefixMap} {n n' : Counter}
  {a : Attribute} {as : List Attribute} {ps : List Piece}

/-- Writing an attribute only adds to the recorded prefixes. -/
theorem Written.bindings_subset (h : a.Written c m n ps m' n') : m.bindings ⊆ m'.bindings := by
  cases h with
  | leftOut | declaration | plain | recorded => exact fun _ hb => hb
  | generated => exact fun _ hb => List.mem_append_left _ hb

/-- No recorded prefix is lost on the way. -/
theorem WrittenAll.bindings_subset (h : WrittenAll c seen m n as ps m' n') :
    m.bindings ⊆ m'.bindings := by
  induction h with
  | nil => exact fun _ hb => hb
  | cons _ ha _ ih => exact fun _ hb => ih (ha.bindings_subset hb)

/-- A prefix is generated only for a namespace that has none, so that what a name prefers stays what
it prefers. -/
theorem Written.preferred?_eq (h : a.Written c m n ps m' n') {space wish : Option Text} {p : Text}
    (hp : m.preferred? space wish = some p) : m'.preferred? space wish = some p := by
  cases h with
  | leftOut | declaration | plain | recorded => exact hp
  | @generated s _ _ hn =>
    have hs : some s ≠ space := by
      rintro rfl
      have hm := PrefixMap.mem_candidates_of_preferred? hp
      rw [PrefixMap.preferred?_eq_none_iff.1 hn] at hm
      cases hm
    rw [← hp]
    simp [PrefixMap.preferred?, PrefixMap.holds, PrefixMap.candidates_add, hs]

/-- A prefix preferred before the attributes are written is preferred after them. -/
theorem WrittenAll.preferred?_eq (h : WrittenAll c seen m n as ps m' n')
    {space wish : Option Text} {p : Text} (hp : m.preferred? space wish = some p) :
    m'.preferred? space wish = some p := by
  induction h with
  | nil => exact hp
  | cons _ ha _ ih => exact ih (ha.preferred?_eq hp)

/-- A prefix that is recorded on the way stands in the tag as a generated declaration. -/
theorem WrittenAll.mem_bindings (h : WrittenAll c seen m n as ps m' n') {b : Binding}
    (hb : b ∈ m'.bindings) :
    b ∈ m.bindings ∨ ∃ s, b.space = some s ∧ .generated ⟨some b.pre, s⟩ ∈ ps := by
  induction h with
  | nil => exact .inl hb
  | cons _ ha _ ih =>
    rcases ih hb with hb | ⟨s, hs, hp⟩
    · cases ha with
      | leftOut | declaration | plain | recorded => exact .inl hb
      | @generated s _ _ _ _ _ =>
        rcases List.mem_append.1 hb with hb | hb
        · exact .inl hb
        · rw [List.mem_singleton] at hb
          subst hb
          exact .inr ⟨s, rfl, by simp⟩
    · exact .inr ⟨s, hs, List.mem_append_right _ hp⟩

/-- Only generated prefixes are recorded on the way. -/
theorem WrittenAll.exists_generated (h : WrittenAll c seen m n as ps m' n') {b : Binding}
    (hb : b ∈ m'.bindings) : b ∈ m.bindings ∨ ∃ k, b.pre = Counter.generated k := by
  induction h with
  | nil => exact .inl hb
  | cons _ ha _ ih =>
    refine (ih hb).elim (fun hb => ?_) .inr
    cases ha with
    | leftOut | declaration | plain | recorded => exact .inl hb
    | generated =>
      rcases List.mem_append.1 hb with hb | hb
      · exact .inl hb
      · exact .inr ⟨_, congrArg Binding.pre (List.mem_singleton.1 hb)⟩

/-- Every attribute that is no declaration is there after its check, with a prefix that the map has
in the end. -/
theorem WrittenAll.spelled (h : WrittenAll c seen m n as ps m' n') :
    Spelled (fun a pre => RecordedAs m' a.name.space pre ∧ a.Passes c.enforce) as ps := by
  induction h with
  | nil => exact .nil
  | @cons _ _ _ _ _ _ _ a _ _ _ _ ha has ih =>
    cases ha with
    | leftOut hd => exact .leftOut hd ih
    | declaration hd => exact .declaration hd ih
    | plain hs hc =>
      have hd : a.isDeclaration = false := by simp [isDeclaration, hs]
      exact .named hd ⟨.inl ⟨hs, rfl⟩, hc⟩ ih
    | @recorded s p hd hs hp hc =>
      have hb := PrefixMap.mem_candidates_iff.1 (PrefixMap.mem_candidates_of_preferred? hp)
      exact .named hd ⟨.inr ⟨s, p, hs, rfl, has.bindings_subset hb⟩, hc⟩ ih
    | @generated s hd hs _ _ hc =>
      have hb := has.bindings_subset (PrefixMap.mem_bindings_add _ _ _)
      exact .generated hd ⟨.inr ⟨s, _, hs, rfl, hb⟩, hc⟩ ih

/-- A declaration that is left out is left out by some prefix map on the way, and any other one
stands in the tag after its check. -/
theorem WrittenAll.leftOut_or_mem (h : WrittenAll c seen m n as ps m' n') (ha : a ∈ as)
    (hd : a.isDeclaration = true) :
    (∃ m₁, a.isLeftOut c m₁ = true) ∨
      a.declarationPiece ∈ ps ∧ vet c.enforce a.declarationFlaw? = .ok () := by
  induction h with
  | nil => cases ha
  | cons _ hb _ ih =>
    rcases List.mem_cons.1 ha with rfl | ha
    · cases hb with
      | leftOut _ hl => exact .inl ⟨_, hl⟩
      | declaration _ _ hf => exact .inr ⟨List.mem_append_left _ (.head _), hf⟩
      | plain hs => simp [isDeclaration, hs] at hd
      | recorded hd' | generated hd' => rw [hd] at hd'; cases hd'
    · rcases ih ha with hl | ⟨hp, hf⟩
      · exact .inl hl
      · exact .inr ⟨List.mem_append_right _ hp, hf⟩

/-- Checked attributes have different keys, which none of those before them has. -/
theorem WrittenAll.nodup_key (h : WrittenAll c seen m n as ps m' n') (he : c.enforce = true) :
    (as.map key).Nodup ∧ ∀ a ∈ as, a.key ∉ seen := by
  induction h with
  | nil => exact ⟨.nil, by simp⟩
  | @cons seen _ _ _ _ _ _ a as _ _ hk _ _ ih =>
    have ha : a.key ∉ seen := by
      rw [he, vet_true_eq_ok_iff, duplicateFlaw?] at hk
      by_cases hm : a.key ∈ seen
      · simp [hm] at hk
      · exact hm
    obtain ⟨hnd, hs⟩ := ih
    refine ⟨List.nodup_cons.2 ⟨fun hm => ?_, hnd⟩, fun b hb => ?_⟩
    · obtain ⟨b, hb, hkey⟩ := List.mem_map.1 hm
      exact hs b hb (hkey ▸ .head _)
    · rcases List.mem_cons.1 hb with rfl | hb
      · exact ha
      · exact fun hm => hs b hb (.tail _ hm)

end

end Attribute

end XmlWriter
