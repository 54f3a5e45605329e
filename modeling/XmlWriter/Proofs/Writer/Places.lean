import XmlWriter.Proofs.Writer.Failing

/-!
# The place of each attribute in its tag

Attributes are written in the order in which they are given, each at its own place
(`Attribute.StandsAs`, `Attribute.StandAll`): a declaration has one chunk or none, and any other
attribute has one chunk, with the declaration of a made-up prefix before it if its namespace had no
prefix when the attributes began and no attribute before it is in that namespace. The prefix map
changes on the way, but a namespace is without prefix in it exactly as long as that holds
(`Attribute.Written.candidates_eq_nil_iff`). It follows that what is made up is declared once for
each namespace that needs it, and for no other (`Attribute.StandAll.nodup_declared`,
`Attribute.StandAll.mem_declared_iff`). Main statement: `Writer.standAll_of_start`.
-/

namespace XmlWriter

/-! ## Chunks -/

/-- The chunk that shows an attribute: a space, the prefix with a colon if there is a prefix, the
local part, and the escaped value in double quotes. -/
def attributeChunk (pre : Option Text) (localPart value : Text) : Text :=
  Text.ofString " " ++ pre.elim [] (· ++ Text.ofString ":") ++ localPart ++ Text.ofString "=\"" ++
    AttValue.encode value ++ Text.ofString "\""

/-- The text of an attribute is its chunk. -/
theorem attributeText_eq (pre : Option Text) (localPart value : Text) :
    attributeText ⟨pre, localPart⟩ value = attributeChunk pre localPart value := by
  have hs : Text.ofString " " = [Text.unit ' '] := rfl
  have hc : Text.ofString ":" = [Text.unit ':'] := rfl
  have hq : Text.ofString "\"" = [Text.unit '"'] := rfl
  cases pre <;> simp [attributeText, attributeChunk, hs, hc, hq]

/-- What stands in a tag for one of its attributes. -/
structure Place where
  /-- The namespace of the declaration that is generated for the attribute, if one is. -/
  declared : Option Text
  /-- The chunks, that of the generated declaration included. -/
  chunks : List Text

namespace Attribute

/-! ## Places -/

/-- A namespace has no prefix in a map, and none of the attributes before is in it. -/
def NeedsPrefix (m : PrefixMap) (before : List Attribute) (space : Text) : Prop :=
  m.candidates (some space) = [] ∧ ∀ b ∈ before, b.name.space ≠ some space

/-- What may stand in a tag for an attribute that comes after others, if the prefixes in `m` are
recorded when the attributes begin. -/
inductive StandsAs (m : PrefixMap) (before : List Attribute) (a : Attribute) : Place → Prop
  | leftOut (hd : a.name.space = some xmlnsNamespace) : StandsAs m before a ⟨none, []⟩
  | declaration (hd : a.name.space = some xmlnsNamespace) :
      StandsAs m before a
        ⟨none, [attributeChunk (a.name.wish.map fun _ => xmlnsPrefix) a.name.localPart a.value]⟩
  | plain (hs : a.name.space = none) :
      StandsAs m before a ⟨none, [attributeChunk none a.name.localPart a.value]⟩
  | recorded {space pre : Text} (hs : a.name.space = some space) (hx : space ≠ xmlnsNamespace)
      (hn : ¬ NeedsPrefix m before space) :
      StandsAs m before a ⟨none, [attributeChunk (some pre) a.name.localPart a.value]⟩
  | generated {space pre : Text} (hs : a.name.space = some space) (hx : space ≠ xmlnsNamespace)
      (hn : NeedsPrefix m before space) :
      StandsAs m before a ⟨some space, [attributeChunk (some xmlnsPrefix) pre space,
        attributeChunk (some pre) a.name.localPart a.value]⟩

/-- What may stand in a tag for attributes, one place for each of them in their order. The
attributes before them are given. -/
inductive StandAll (m : PrefixMap) : List Attribute → List Attribute → List Place → Prop
  | nil {before : List Attribute} : StandAll m before [] []
  | cons {before as : List Attribute} {a : Attribute} {p : Place} {ps : List Place}
      (ha : a.StandsAs m before p) (has : StandAll m (before ++ [a]) as ps) :
      StandAll m before (a :: as) (p :: ps)

variable {m m₀ m' : PrefixMap} {before as : List Attribute} {a : Attribute} {s : Text}

/-- A namespace still needs a prefix after an attribute that is not in it. -/
theorem needsPrefix_append : NeedsPrefix m (before ++ [a]) s ↔
    NeedsPrefix m before s ∧ a.name.space ≠ some s := by
  simp [NeedsPrefix, or_imp, forall_and, and_assoc]

/-! ## What is declared -/

/-- A declaration is generated for the first attribute of a namespace that needs one. -/
theorem StandsAs.declared_eq_some_iff {p : Place} (h : a.StandsAs m before p) :
    p.declared = some s ↔
      s ≠ xmlnsNamespace ∧ NeedsPrefix m before s ∧ a.name.space = some s := by
  cases h with
  | leftOut hd | declaration hd =>
    refine iff_of_false nofun ?_
    rintro ⟨hx, -, ha⟩
    rw [hd] at ha
    exact hx (Option.some.inj ha).symm
  | plain hs =>
    refine iff_of_false nofun ?_
    rintro ⟨-, -, ha⟩
    rw [hs] at ha
    cases ha
  | recorded hs _ hn =>
    refine iff_of_false nofun ?_
    rintro ⟨-, hn', ha⟩
    rw [hs] at ha
    cases ha
    exact hn hn'
  | generated hs hx hn =>
    constructor
    · rintro ⟨⟩
      exact ⟨hx, hn, hs⟩
    · rintro ⟨-, -, ha⟩
      rw [← hs, ha]

/-- Declarations are generated for the namespaces of the attributes that need one. -/
theorem StandAll.mem_declared_iff {ps : List Place} (h : StandAll m before as ps) :
    s ∈ ps.filterMap Place.declared ↔
      s ≠ xmlnsNamespace ∧ NeedsPrefix m before s ∧ ∃ a ∈ as, a.name.space = some s := by
  induction h with
  | nil => simp
  | @cons before as a p ps ha _ ih =>
    have hhead : s ∈ (p :: ps).filterMap Place.declared ↔
        p.declared = some s ∨ s ∈ ps.filterMap Place.declared := by
      simp only [List.mem_filterMap, List.exists_mem_cons_iff]
    rw [hhead, ih, ha.declared_eq_some_iff, needsPrefix_append, List.exists_mem_cons_iff]
    by_cases hs : a.name.space = some s <;> simp [hs]

/-- No namespace has two generated declarations. -/
theorem StandAll.nodup_declared {ps : List Place} (h : StandAll m before as ps) :
    (ps.filterMap Place.declared).Nodup := by
  induction h with
  | nil => exact .nil
  | @cons before as a p ps ha has ih =>
    cases hp : p.declared with
    | none => rwa [List.filterMap_cons_none hp]
    | some s =>
      rw [List.filterMap_cons_some hp]
      refine List.nodup_cons.2 ⟨?_, ih⟩
      intro hm
      -- the attribute is in the namespace, so that those after it find a prefix
      have hs := (ha.declared_eq_some_iff.1 hp).2.2
      exact (needsPrefix_append.1 (has.mem_declared_iff.1 hm).2.1).2 hs

/-! ## What is written -/

variable {c : TagContext} {seen : List (Option Text × Text)} {n n' : Counter} {ps : List Piece}

/-- After an attribute its own namespace has a prefix, and any other one has one if it had one
before. -/
theorem Written.candidates_eq_nil_iff (h : a.Written c m n ps m' n') (hx : s ≠ xmlnsNamespace) :
    m'.candidates (some s) = [] ↔ m.candidates (some s) = [] ∧ a.name.space ≠ some s := by
  have hdecl : a.isDeclaration = true → a.name.space ≠ some s := by
    intro hd hs
    rw [isDeclaration_eq_false hs hx] at hd
    cases hd
  cases h with
  | leftOut hd | declaration hd => exact (and_iff_left (hdecl hd)).symm
  | plain hs =>
    refine (and_iff_left ?_).symm
    intro ha
    rw [hs] at ha
    cases ha
  | recorded _ hs hp =>
    constructor
    · intro he
      refine ⟨he, ?_⟩
      intro ha
      have hm := PrefixMap.mem_candidates_of_preferred? hp
      rw [← hs, ha, he] at hm
      cases hm
    · exact And.left
  | @generated space _ hs =>
    rw [PrefixMap.candidates_add, List.append_eq_nil_iff, hs]
    refine and_congr_right fun _ => ?_
    by_cases he : some space = some s
    · rw [if_pos he]
      exact iff_of_false (List.cons_ne_nil _ _) (not_not_intro he)
    · rw [if_neg he]
      exact iff_of_true rfl he

/-- An attribute that is written stands in its place, if the map is without a prefix exactly for the
namespaces that still need one. -/
theorem Written.standsAs (h : a.Written c m n ps m' n')
    (hm : ∀ s, s ≠ xmlnsNamespace → (m.candidates (some s) = [] ↔ NeedsPrefix m₀ before s)) :
    ∃ p : Place, a.StandsAs m₀ before p ∧ ps.map Piece.render = p.chunks := by
  have hrender : ∀ pre,
      [a.piece pre].map Piece.render = [attributeChunk pre a.name.localPart a.value] :=
    fun pre => congrArg (fun t => [t]) (attributeText_eq pre _ _)
  cases h with
  | leftOut hd => exact ⟨_, .leftOut (isDeclaration_iff.1 hd), rfl⟩
  | declaration hd => exact ⟨_, .declaration (isDeclaration_iff.1 hd), hrender _⟩
  | plain hs => exact ⟨_, .plain hs, hrender none⟩
  | @recorded s pre hd hs hp =>
    have hx := ne_xmlnsNamespace hd hs
    have hn : ¬ NeedsPrefix m₀ before s := by
      intro hn
      have hc := PrefixMap.mem_candidates_of_preferred? hp
      rw [(hm s hx).2 hn] at hc
      cases hc
    exact ⟨_, .recorded hs hx hn, hrender (some pre)⟩
  | @generated s hd hs hp =>
    have hx := ne_xmlnsNamespace hd hs
    have hn : NeedsPrefix m₀ before s := (hm s hx).1 (PrefixMap.preferred?_eq_none_iff.1 hp)
    have hdecl : (Piece.generated ⟨some (Counter.generated n), s⟩).render =
        attributeChunk (some xmlnsPrefix) (Counter.generated n) s := attributeText_eq _ _ _
    refine ⟨⟨some s, [attributeChunk (some xmlnsPrefix) (Counter.generated n) s,
      attributeChunk (some (Counter.generated n)) a.name.localPart a.value]⟩,
      .generated hs hx hn, ?_⟩
    rw [List.map_cons, hdecl, hrender]

/-- Attributes that are written stand in their places. -/
theorem WrittenAll.standAll (h : WrittenAll c seen m n as ps m' n')
    (hm : ∀ s, s ≠ xmlnsNamespace → (m.candidates (some s) = [] ↔ NeedsPrefix m₀ before s)) :
    ∃ places, StandAll m₀ before as places ∧ ps.map Piece.render = places.flatMap Place.chunks := by
  induction h generalizing before with
  | nil => exact ⟨[], .nil, rfl⟩
  | @cons _ m m₁ _ _ _ _ a _ ps ps' _ ha _ ih =>
    obtain ⟨p, hp, hps⟩ := ha.standsAs hm
    have hm₁ : ∀ s, s ≠ xmlnsNamespace →
        (m₁.candidates (some s) = [] ↔ NeedsPrefix m₀ (before ++ [a]) s) := by
      intro s hx
      rw [ha.candidates_eq_nil_iff hx, hm s hx, needsPrefix_append]
    obtain ⟨places, hall, hps'⟩ := ih hm₁
    exact ⟨p :: places, .cons hp hall, by rw [List.map_append, hps, hps', List.flatMap_cons]⟩

end Attribute

/-! ## Starts -/

namespace Writer

variable {ω : Type} [Outlet ω]

/-- When a start does not fail, the outlet has taken the head of the tag, then what stands for the
attributes, one place for each in their order, and then what closes the tag. Apart from the
attributes themselves there is one declaration for each namespace of theirs that had no prefix when
the attributes began, the namespace of declarations apart, and no other. What the attributes begin
with is what has been found for the name of the element. -/
theorem standAll_of_start (w : Writer) (out : ω) (name : Name) (attributes : List Attribute)
    (childless : Bool)
    (h : (w.perform out (.start name attributes childless)).failure = none) :
    ∃ (r : Resolution) (places : List Place),
      ((Resolution.of w.enforce (Declarations.collect w.scope.prefixes attributes)
        w.scope.inherited name).run w.next).result = .ok r ∧
      Outlet.Takes out
        ((Piece.head r.name r.own).render :: (places.flatMap Place.chunks ++
          (OpenElement.slash name childless ++ [Piece.tagEnd]).map Piece.render))
        (w.perform out (.start name attributes childless)).out ∧
      Attribute.StandAll r.prefixes [] attributes places ∧
      (places.filterMap Place.declared).Nodup ∧
      ∀ s, s ∈ places.filterMap Place.declared ↔
        s ≠ xmlnsNamespace ∧ r.prefixes.candidates (some s) = [] ∧
          ∃ a ∈ attributes, a.name.space = some s := by
  obtain ⟨_, he⟩ := ends_of_perform h
  obtain ⟨-, qs, el, n, hs, hp, -⟩ := Event.ends_emit_start.1 he
  obtain ⟨-, r, n₁, body, m, hr, ha, rfl, -⟩ := OpenElement.resolved_of_ends hs
  have hbegin : ∀ s, s ≠ xmlnsNamespace →
      (r.prefixes.candidates (some s) = [] ↔ Attribute.NeedsPrefix r.prefixes [] s) := by
    simp [Attribute.NeedsPrefix]
  obtain ⟨places, hall, hbody⟩ := (Attribute.writtenAll_of_ends ha).standAll hbegin
  refine ⟨r, places, hr.2.1, ?_, hall, hall.nodup_declared, ?_⟩
  · have ht := takes_of_perform h
    rw [hp, List.cons_append, List.map_cons, List.append_assoc, List.map_append, hbody] at ht
    exact ht
  · intro s
    rw [hall.mem_declared_iff]
    simp [Attribute.NeedsPrefix]

/-- Two attributes in a namespace without prefix, with one in none and a declaration between them:
the first of the two comes after a declaration that serves the second one as well. What would end a
value, or begin a reference, a tag or another line, is written as a reference. -/
theorem standAll_of_start_shared :
    let x := NamePart.given (Text.ofString "urn:x")
    let attributes : List Attribute := [⟨⟨Text.ofString "k", .absent, x⟩, Text.ofString "\"<>\n"⟩,
      ⟨⟨Text.ofString "i", .absent, .absent⟩, []⟩,
      ⟨⟨Text.ofString "p", .given xmlnsPrefix, .given xmlnsNamespace⟩, Text.ofString "urn:y&z"⟩,
      ⟨⟨Text.ofString "l", .absent, x⟩, []⟩]
    let name : Name := ⟨Text.ofString "e", .absent, .absent⟩
    let p := (new {}).perform TextBuffer.empty (.start name attributes true)
    p.failure = none ∧
      p.out.chunks = [Text.ofString "<e", Text.ofString " xmlns:ns1=\"urn:x\"",
        Text.ofString " ns1:k=\"&quot;&lt;&gt;&#10;\"", Text.ofString " i=\"\"",
        Text.ofString " xmlns:p=\"urn:y&amp;z\"",
        Text.ofString " ns1:l=\"\"", Text.ofString "/", Text.ofString ">"] ∧
      ∃ (r : Resolution) (places : List Place), Attribute.StandAll r.prefixes [] attributes places ∧
        (places.filterMap Place.declared).Nodup ∧ ∀ s, s ∈ places.filterMap Place.declared ↔
          s ≠ xmlnsNamespace ∧ r.prefixes.candidates (some s) = [] ∧
            ∃ a ∈ attributes, a.name.space = some s := by
  intro x attributes name p
  have hf : p.failure = none := by decide +kernel
  obtain ⟨r, places, -, -, hall, hnd, hs⟩ :=
    standAll_of_start (new {}) TextBuffer.empty name attributes true hf
  exact ⟨hf, by decide +kernel, r, places, hall, hnd, hs⟩

end Writer

end XmlWriter
