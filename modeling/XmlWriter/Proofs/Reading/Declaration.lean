import XmlWriter.Proofs.Reading.Production
import XmlWriter.Proofs.Reading.References
import XmlWriter.Proofs.Number.Generated

/-!
# Reading XML declarations

What a declaration is written as, against its production. Between the double quotes of a declaration
stand its fields (`XmlDecl.intercalate_fields_append`), and the version is checked to be one. The
encoding is not checked at all, so the declaration is one of the grammar exactly if the encoding is
a name of an encoding, or else ends its own quotes and brings a whole part on standing alone with it
(`XmlDecl.codePoints_encode_mem_xmlDecl_iff`). Main statement: `XmlDecl.mem_xmlDecl_iff_of_write`.
-/

open scoped Computability

namespace XmlWriter

namespace Production

variable {l m : Language ℕ} {n : ℕ} {v w : List ℕ}

/-! ## How a declaration is taken apart -/

/-- White space that may be left out is left out before anything else. -/
theorem cons_mem_optional_space_mul_iff (hn : n ∉ spaceChar) :
    n :: w ∈ optional space * l ↔ n :: w ∈ l := by
  rw [Language.mem_mul]
  constructor
  · rintro ⟨s, hs, v, hv, he⟩
    rcases mem_optional.1 hs with hs | rfl
    · obtain ⟨hne, hs⟩ := mem_repeated_one_iff.1 hs
      obtain ⟨k, s, rfl⟩ := List.exists_cons_of_ne_nil hne
      obtain ⟨rfl, -⟩ := List.cons.inj he
      exact absurd (hs _ (.head _)) hn
    · exact he ▸ hv
  · intro hw
    exact ⟨[], nil_mem_optional, _, hw, rfl⟩

/-- One space is all the white space before anything else. -/
theorem space_cons_mem_space_mul_iff (hn : n ∉ spaceChar) :
    0x20 :: n :: w ∈ space * l ↔ n :: w ∈ l := by
  rw [Language.mem_mul]
  constructor
  · rintro ⟨s, hs, v, hv, he⟩
    obtain ⟨hne, hs⟩ := mem_repeated_one_iff.1 hs
    obtain ⟨k, s, rfl⟩ := List.exists_cons_of_ne_nil hne
    have hrest : s ++ v = n :: w := (List.cons.inj he).2
    cases s with
    | nil => exact hrest ▸ hv
    | cons i s =>
      obtain ⟨rfl, -⟩ := List.cons.inj hrest
      exact absurd (hs _ (by simp)) hn
  · intro hw
    exact ⟨[0x20], singleton_mem_space, _, hw, rfl⟩

/-- A sign by itself. -/
theorem cons_mem_literal_mul_iff {x : String} {c : ℕ} (hx : (Text.ofString x).codePoints = [c]) :
    n :: w ∈ literal x * l ↔ n = c ∧ w ∈ l := by
  rw [literal, hx, Language.mem_mul]
  constructor
  · rintro ⟨_, rfl, v, hv, he⟩
    obtain ⟨rfl, hw⟩ := List.cons.inj he
    exact ⟨rfl, hw ▸ hv⟩
  · rintro ⟨rfl, hw⟩
    exact ⟨[n], rfl, w, hw, rfl⟩

/-- A word that begins with a double quote is read behind it. -/
theorem cons_mem_quote_mul_iff : n :: w ∈ literal "\"" * l ↔ n = 0x22 ∧ w ∈ l :=
  cons_mem_literal_mul_iff (by decide)

/-- What opens with a double quote is closed by one. -/
theorem quote_cons_mem_quoted_mul_iff :
    0x22 :: w ∈ quoted l * m ↔ w ∈ l * (literal "\"" * m) := by
  simp only [quoted, add_mul, Language.mem_add, mul_assoc]
  rw [cons_mem_literal_mul_iff (c := 0x27) (by decide), cons_mem_quote_mul_iff]
  simp

/-- A word that a part of a declaration may be called by, made of letters. -/
def IsKey (key : String) : Prop :=
  (Text.ofString key).IsMark ∧ (Text.ofString key).codePoints ≠ [] ∧
    ∀ n ∈ (Text.ofString key).codePoints, CharClass.nameStart.contains n = true

instance (key : String) : Decidable (IsKey key) := inferInstanceAs (Decidable (_ ∧ _))

/-- What a name may begin with is no white space. -/
theorem not_mem_spaceChar_of_nameStart (h : CharClass.nameStart.contains n = true) :
    n ∉ spaceChar := by
  rintro (rfl | rfl | rfl | rfl) <;> exact absurd h (by decide)

/-- A part of a declaration, as it is written, is read up to its value. -/
theorem mem_part_mul_iff {key : String} (hk : IsKey key) :
    0x20 :: ((Text.ofString key).codePoints ++ 0x3D :: 0x22 :: w) ∈ part key l * m ↔
      w ∈ l * (literal "\"" * m) := by
  have hs : 0x20 :: ((Text.ofString key).codePoints ++ 0x3D :: 0x22 :: w) ∈ part key l * m ↔
      (Text.ofString key).codePoints ++ 0x3D :: 0x22 :: w ∈
        literal key * (equals * (quoted l * m)) := by
    obtain ⟨-, hne, hstart⟩ := hk
    obtain ⟨n, k, hc⟩ := List.exists_cons_of_ne_nil hne
    simp only [part, partName, mul_assoc]
    rw [hc] at hstart ⊢
    exact space_cons_mem_space_mul_iff (not_mem_spaceChar_of_nameStart (hstart n (.head _)))
  rw [hs, append_mem_literal_mul_iff]
  simp only [equals, mul_assoc]
  rw [cons_mem_optional_space_mul_iff (by simp [spaceChar]),
    cons_mem_literal_mul_iff (c := 0x3D) (by decide), and_iff_right rfl,
    cons_mem_optional_space_mul_iff (by simp [spaceChar]), quote_cons_mem_quoted_mul_iff]

/-- A value ends at its first double quote. A double quote in what is read is that one, or it comes
after it. -/
theorem append_quote_mem_iff (hl : Avoids 0x22 l) :
    v ++ 0x22 :: w ∈ l * (literal "\"" * m) ↔
      v ∈ l ∧ w ∈ m ∨ ∃ a ∈ l, ∃ b, v = a ++ 0x22 :: b ∧ b ++ 0x22 :: w ∈ m := by
  rw [Language.mem_mul]
  constructor
  · rintro ⟨a, ha, r, hr, he⟩
    obtain ⟨z, rfl, rfl⟩ := exists_of_append_cons_eq (hl a ha) he.symm
    cases z with
    | nil =>
      rw [List.append_nil]
      exact .inl ⟨ha, (cons_mem_quote_mul_iff.1 hr).2⟩
    | cons k z =>
      obtain ⟨rfl, hz⟩ := cons_mem_quote_mul_iff.1 hr
      exact .inr ⟨a, ha, z, rfl, hz⟩
  · rintro (⟨hv, hw⟩ | ⟨a, ha, b, rfl, hb⟩)
    · exact ⟨v, hv, _, cons_mem_quote_mul_iff.2 ⟨rfl, hw⟩, rfl⟩
    · exact ⟨a, ha, _, cons_mem_quote_mul_iff.2 ⟨rfl, hb⟩, by simp⟩

/-- The value of a part in quotes is followed by what follows the part. -/
theorem append_quote_mem_iff_of_mem (hl : Avoids 0x22 l) (hv : v ∈ l) :
    v ++ 0x22 :: w ∈ l * (literal "\"" * m) ↔ w ∈ m := by
  rw [append_quote_mem_iff hl, and_iff_right hv, or_iff_left]
  rintro ⟨a, -, b, rfl, -⟩
  exact hl _ hv (by simp)

/-- The end of a declaration, after its encoding: the part on standing alone, and white space. -/
def standaloneEnd : Language ℕ := optional (part "standalone" yesNo) * optional space

/-- White space has no quote in it. -/
theorem avoids_quote_space : Avoids 0x22 space := .repeated (.one (by simp [spaceChar]))

/-- What stands before the value of a part has no quote in it if the name of the part has none. -/
theorem avoids_quote_partName {key : String} (hk : 0x22 ∉ (Text.ofString key).codePoints) :
    Avoids 0x22 (partName key) :=
  .mul (.mul avoids_quote_space (.literal hk))
    (.mul (.mul avoids_quote_space.optional (.literal (by decide))) avoids_quote_space.optional)

/-- Neither value of `standalone` has a quote in it. -/
theorem avoids_quote_yesNo : Avoids 0x22 yesNo := .add (.literal (by decide)) (.literal (by decide))

/-- What is no digit and not in `1.` is not in the number of a version. -/
theorem avoids_versionNum (h : n ∉ digit) (h1 : n ∉ (Text.ofString "1.").codePoints) :
    Avoids n versionNum :=
  .mul (.literal h1) (.repeated (.one h))

/-- The number of a version has no quote in it. -/
theorem avoids_quote_versionNum : Avoids 0x22 versionNum :=
  avoids_versionNum (by simp [digit]) (by decide)

/-- What is no letter, digit, point, underscore or hyphen is not in the name of an encoding. -/
theorem avoids_encName (h : n ∉ letter ∪ digit ∪ {0x2E, 0x5F, 0x2D}) : Avoids n encName :=
  .mul (.one fun hl => h (.inl (.inl hl))) (.kstar (.one h))

/-- The name of an encoding has no quote in it. -/
theorem avoids_quote_encName : Avoids 0x22 encName := avoids_encName (by simp [letter, digit])

/-- The name of an encoding that is followed by the end of its quotes and a part on standing alone,
up to the end of the quotes of that. -/
def encNameAndStandalone : Language ℕ :=
  encName * (literal "\"" * (partName "standalone" * (literal "\"" * yesNo)))

/-- There are two values of `standalone`. -/
theorem mem_yesNo_iff :
    w ∈ yesNo ↔ w = (Text.ofString "yes").codePoints ∨ w = (Text.ofString "no").codePoints :=
  Iff.rfl

/-- A double quote at the end of a declaration is the first or the second one around the value of
the part on standing alone. -/
theorem append_quote_mem_standaloneEnd_iff : v ++ 0x22 :: w ∈ standaloneEnd ↔
    v ∈ partName "standalone" ∧ w ∈ yesNo * (literal "\"" * optional space) ∨
      v ∈ partName "standalone" * (literal "\"" * yesNo) ∧ w ∈ optional space := by
  have hkey : Avoids 0x22 (partName "standalone") := avoids_quote_partName (by decide)
  have hspace := avoids_quote_space.optional
  -- in single quotes, or without the part, there is no double quote
  have hsingle : Avoids 0x22 (partName "standalone" * (literal "'" * yesNo * literal "'") *
      optional space) :=
    .mul (.mul hkey (.mul (.mul (.literal (by decide)) avoids_quote_yesNo) (.literal (by decide))))
      hspace
  have hq : 0x22 ∈ v ++ 0x22 :: w := by simp
  have hvalue : ∀ {b : List ℕ}, b ++ 0x22 :: w ∈ yesNo * (literal "\"" * optional space) ↔
      b ∈ yesNo ∧ w ∈ optional space := by
    intro b
    rw [append_quote_mem_iff avoids_quote_yesNo, or_iff_left]
    rintro ⟨y, -, z, -, hs⟩
    exact hspace _ hs (by simp)
  rw [standaloneEnd, optional, add_mul, one_mul, Language.mem_add,
    or_iff_left fun hs => hspace _ hs hq, part, quoted, mul_add, add_mul, Language.mem_add,
    or_iff_right fun hs => hsingle _ hs hq]
  simp only [mul_assoc]
  rw [append_quote_mem_iff hkey]
  refine or_congr_right ⟨?_, ?_⟩
  · rintro ⟨a, ha, b, rfl, hb⟩
    obtain ⟨hb, hw⟩ := hvalue.1 hb
    exact ⟨⟨a, ha, _, ⟨_, rfl, b, hb, rfl⟩, rfl⟩, hw⟩
  · rintro ⟨⟨a, ha, _, ⟨_, rfl, b, hb, rfl⟩, rfl⟩, hw⟩
    exact ⟨a, ha, b, rfl, hvalue.2 ⟨hb, hw⟩⟩

end Production

namespace XmlDecl

variable {d : XmlDecl} {l m : Language ℕ}

/-- The code points of a part. -/
theorem codePoints_part_append {key : String} (hk : Production.IsKey key) (value rest : Text) :
    (part key value ++ rest).codePoints = 0x20 :: ((Text.ofString key).codePoints ++
      0x3D :: 0x22 :: (value.codePoints ++ 0x22 :: rest.codePoints)) := by
  have he : part key value ++ rest = [Text.unit ' '] ++ (Text.ofString key ++
      (Text.ofString "=\"" ++ (value ++ [Text.unit '"'] ++ rest))) := by
    simp [part]
  rw [he, Text.IsMark.codePoints_append_left (by decide), hk.1.codePoints_append_left,
    Text.IsMark.codePoints_append_left (by decide), Text.IsMark.codePoints_append (by decide),
    List.append_assoc value.codePoints]
  rfl

/-- A part is read by the grammar up to its value. -/
theorem codePoints_part_append_mem_iff {key : String} (hk : Production.IsKey key)
    {value rest : Text} :
    (part key value ++ rest).codePoints ∈ Production.part key l * m ↔
      value.codePoints ++ 0x22 :: rest.codePoints ∈ l * (Production.literal "\"" * m) := by
  rw [codePoints_part_append hk, Production.mem_part_mul_iff hk]

/-- The version that passes the check is one of the grammar. -/
theorem codePoints_mem_versionNum {v : Text} (h : isVersion v = true) :
    v.codePoints ∈ Production.versionNum := by
  match v, h with
  | a :: b :: first :: rest, h =>
    rw [isVersion, Bool.and_eq_true, decide_eq_true_eq] at h
    obtain ⟨hab, hd⟩ := h
    have hdigit : ∀ u ∈ first :: rest, 0x30 ≤ u.toNat ∧ u.toNat ≤ 0x39 := fun u hu => by
      have hu := List.all_eq_true.1 hd u hu
      rw [isDigit, Bool.and_eq_true, decide_eq_true_eq, decide_eq_true_eq] at hu
      exact hu
    have hsplit : a :: b :: first :: rest = Text.ofString "1." ++ first :: rest := by
      rw [← hab]
      rfl
    have hunits : Text.codePoints (first :: rest) = (first :: rest).map UInt16.toNat :=
      Text.codePoints_eq_map fun u hu => by
        have := hdigit u hu
        simp only [Text.isHigh, Bool.and_eq_false_iff, decide_eq_false_iff_not]
        omega
    rw [hsplit, Text.IsMark.codePoints_append_left (by decide), Production.versionNum,
      Production.append_mem_literal_mul_iff, Production.mem_repeated_one_iff, hunits]
    refine ⟨List.cons_ne_nil _ _, fun n hn => ?_⟩
    obtain ⟨u, hu, rfl⟩ := List.mem_map.1 hn
    exact hdigit u hu

/-- The part on standing alone as it is written, if there is one. -/
def standalonePart (d : XmlDecl) : Text :=
  d.standalone.elim [] fun b => part "standalone" (standaloneText b)

/-- Either value of `standalone` is written as the production has it. -/
theorem codePoints_standaloneText_mem (b : Bool) :
    (standaloneText b).codePoints ∈ Production.yesNo := by
  cases b
  · exact .inr rfl
  · exact .inl rfl

/-- What is written after the encoding is the end of a declaration. -/
theorem codePoints_standalonePart_mem (d : XmlDecl) :
    d.standalonePart.codePoints ∈ Production.standaloneEnd := by
  rw [standalonePart, Production.standaloneEnd, Production.optional, add_mul, one_mul,
    Language.mem_add]
  cases d.standalone with
  | none => exact .inr Production.nil_mem_optional
  | some b =>
    refine .inl ?_
    rw [Option.elim_some, ← List.append_nil (part _ _), codePoints_part_append_mem_iff (by decide)]
    exact (Production.append_quote_mem_iff_of_mem Production.avoids_quote_yesNo
      (codePoints_standaloneText_mem b)).2 Production.nil_mem_optional

/-- The end of a declaration as it is written can be the rest of a longer one, which has a double
quote before it, only if it is empty: then the longer one is a whole part on standing alone, and
that quote is its last. -/
theorem append_standalonePart_mem_standaloneEnd_iff {b : List ℕ} :
    b ++ 0x22 :: d.standalonePart.codePoints ∈ Production.standaloneEnd ↔
      d.standalone = none ∧
        b ∈ Production.partName "standalone" * (Production.literal "\"" * Production.yesNo) := by
  rw [Production.append_quote_mem_standaloneEnd_iff, standalonePart]
  cases d.standalone with
  | none =>
    have hvalue : ([] : List ℕ) ∉
        Production.yesNo * (Production.literal "\"" * Production.optional Production.space) := by
      rintro ⟨y, hy, r, -, he⟩
      rcases Production.mem_yesNo_iff.1 hy with rfl | rfl <;> cases he
    rw [or_iff_right fun h => hvalue h.2]
    exact ⟨fun h => ⟨rfl, h.1⟩, fun h => ⟨h.2, Production.nil_mem_optional⟩⟩
  | some x =>
    rw [Option.elim_some, ← List.append_nil (part _ _), codePoints_part_append (by decide)]
    refine iff_of_false (fun h => ?_) (by simp)
    rcases h with ⟨-, y, hy, r, -, he⟩ | ⟨-, hs⟩
    · rcases Production.mem_yesNo_iff.1 hy with rfl | rfl <;>
        exact absurd (List.cons.inj he).1 (by decide)
    · exact absurd (by simp) (Production.avoids_quote_space.optional _ hs)

/-- The encoding as it is written, if there is one. -/
def encodingPart (d : XmlDecl) : Text := d.encoding.elim [] (part "encoding")

/-- What is written for the encoding and after it. -/
theorem codePoints_encodingPart_append_mem_iff (d : XmlDecl) :
    Text.codePoints (d.encodingPart ++ d.standalonePart) ∈
        Production.optional (Production.part "encoding" Production.encName) *
          Production.standaloneEnd ↔
      ∀ enc ∈ d.encoding, enc.codePoints ∈ Production.encName ∨
        d.standalone = none ∧ enc.codePoints ∈ Production.encNameAndStandalone := by
  rw [Production.optional, add_mul, one_mul, Language.mem_add, encodingPart]
  cases d.encoding with
  | none => exact iff_of_true (.inr d.codePoints_standalonePart_mem) (by simp)
  | some enc =>
    have hother : Text.codePoints (part "encoding" enc ++ d.standalonePart) ∉
        Production.standaloneEnd := by
      obtain ⟨k, hkey⟩ : ∃ k, (Text.ofString "encoding").codePoints = 0x65 :: k := ⟨_, rfl⟩
      rw [codePoints_part_append (by decide), hkey, List.cons_append, Production.standaloneEnd,
        Production.optional, add_mul, one_mul, Language.mem_add]
      simp only [Production.part, Production.partName, mul_assoc]
      rw [Production.space_cons_mem_space_mul_iff (by simp [Production.spaceChar]), not_or]
      refine ⟨?_, fun h => ?_⟩
      · rintro ⟨_, rfl, r, -, he⟩
        exact absurd (List.cons.inj he).1 (by decide)
      · exact absurd (by simp) (Production.avoids_quote_space.optional _ h)
    rw [Option.elim_some, or_iff_left hother, codePoints_part_append_mem_iff (by decide),
      Production.append_quote_mem_iff Production.avoids_quote_encName]
    simp only [append_standalonePart_mem_standaloneEnd_iff, d.codePoints_standalonePart_mem,
      and_true, Option.mem_def, Option.some.injEq, forall_eq']
    refine or_congr_right ?_
    constructor
    · rintro ⟨a, ha, b, he, hn, hb⟩
      refine ⟨hn, ?_⟩
      rw [he]
      exact ⟨a, ha, _, Production.cons_mem_quote_mul_iff.2 ⟨rfl, hb⟩, rfl⟩
    · rintro ⟨hn, a, ha, _, ⟨_, rfl, b, hb, rfl⟩, he⟩
      exact ⟨a, ha, b, he.symm, hn, hb⟩

/-- A declaration is one of the grammar exactly if its encoding is the name of one, or else closes
its quotes and brings a part on standing alone with it. -/
theorem codePoints_encode_mem_xmlDecl_iff (hv : isVersion d.version = true) :
    d.encode.codePoints ∈ Production.xmlDecl ↔
      ∀ enc ∈ d.encoding, enc.codePoints ∈ Production.encName ∨
        d.standalone = none ∧ enc.codePoints ∈ Production.encNameAndStandalone := by
  have he : d.encode = Text.ofString "<?xml" ++ (part "version" d.version ++
      (d.encodingPart ++ d.standalonePart)) ++ Text.ofString "?>" := by
    simp only [encode, encodingPart, standalonePart, List.append_assoc]
  rw [he, Text.IsMark.codePoints_wrap (by decide) (by decide), Production.xmlDecl,
    Production.append_mem_mul_literal_iff]
  simp only [mul_assoc]
  rw [Production.append_mem_literal_mul_iff, codePoints_part_append_mem_iff (by decide),
    Production.append_quote_mem_iff_of_mem Production.avoids_quote_versionNum
      (codePoints_mem_versionNum hv)]
  exact d.codePoints_encodingPart_append_mem_iff

/-! ## Fields -/

/-- What stands between the double quotes of a declaration and before the first of them: names with
their equals signs, and values. -/
def fields (d : XmlDecl) : List Text :=
  [Text.ofString "<?xml version=", d.version] ++
    d.encoding.elim [] (fun enc => [Text.ofString " encoding=", enc]) ++
    d.standalone.elim [] fun b => [Text.ofString " standalone=", standaloneText b]

/-- A declaration without its end mark. -/
def body (d : XmlDecl) : Text :=
  Text.ofString "<?xml" ++ part "version" d.version ++ d.encodingPart ++ d.standalonePart

/-- A declaration without its end mark is its fields with a quote between any two of them. -/
theorem intercalate_fields_append (d : XmlDecl) (last : Text) :
    [Text.unit '"'].intercalate (d.fields ++ [last]) = d.body ++ last := by
  have hversion : ∀ v, Text.ofString "<?xml" ++ part "version" v =
      Text.ofString "<?xml version=" ++ Text.unit '"' :: (v ++ [Text.unit '"']) := fun _ => rfl
  have hencoding : ∀ v, part "encoding" v =
      Text.ofString " encoding=" ++ Text.unit '"' :: (v ++ [Text.unit '"']) := fun _ => rfl
  have hstandalone : ∀ v, part "standalone" v =
      Text.ofString " standalone=" ++ Text.unit '"' :: (v ++ [Text.unit '"']) := fun _ => rfl
  rw [body, hversion, fields, encodingPart, standalonePart]
  cases d.encoding <;> cases d.standalone <;>
    simp [hencoding, hstandalone, List.intercalate_cons_cons]

/-- A declaration is what stands before its end mark, and the mark. -/
theorem encode_eq_body_append (d : XmlDecl) : d.encode = d.body ++ Text.ofString "?>" := rfl

/-- What holds of the names and of the version holds of all fields if it holds of the encoding. -/
theorem forall_mem_fields_iff {P : Text → Prop}
    (hp : ∀ s ∈ ["<?xml version=", " encoding=", " standalone=", "yes", "no"], P (Text.ofString s))
    (hv : P d.version) : (∀ t ∈ d.fields, P t) ↔ ∀ enc ∈ d.encoding, P enc := by
  simp only [List.forall_mem_cons] at hp
  obtain ⟨hversion, hencoding, hstandalone, hyes, hno, -⟩ := hp
  have hs : ∀ b, P (standaloneText b) := fun b => by cases b <;> assumption
  rw [fields]
  cases d.encoding <;> cases d.standalone <;> simp [*]

/-- The fields can be read off a declaration exactly if the encoding does not end its quotes. -/
theorem splitOn_encode_eq_iff (hv : isVersion d.version = true) :
    d.encode.splitOn (Text.unit '"') = d.fields ++ [Text.ofString "?>"] ↔
      ∀ enc ∈ d.encoding, Text.unit '"' ∉ enc := by
  have hversion : Text.unit '"' ∉ d.version :=
    Production.avoids_quote_versionNum.not_mem (codePoints_mem_versionNum hv) (by decide)
  rw [encode_eq_body_append, ← intercalate_fields_append,
    splitOn_intercalate_eq_iff (by simp), List.forall_mem_append,
    forall_mem_fields_iff (by decide) hversion, and_iff_left (by decide)]

/-- The first end mark in a declaration is its last exactly if none is in the encoding. -/
theorem dropInfix?_encode_iff (hv : isVersion d.version = true) :
    d.encode.dropInfix? (Text.ofString "?>") = some (d.body, []) ↔
      ∀ enc ∈ d.encoding, ¬ Text.ofString "?>" <:+: enc := by
  have hend : Production.Avoids 0x3E Production.versionNum :=
    Production.avoids_versionNum (by simp [Production.digit]) (by decide)
  have hversion : ¬ Text.ofString "?>" <:+: d.version := fun hi =>
    hend.not_mem (u := Text.unit '>') (codePoints_mem_versionNum hv) (by decide)
      (hi.subset (by decide))
  rw [encode_eq_body_append, Text.dropInfix?_append_self_iff (by decide),
    ← intercalate_fields_append, infix_intercalate_iff (by decide) (by simp)]
  simp only [not_exists, not_and]
  rw [List.forall_mem_append, forall_mem_fields_iff (by decide) hversion, and_iff_left (by decide)]

/-! ## What the check lets pass -/

/-- What a declaration that is accepted is written as. If its encoding is the name of one, or is
left out, then it is a declaration of the grammar, its fields can be read off between its quotes,
and the first end mark in it is its last. In general the encoding decides each of these: it has to
be the name of an encoding, or one with a part on standing alone where the caller gives none; it
must have no double quote; and it must have no end mark. -/
theorem mem_xmlDecl_iff_of_write {e : Text} (h : write true d = .ok e) :
    let readsFields := e.splitOn (Text.unit '"') = d.fields ++ [Text.ofString "?>"]
    let endsAtLast := e.dropInfix? (Text.ofString "?>") = some (d.body, [])
    ((∀ enc ∈ d.encoding, enc.codePoints ∈ Production.encName) →
        e.codePoints ∈ Production.xmlDecl ∧ readsFields ∧ endsAtLast) ∧
      (e.codePoints ∈ Production.xmlDecl ↔
        ∀ enc ∈ d.encoding, enc.codePoints ∈ Production.encName ∨
          d.standalone = none ∧ enc.codePoints ∈ Production.encNameAndStandalone) ∧
      (readsFields ↔ ∀ enc ∈ d.encoding, Text.unit '"' ∉ enc) ∧
      (endsAtLast ↔ ∀ enc ∈ d.encoding, ¬ Text.ofString "?>" <:+: enc) := by
  obtain ⟨hc, rfl⟩ := vet_bind_eq_ok_iff.1 h
  have hv : isVersion d.version = true := by
    rw [vet_true_eq_ok_iff, flaw?] at hc
    by_contra hn
    rw [if_neg hn] at hc
    cases hc
  have hend : Production.Avoids 0x3E Production.encName :=
    Production.avoids_encName (by simp [Production.letter, Production.digit])
  refine ⟨fun henc => ⟨?_, ?_, ?_⟩, codePoints_encode_mem_xmlDecl_iff hv,
    splitOn_encode_eq_iff hv, dropInfix?_encode_iff hv⟩
  · exact (codePoints_encode_mem_xmlDecl_iff hv).2 fun enc he => .inl (henc enc he)
  · exact (splitOn_encode_eq_iff hv).2 fun enc he =>
      Production.avoids_quote_encName.not_mem (henc enc he) (by decide)
  · exact (dropInfix?_encode_iff hv).2 fun enc he hi =>
      hend.not_mem (u := Text.unit '>') (henc enc he) (by decide) (hi.subset (by decide))

/-- The declaration of a document that stands alone. -/
theorem mem_xmlDecl_iff_of_write_standalone :
    let d : XmlDecl := ⟨Text.ofString "1.0", some (Text.ofString "UTF-8"), some true⟩
    let e := Text.ofString "<?xml version=\"1.0\" encoding=\"UTF-8\" standalone=\"yes\"?>"
    write true d = .ok e ∧ e.codePoints ∈ Production.xmlDecl ∧
      e.splitOn (Text.unit '"') =
        ["<?xml version=", "1.0", " encoding=", "UTF-8", " standalone=", "yes", "?>"].map
          Text.ofString := by
  intro d e
  have h : write true d = .ok e := by decide +kernel
  have henc : ∀ enc ∈ d.encoding, enc.codePoints ∈ Production.encName := by
    rintro _ ⟨⟩
    have hc : (Text.ofString "UTF-8").codePoints = [0x55, 0x54, 0x46, 0x2D, 0x38] := by decide
    rw [hc]
    exact ⟨[0x55], ⟨_, by simp [Production.letter], rfl⟩, _, Production.mem_kstar_one_iff.2 (by
      simp [Production.letter, Production.digit]), rfl⟩
  obtain ⟨hx, hs, -⟩ := (mem_xmlDecl_iff_of_write h).1 henc
  exact ⟨h, hx, hs⟩

/-- The encoding is not checked: this one ends its quotes and then the declaration, so that what is
written after it is an element. -/
theorem not_mem_xmlDecl_of_quote :
    let d : XmlDecl :=
      ⟨Text.ofString "1.0", some (Text.ofString "UTF-8\"?><r a=\""), some true⟩
    let e := Text.ofString
      "<?xml version=\"1.0\" encoding=\"UTF-8\"?><r a=\"\" standalone=\"yes\"?>"
    write true d = .ok e ∧ e.codePoints ∉ Production.xmlDecl ∧
      e.dropInfix? (Text.ofString "?>") =
        some (Text.ofString "<?xml version=\"1.0\" encoding=\"UTF-8\"",
          Text.ofString "<r a=\"\" standalone=\"yes\"?>") := by
  intro d e
  have h : write true d = .ok e := by decide +kernel
  have he : e = d.encode := by decide +kernel
  refine ⟨h, fun hx => ?_, by decide +kernel⟩
  rw [he, codePoints_encode_mem_xmlDecl_iff (by decide)] at hx
  rcases hx _ rfl with hn | hn
  · exact Production.avoids_quote_encName.not_mem (u := Text.unit '"') hn (by decide) (by decide)
  · cases hn.1

end XmlDecl

end XmlWriter
