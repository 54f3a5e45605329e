import XmlWriter.Piece
import XmlWriter.Proofs.Reading.Reader

/-!
# What a reader makes of each piece

`r.Reads t r'` says that a reader goes through a text from one state to another. The lemmas of this
module say it for the text of each piece of markup: escaped character data and attribute values are
read as what they were made from (`Reader.reads_charData`, `Reader.reads_attValue`), CDATA sections
as the text that was cut into them (`Reader.reads_cdata`), a comment that passed its check as its
escaped text (`Reader.reads_comment`), and a tag as its name and attributes
(`Reader.reads_attributes`, `Reader.reads_endTag`).
-/

namespace XmlWriter

namespace Item

/-- Characters are joined with nothing but the last item. -/
theorem addChars_cons {i : Item} {rest : List Item} (h : ∀ s, i = .chars s → rest ≠ []) (t : Text) :
    addChars (i :: rest) t = i :: addChars rest t := by
  rw [addChars]
  exact h

/-- Characters are joined in any grouping. -/
theorem addChars_addChars (items : List Item) (s t : Text) :
    addChars (addChars items s) t = addChars items (s ++ t) := by
  fun_induction addChars items s with
  | case1 => rfl
  | case2 s hs => simp [addChars, hs]
  | case3 s' s => simp [addChars]
  | case4 i rest s hn ih =>
    have hrest : ∀ s', i = .chars s' → addChars rest s ≠ [] := by
      intro s' hi he
      have hr := hn s' hi
      cases rest with
      | nil => exact hr rfl
      | cons j js =>
        unfold addChars at he
        split at he <;> simp_all
    rw [addChars_cons hrest, addChars_cons hn, ih]

@[simp] theorem addChars_nil (items : List Item) : addChars items [] = items := by
  induction items with
  | nil => rfl
  | cons i rest ih =>
    by_cases h : ∃ s, i = .chars s ∧ rest = []
    · obtain ⟨s, rfl, rfl⟩ := h
      simp [addChars]
    · rw [addChars_cons fun s hs hr => h ⟨s, hs, hr⟩, ih]

end Item

namespace Builder

/-- A builder with more characters. -/
def addChars (b : Builder) (t : Text) : Builder := { b with items := Item.addChars b.items t }

@[simp] theorem addChars_addChars (b : Builder) (s t : Text) :
    (b.addChars s).addChars t = b.addChars (s ++ t) := by
  simp [addChars, Item.addChars_addChars]

@[simp] theorem addChars_nil (b : Builder) : b.addChars [] = b := by
  rw [addChars, Item.addChars_nil]

end Builder

namespace CDSect

/-- The first section of a text begins as the text does. -/
theorem sections_cons_cons (u v : UInt16) (t : Text) :
    ∃ first rest, sections (u :: v :: t) = (u :: v :: first) :: rest := by
  induction t generalizing u v with
  | nil => exact ⟨[], [], rfl⟩
  | cons w t ih =>
    rw [sections]
    split
    · exact ⟨[], _, rfl⟩
    · obtain ⟨first, rest, h⟩ := ih v w
      exact ⟨w :: first, rest, by rw [h]; rfl⟩

theorem closing_eq : closing = [Text.unit ']', Text.unit ']', Text.unit '>'] := rfl

/-- A text of at most two units has no room for the mark that ends a section. -/
theorem not_closing_infix_of_length {s : Text} (h : s.length ≤ 2) : ¬ closing <:+: s := by
  intro hi
  have hl := hi.length_le
  rw [closing_eq, List.length_cons, List.length_cons, List.length_singleton] at hl
  omega

/-- No section holds the mark that would end it. -/
theorem not_closing_infix (t : Text) : ∀ s ∈ sections t, ¬ closing <:+: s := by
  fun_induction sections t with
  | case1 a b c rest h ih =>
    intro s hs
    rcases List.mem_cons.1 hs with rfl | hs
    · exact not_closing_infix_of_length (Nat.le_refl 2)
    · obtain ⟨first, ss, hf⟩ := List.exists_cons_of_ne_nil (sections_ne_nil rest)
      rw [hf] at hs ih
      rcases List.mem_cons.1 hs with rfl | hs
      · -- the unit in front is the last of the mark, and cannot begin one
        rintro hi
        rcases List.infix_cons_iff.1 hi with ⟨w, hw⟩ | hi
        · rw [closing_eq] at h hw
          cases h
          exact absurd (List.cons.inj hw).1 (by decide)
        · exact ih _ (.head _) hi
      · exact ih s (.tail _ hs)
  | case2 a b c rest h ih =>
    obtain ⟨first, ss, hf⟩ := sections_cons_cons b c rest
    rw [hf] at ih ⊢
    intro s hs
    rcases List.mem_cons.1 hs with rfl | hs
    · intro hi
      rcases List.infix_cons_iff.1 hi with ⟨w, hw⟩ | hi
      · rw [closing_eq] at h hw
        cases hw
        exact h rfl
      · exact ih _ (.head _) hi
    · exact ih s (.tail _ hs)
  | case3 short h =>
    intro s hs
    rw [List.mem_singleton] at hs
    subst hs
    refine not_closing_infix_of_length (Nat.le_of_lt_succ (Nat.not_le.1 fun hl => ?_))
    rcases s with _ | ⟨a, _ | ⟨b, _ | ⟨c, rest⟩⟩⟩
    · simp at hl
    · simp at hl
    · simp at hl
    · exact h a b c rest rfl

end CDSect

namespace Reader

/-- A reader goes through a text from one state to another. -/
def Reads (r : Reader) (t : Text) (r' : Reader) : Prop := r.run t = some r'

section
variable {r r' r'' : Reader} {m m' : Mode} {b b' : Builder} {s t : Text} {u : UInt16}
  {tok : Token}

theorem Reads.nil : r.Reads [] r := rfl

/-- One text and then another. -/
theorem Reads.append (h : r.Reads s r') (h' : r'.Reads t r'') : r.Reads (s ++ t) r'' := by
  rw [Reads, run, List.foldlM_append]
  rw [Reads, run] at h
  rw [h]
  exact h'

/-- A unit that completes no token, and then a text. -/
theorem Reads.cons (hl : lex m u = some (m', none)) (h : Reads ⟨m', b⟩ t r) :
    Reads ⟨m, b⟩ (u :: t) r := by
  have hs : step ⟨m, b⟩ u = some ⟨m', b⟩ := by simp [step, hl]
  rw [Reads, run, List.foldlM_cons, hs]
  exact h

/-- A unit that completes a token, and then a text. -/
theorem Reads.token (hl : lex m u = some (m', some tok)) (hb : b.take? tok = some b')
    (h : Reads ⟨m', b'⟩ t r) : Reads ⟨m, b⟩ (u :: t) r := by
  have hs : step ⟨m, b⟩ u = some ⟨m', b'⟩ := by simp [step, hl, hb]
  rw [Reads, run, List.foldlM_cons, hs]
  exact h

/-- Units that a mode gathers one by one. -/
theorem reads_gathered {f : Text → Mode}
    (h : ∀ acc, ∀ u ∈ t, lex (f acc) u = some (f (acc ++ [u]), none)) (acc : Text) :
    Reads ⟨f acc, b⟩ t ⟨f (acc ++ t), b⟩ := by
  induction t generalizing acc with
  | nil => simpa using Reads.nil
  | cons u t ih =>
    refine .cons (h acc u (.head _)) ?_
    have := ih (fun acc v hv => h acc v (.tail _ hv)) (acc ++ [u])
    rwa [List.append_assoc, List.singleton_append] at this

end

/-! ## References and the texts with references -/

/-- A reference is a text in between an ampersand and a semicolon, which is decoded as its unit. -/
theorem exists_text_reference (r : Reference) :
    ∃ body, r.text = Text.unit '&' :: (body ++ [Text.unit ';']) ∧ Text.unit ';' ∉ body ∧
      CharReference.decode? body = some [r.unit] := by
  cases r with
  | amp => exact ⟨Text.ofString "amp", rfl, by decide, rfl⟩
  | lt => exact ⟨Text.ofString "lt", rfl, by decide, rfl⟩
  | gt => exact ⟨Text.ofString "gt", rfl, by decide, rfl⟩
  | quot => exact ⟨Text.ofString "quot", rfl, by decide, rfl⟩
  | tab => exact ⟨Text.ofString "#9", rfl, by decide, rfl⟩
  | lineFeed => exact ⟨Text.ofString "#10", rfl, by decide, rfl⟩
  | carriageReturn => exact ⟨Text.ofString "#13", rfl, by decide, rfl⟩

/-- What is written for a unit is its reference, or itself if no reference of the list stands for
it. -/
theorem encodeUnit_cases (references : List Reference) (u : UInt16) :
    (∃ r ∈ references, r.unit = u ∧ Reference.encodeUnit references u = r.text) ∨
      (∀ r ∈ references, r.unit ≠ u) ∧ Reference.encodeUnit references u = [u] := by
  unfold Reference.encodeUnit
  cases h : Reference.for? references u with
  | some r =>
    exact .inl ⟨r, List.mem_of_find?_eq_some h, by simpa using List.find?_some h, rfl⟩
  | none => exact .inr ⟨by simpa [Reference.for?] using h, rfl⟩

variable {b : Builder}

/-- Character data is read as the text that it was made from. -/
theorem reads_charData (t : Text) :
    Reads ⟨.content, b⟩ (CharData.encode t) ⟨.content, b.addChars t⟩ := by
  induction t generalizing b with
  | nil =>
    rw [Builder.addChars_nil]
    exact .nil
  | cons u t ih =>
    have hu : Reads ⟨.content, b⟩ (Reference.encodeUnit CharData.references u)
        ⟨.content, b.addChars [u]⟩ := by
      rcases encodeUnit_cases CharData.references u with ⟨r, -, rfl, he⟩ | ⟨hn, he⟩
      · obtain ⟨body, ht, hs, hd⟩ := exists_text_reference r
        rw [he, ht]
        have ha : lex .content (Text.unit '&') = some (.reference [], none) := rfl
        have he : lex (.reference ([] ++ body)) (Text.unit ';') =
            some (.content, some (.chars [r.unit])) := by
          simp [lex, hd]
        refine .cons ha (.append (reads_gathered ?_ []) (.token he rfl .nil))
        intro acc v hv
        simp [lex, ne_of_mem_of_not_mem hv hs]
      · have hamp : u ≠ Text.unit '&' := (hn .amp (.head _)).symm
        have hlt : u ≠ Text.unit '<' := (hn .lt (.tail _ (.head _))).symm
        have hl : lex .content u = some (.content, some (.chars [u])) := by simp [lex, hlt, hamp]
        rw [he]
        exact .token hl rfl .nil
    have := hu.append ih
    rwa [Builder.addChars_addChars] at this

/-- A unit that an attribute value writes as it is neither ends the value nor is changed in it. -/
theorem of_forall_attValue_references {u : UInt16}
    (hn : ∀ r ∈ AttValue.references, r.unit ≠ u) :
    u ≠ Text.unit '"' ∧ u ≠ Text.unit '<' ∧ u ≠ Text.unit '&' ∧
      (if isSpace u then Text.unit ' ' else u) = u := by
  simp only [AttValue.references, List.forall_mem_cons, Reference.unit] at hn
  obtain ⟨hamp, hlt, -, hq, ht, hl, hr, -⟩ := hn
  refine ⟨hq.symm, hlt.symm, hamp.symm, ?_⟩
  simp only [isSpace, List.map_cons, List.map_nil, List.mem_cons, ht.symm, hl.symm, hr.symm,
    List.not_mem_nil, or_false, decide_eq_true_eq]
  split
  · exact Eq.symm ‹_›
  · rfl

/-- An attribute value is read as the text that it was made from. -/
theorem reads_attValue (tag : StartTag) (q : QName) (t acc : Text) :
    Reads ⟨.attrValue tag q (Text.unit '"') acc, b⟩ (AttValue.encode t)
      ⟨.attrValue tag q (Text.unit '"') (acc ++ t), b⟩ := by
  induction t generalizing acc with
  | nil =>
    rw [List.append_nil]
    exact .nil
  | cons u t ih =>
    have hu : Reads ⟨.attrValue tag q (Text.unit '"') acc, b⟩
        (Reference.encodeUnit AttValue.references u)
        ⟨.attrValue tag q (Text.unit '"') (acc ++ [u]), b⟩ := by
      rcases encodeUnit_cases AttValue.references u with ⟨r, -, rfl, he⟩ | ⟨hn, he⟩
      · obtain ⟨body, ht, hs, hd⟩ := exists_text_reference r
        rw [he, ht]
        have ha : lex (.attrValue tag q (Text.unit '"') acc) (Text.unit '&') =
            some (.attrReference tag q (Text.unit '"') acc [], none) := rfl
        refine .cons ha (.append (reads_gathered ?_ []) (.cons (by simp [lex, hd]) .nil))
        intro acc' v hv
        simp [lex, ne_of_mem_of_not_mem hv hs]
      · obtain ⟨hq, hlt, hamp, hsp⟩ := of_forall_attValue_references hn
        rw [he]
        exact .cons (by simp [lex, hq, hlt, hamp, hsp]) .nil
    have := hu.append (ih (acc ++ [u]))
    rwa [List.append_assoc, List.singleton_append] at this

/-! ## Comments -/

/-- Units without a hyphen do not end a comment. -/
theorem reads_comment_of_not_mem {t : Text} (ht : t ≠ []) (hn : Text.unit '-' ∉ t) (acc : Text)
    {hyphens : Nat} (hh : hyphens ≤ 1) :
    Reads ⟨.comment acc hyphens, b⟩ t
      ⟨.comment (acc ++ List.replicate hyphens (Text.unit '-') ++ t) 0, b⟩ := by
  cases t with
  | nil => exact absurd rfl ht
  | cons u t =>
    rw [List.mem_cons, not_or] at hn
    have hu : lex (.comment acc hyphens) u =
        some (.comment (acc ++ List.replicate hyphens (Text.unit '-') ++ [u]) 0, none) := by
      simp [lex, show hyphens ≠ 2 by omega, Ne.symm hn.1]
    refine .cons hu ?_
    have ht : ∀ acc, ∀ v ∈ t, lex (.comment acc 0) v = some (.comment (acc ++ [v]) 0, none) :=
      fun acc v hv => by simp [lex, ne_of_mem_of_not_mem hv hn.2]
    have hr := reads_gathered (b := b) (f := fun acc => .comment acc 0) ht
      (acc ++ List.replicate hyphens (Text.unit '-') ++ [u])
    rwa [List.append_assoc _ [u] t, List.singleton_append] at hr

/-- A text without a double hyphen, and without one at its end, is read to the end of its comment
with the references that it was written with. Hyphens that have been read belong to it. -/
theorem reads_comment_body (t acc : Text) {hyphens : Nat} (hh : hyphens ≤ 1)
    (hd : ¬ Text.ofString "--" <:+: List.replicate hyphens (Text.unit '-') ++ t)
    (hs : ¬ [Text.unit '-'] <:+ List.replicate hyphens (Text.unit '-') ++ t) :
    Reads ⟨.comment acc hyphens, b⟩ (CharData.encode t ++ Text.ofString "-->")
      ⟨.content, { b with items := b.items ++
        [.comment (acc ++ List.replicate hyphens (Text.unit '-') ++ CharData.encode t)] }⟩ := by
  induction t generalizing acc hyphens with
  | nil =>
    have h0 : hyphens = 0 := by
      refine Nat.le_zero.1 (Nat.not_lt.1 fun h1 => hs ?_)
      rw [show hyphens = 1 by omega]
      exact List.suffix_refl _
    subst h0
    rw [show CharData.encode [] ++ Text.ofString "-->" =
      [Text.unit '-', Text.unit '-', Text.unit '>'] from rfl]
    refine .cons (show lex (.comment acc 0) _ = some (.comment acc 1, none) from rfl) ?_
    refine .cons (show lex (.comment acc 1) _ = some (.comment acc 2, none) from rfl) ?_
    have he : lex (.comment acc 2) (Text.unit '>') = some (.content, some (.comment acc)) := rfl
    simpa [CharData.encode] using Reads.token he rfl Reads.nil
  | cons u t ih =>
    rw [show CharData.encode (u :: t) = Reference.encodeUnit CharData.references u ++
      CharData.encode t from rfl, List.append_assoc]
    by_cases hu : u = Text.unit '-'
    · subst hu
      have h0 : hyphens = 0 := by
        refine Nat.le_zero.1 (Nat.not_lt.1 fun h1 => hd ?_)
        rw [show hyphens = 1 by omega]
        exact ⟨[], t, rfl⟩
      subst h0
      have h1 : lex (.comment acc 0) (Text.unit '-') = some (.comment acc 1, none) := rfl
      have hr := ih acc (Nat.le_refl 1) hd hs
      rw [List.replicate_zero, List.append_nil]
      rw [List.append_assoc] at hr
      exact .cons h1 hr
    · have hw : Reference.encodeUnit CharData.references u ≠ [] ∧
          Text.unit '-' ∉ Reference.encodeUnit CharData.references u := by
        have hr : ∀ r ∈ CharData.references, r.text ≠ [] ∧ Text.unit '-' ∉ r.text := by decide
        rcases encodeUnit_cases CharData.references u with ⟨r, hm, -, he⟩ | ⟨-, he⟩
        · rw [he]
          exact hr r hm
        · rw [he]
          exact ⟨List.cons_ne_nil _ _, by simpa using Ne.symm hu⟩
      have hfront := reads_comment_of_not_mem (b := b) hw.1 hw.2 acc hh
      have hback := ih (acc ++ List.replicate hyphens (Text.unit '-') ++
        Reference.encodeUnit CharData.references u) (Nat.zero_le 1)
        (fun h => hd (h.trans ⟨List.replicate hyphens (Text.unit '-') ++ [u], [], by simp⟩))
        (fun h => hs (h.trans ⟨List.replicate hyphens (Text.unit '-') ++ [u], by simp⟩))
      rw [List.replicate_zero, List.append_nil] at hback
      simpa [List.append_assoc] using hfront.append hback

/-- A comment that passes its check is read as its text with the references that it was written
with. -/
theorem reads_comment {t : Text} (h : Comment.flaw? t = none) :
    Reads ⟨.content, b⟩ (Comment.encode t)
      ⟨.content, { b with items := b.items ++ [.comment (CharData.encode t)] }⟩ := by
  have hd : ¬ Text.ofString "--" <:+: t := by
    intro hd
    simp [Comment.flaw?, Text.contains_iff.2 hd] at h
  have hs : ¬ [Text.unit '-'] <:+ t := by
    intro hs
    have hs' : (Text.ofString "-").isSuffixOf t = true := List.isSuffixOf_iff_suffix.2 hs
    unfold Comment.flaw? at h
    split at h
    · cases h
    · cases h
  have ho : Reads ⟨.content, b⟩ (Text.ofString "<!--") ⟨.comment [] 0, b⟩ := rfl
  have hb := reads_comment_body (b := b) t [] (Nat.zero_le 1) hd hs
  rw [Comment.encode, List.append_assoc]
  exact ho.append hb

/-! ## CDATA sections -/

/-- The content of a section is read to the first mark that ends one. Brackets that have been held
back, of which there are two at most, belong to it. -/
theorem reads_cdata_body (t : Text) {brackets : Nat} (hb : brackets ≤ 2)
    (hc : ¬ CDSect.closing <:+: List.replicate brackets (Text.unit ']') ++ t) :
    Reads ⟨.cdata brackets, b⟩ (t ++ CDSect.closing)
      ⟨.content, b.addChars (List.replicate brackets (Text.unit ']') ++ t)⟩ := by
  have h0 : lex (.cdata 0) (Text.unit ']') = some (.cdata 1, none) := rfl
  have h1 : lex (.cdata 1) (Text.unit ']') = some (.cdata 2, none) := rfl
  have h2 : lex (.cdata 2) (Text.unit ']') = some (.cdata 2, some (.chars [Text.unit ']'])) := rfl
  induction t generalizing b brackets with
  | nil =>
    have he : lex (.cdata 2) (Text.unit '>') = some (.content, none) := rfl
    rw [List.append_nil, List.nil_append, CDSect.closing_eq]
    obtain rfl | rfl | rfl : brackets = 0 ∨ brackets = 1 ∨ brackets = 2 := by omega
    · rw [List.replicate_zero, Builder.addChars_nil]
      exact .cons h0 (.cons h1 (.cons he .nil))
    · exact .cons h1 (.token h2 rfl (.cons he .nil))
    · rw [show List.replicate 2 (Text.unit ']') = [Text.unit ']'] ++ [Text.unit ']'] from rfl,
        ← Builder.addChars_addChars]
      exact .token h2 rfl (.token h2 rfl (.cons he .nil))
  | cons u t ih =>
    by_cases hu : u = Text.unit ']'
    · subst hu
      rcases Nat.lt_or_eq_of_le hb with hlt | rfl
      · have hl : lex (.cdata brackets) (Text.unit ']') = some (.cdata (brackets + 1), none) := by
          simp [lex, Nat.ne_of_lt hlt]
        have hrep : List.replicate brackets (Text.unit ']') ++ Text.unit ']' :: t =
            List.replicate (brackets + 1) (Text.unit ']') ++ t := by
          rw [List.replicate_succ', List.append_assoc]
          rfl
        rw [hrep] at hc ⊢
        exact .cons hl (ih hlt hc)
      · -- the first of three brackets is given up
        have hr : Reads ⟨.cdata 2, b.addChars [Text.unit ']']⟩ (t ++ CDSect.closing)
            ⟨.content, (b.addChars [Text.unit ']']).addChars
              (List.replicate 2 (Text.unit ']') ++ t)⟩ :=
          ih (Nat.le_refl 2) fun h =>
            hc (h.trans ⟨[Text.unit ']'], [], by rw [List.append_nil]; rfl⟩)
        rw [Builder.addChars_addChars] at hr
        exact .token h2 rfl hr
    · have hne : ¬ (u = Text.unit '>' ∧ brackets = 2) := by
        rintro ⟨rfl, rfl⟩
        exact hc ⟨[], t, rfl⟩
      have hl : lex (.cdata brackets) u =
          some (.cdata 0, some (.chars (List.replicate brackets (Text.unit ']') ++ [u]))) := by
        simp [lex, hu, hne]
      have hr := ih (b := b.addChars (List.replicate brackets (Text.unit ']') ++ [u]))
        (Nat.zero_le 2)
        (fun h => hc (h.trans ⟨List.replicate brackets (Text.unit ']') ++ [u], [], by simp⟩))
      rw [Builder.addChars_addChars, List.append_assoc] at hr
      exact .token hl rfl hr

/-- CDATA sections are read as the text that was cut into them. -/
theorem reads_cdata (t : Text) :
    Reads ⟨.content, b⟩ (CDSect.encode t) ⟨.content, b.addChars t⟩ := by
  have key : ∀ ss : List Text, (∀ s ∈ ss, ¬ CDSect.closing <:+: s) → ∀ b : Builder,
      Reads ⟨.content, b⟩ (ss.flatMap CDSect.wrap) ⟨.content, b.addChars ss.flatten⟩ := by
    intro ss hs
    induction ss with
    | nil =>
      intro b
      rw [List.flatten_nil, Builder.addChars_nil]
      exact .nil
    | cons s ss ih =>
      intro b
      have ho : Reads ⟨.content, b⟩ CDSect.opening ⟨.cdata 0, b⟩ := rfl
      have hb := reads_cdata_body (b := b) s (Nat.zero_le 2) (hs s (.head _))
      have hr := ih (fun s' hs' => hs s' (.tail _ hs')) (b.addChars s)
      rw [Builder.addChars_addChars] at hr
      rw [List.flatMap_cons, CDSect.wrap, List.append_assoc CDSect.opening]
      exact (ho.append hb).append hr
  have := key _ (CDSect.not_closing_infix t) b
  rwa [CDSect.flatten_sections] at this

/-! ## Tags -/

/-- What a unit is not that delimits nothing. -/
theorem ne_of_not_mem_delimiters {u : UInt16} (h : u ∉ delimiters) :
    isSpace u = false ∧ u ≠ Text.unit '/' ∧ u ≠ Text.unit '>' ∧ u ≠ Text.unit '=' ∧
      u ≠ Text.unit '!' := by
  simp only [delimiters, List.map_cons, List.map_nil, List.mem_cons, List.not_mem_nil, or_false,
    not_or] at h
  simp [isSpace, h]

/-- No unit of a qualified name delimits anything. -/
theorem not_mem_delimiters {q : QName} (hq : q.IsProper) {u : UInt16} (hu : u ∈ q.text) :
    u ∉ delimiters :=
  fun hd => hq.not_mem hd hu

/-- Where a reader stands that has come through some attributes of a start tag, or only through its
name. -/
inductive AtTag (t : StartTag) : Mode → Prop
  | name (hq : t.name.IsProper) (ht : t = ⟨t.name, [], false⟩) : AtTag t (.startName t.name.text)
  | value : AtTag t (.afterValue t)

/-- From there the tag goes on or ends. -/
theorem AtTag.lex {t : StartTag} {m : Mode} {u : UInt16} (h : AtTag t m)
    (hu : isSpace u = true ∨ u = Text.unit '/' ∨ u = Text.unit '>') :
    XmlWriter.lex m u = lexTag t u := by
  cases h with
  | name hq ht =>
    rw [XmlWriter.lex, if_pos hu, QName.read?_text hq, ht]
    rfl
  | value => rfl

/-- A start tag is read up to the end of its name. -/
theorem reads_startName {q : QName} (hq : q.IsProper) :
    Reads ⟨.content, b⟩ (Text.unit '<' :: q.text) ⟨.startName q.text, b⟩ := by
  have hg : ∀ acc, ∀ u ∈ q.text, lex (.startName acc) u = some (.startName (acc ++ [u]), none) := by
    intro acc u hu
    have hn := ne_of_not_mem_delimiters (not_mem_delimiters hq hu)
    simp [lex, hn]
  have ho : lex .content (Text.unit '<') = some (.opened, none) := rfl
  cases ht : q.text with
  | nil => exact absurd ht hq.text_ne_nil
  | cons u t =>
    rw [ht] at hg
    have hn := ne_of_not_mem_delimiters (not_mem_delimiters hq (ht ▸ List.mem_cons_self))
    have hu : lex .opened u = some (.startName [u], none) := by simp [lex, hn]
    exact .cons ho (.cons hu (reads_gathered (fun acc v hv => hg acc v (.tail _ hv)) [u]))

/-- An attribute is read as its name and its value. -/
theorem reads_attribute {t : StartTag} {m : Mode} {q : QName} (hm : AtTag t m) (hq : q.IsProper)
    (v : Text) :
    Reads ⟨m, b⟩ (attributeText q v)
      ⟨.afterValue { t with attributes := t.attributes ++ [(q, v)] }, b⟩ := by
  have hspace : lex m (Text.unit ' ') = some (.inTag t, none) := (hm.lex (.inl rfl)).trans rfl
  have hname : Reads ⟨.inTag t, b⟩ q.text ⟨.attrName t q.text, b⟩ := by
    have hg : ∀ acc, ∀ u ∈ q.text,
        lex (.attrName t acc) u = some (.attrName t (acc ++ [u]), none) := by
      intro acc u hu
      have hn := ne_of_not_mem_delimiters (not_mem_delimiters hq hu)
      simp [lex, hn]
    cases ht : q.text with
    | nil => exact absurd ht hq.text_ne_nil
    | cons u rest =>
      rw [ht] at hg
      have hn := ne_of_not_mem_delimiters (not_mem_delimiters hq (ht ▸ List.mem_cons_self))
      have hu : lex (.inTag t) u = some (.attrName t [u], none) := by simp [lex, hn]
      exact .cons hu (reads_gathered (fun acc v hv => hg acc v (.tail _ hv)) [u])
  have heq : lex (.attrName t q.text) (Text.unit '=') = some (.attrEq t q, none) := by
    simp [lex, QName.read?_text hq]
  have hquote : lex (.attrEq t q) (Text.unit '"') =
      some (.attrValue t q (Text.unit '"') [], none) := rfl
  have hvalue := reads_attValue (b := b) t q v []
  have hend : lex (.attrValue t q (Text.unit '"') v) (Text.unit '"') =
      some (.afterValue { t with attributes := t.attributes ++ [(q, v)] }, none) := by
    simp [lex]
  have hmark : Text.ofString "=\"" = [Text.unit '=', Text.unit '"'] := rfl
  rw [attributeText, hmark]
  simp only [List.append_assoc, List.cons_append, List.nil_append]
  exact .cons hspace (hname.append (.cons heq (.cons hquote (hvalue.append (.cons hend .nil)))))

/-- Attributes are read one by one. -/
theorem reads_attributes {xs : List (QName × Text)} (hx : ∀ x ∈ xs, x.1.IsProper) {t : StartTag}
    {m : Mode} (hm : AtTag t m) :
    ∃ m', AtTag { t with attributes := t.attributes ++ xs } m' ∧
      Reads ⟨m, b⟩ (xs.flatMap fun x => attributeText x.1 x.2) ⟨m', b⟩ := by
  induction xs generalizing t m with
  | nil => exact ⟨m, by rwa [List.append_nil], .nil⟩
  | cons x xs ih =>
    have hr := reads_attribute (b := b) hm (hx x (.head _)) x.2
    obtain ⟨m', hm', hr'⟩ := ih (fun y hy => hx y (.tail _ hy))
      (AtTag.value (t := { t with attributes := t.attributes ++ [x] }))
    refine ⟨m', ?_, hr.append hr'⟩
    rwa [List.append_assoc] at hm'

/-- The end of a start tag completes it. -/
theorem reads_tagEnd {t : StartTag} {m : Mode} {b' : Builder} (hm : AtTag t m)
    (hb : b.take? (.start t) = some b') :
    Reads ⟨m, b⟩ (Text.ofString ">") ⟨.content, b'⟩ := by
  have he : lex m (Text.unit '>') = some (.content, some (.start t)) :=
    (hm.lex (.inr (.inr rfl))).trans rfl
  exact .token he hb .nil

/-- The end of an empty-element tag completes it, whether there is a space before its slash or not.
-/
theorem reads_slash {t : StartTag} {m : Mode} {b' : Builder} (hm : AtTag t m) (spaced : Bool)
    (hb : b.take? (.start { t with isEmpty := true }) = some b') :
    Reads ⟨m, b⟩ ((Piece.slash spaced).render ++ Text.ofString ">") ⟨.content, b'⟩ := by
  have he : lex (.slash t) (Text.unit '>') =
      some (.content, some (.start { t with isEmpty := true })) := rfl
  cases spaced with
  | false =>
    have hs : lex m (Text.unit '/') = some (.slash t, none) :=
      (hm.lex (.inr (.inl rfl))).trans rfl
    exact .cons hs (.token he hb .nil)
  | true =>
    have hw : lex m (Text.unit ' ') = some (.inTag t, none) := (hm.lex (.inl rfl)).trans rfl
    have hs : lex (.inTag t) (Text.unit '/') = some (.slash t, none) := rfl
    exact .cons hw (.cons hs (.token he hb .nil))

/-- An end tag is read as its name. -/
theorem reads_endTag {q : QName} {b' : Builder} (hq : q.IsProper)
    (hb : b.take? (.close q) = some b') :
    Reads ⟨.content, b⟩ (Piece.endTag q).render ⟨.content, b'⟩ := by
  have hopen : Reads ⟨.content, b⟩ (Text.ofString "</") ⟨.endName [], b⟩ := rfl
  have hg : ∀ acc, ∀ u ∈ q.text, lex (.endName acc) u = some (.endName (acc ++ [u]), none) := by
    intro acc u hu
    have hn := ne_of_not_mem_delimiters (not_mem_delimiters hq hu)
    simp [lex, hn]
  have hname := reads_gathered (b := b) hg []
  have hend : lex (.endName q.text) (Text.unit '>') = some (.content, some (.close q)) := by
    simp [lex, QName.read?_text hq]
  exact (hopen.append hname).append (.token hend hb .nil)

end Reader

end XmlWriter
