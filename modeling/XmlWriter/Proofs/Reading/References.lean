import XmlWriter.Proofs.Reading.Lexing
import XmlWriter.Proofs.Text.LineEnds

/-!
# Escaped texts and what a reader gives back

Before it looks at anything else, a reader makes every line end a line feed
(`Text.normalizeLineEnds`). It then replaces references, without a second look at what they stand
for, and in an attribute value it turns white space that stands there as itself into spaces
(`CharReference.replace?`). `CharData.read?` and `AttValue.read?` are these rules between tags and
between quotes. What is written with a list of references is read as the text that it was made from
as long as every unit that a reader would change has one (`CharReference.replace?_encode`). Main
statements: attribute values are given back as they were (`AttValue.read?_of_write_value`), and
character data with their line ends normalized, since a carriage return has no reference there
(`CharData.read?_of_write`).
-/

namespace XmlWriter

/-- A checked encoding is given if the check lets it pass, and is then what it is. -/
theorem vet_bind_eq_ok_iff {enforce : Bool} {flaw? : Option Flaw} {t e : Text} :
    (do vet enforce flaw?; return t : Except Flaw Text) = .ok e ↔
      vet enforce flaw? = .ok () ∧ t = e := by
  cases h : vet enforce flaw? with
  | error flaw => simp [bind, Except.bind]
  | ok u => simp [bind, Except.bind, pure, Except.pure]

/-! ## References -/

namespace Reference

variable {references : List Reference} {t before after : Text}

/-- A unit with a reference is not written as itself. -/
theorem not_mem_encode {r : Reference} (hr : r ∈ references)
    (hn : ∀ r' ∈ references, r.unit ∉ r'.text) (t : Text) : r.unit ∉ encode references t := by
  induction t with
  | nil => exact List.not_mem_nil
  | cons v t ih =>
    rw [encode_cons, List.mem_append, not_or]
    refine ⟨?_, ih⟩
    rcases Reader.encodeUnit_cases references v with ⟨r', hr', -, he⟩ | ⟨hv, he⟩
    · rw [he]
      exact hn r' hr'
    · rw [he, List.mem_singleton]
      exact hv r hr

/-- An ampersand stands nowhere in a reference but at its beginning. -/
theorem ampersand_not_mem_tail (r : Reference) : Text.unit '&' ∉ r.text.tail := by
  cases r <;> decide

/-- Every ampersand begins a reference of the list, if ampersands have one. -/
theorem exists_of_ampersand (ha : .amp ∈ references)
    (h : encode references t = before ++ Text.unit '&' :: after) :
    ∃ r ∈ references, r.text <+: Text.unit '&' :: after := by
  induction t generalizing before with
  | nil => exact absurd h (by simp)
  | cons v t ih =>
    rw [encode_cons] at h
    rcases Reader.encodeUnit_cases references v with ⟨r, hr, -, he⟩ | ⟨hv, he⟩
    · rw [he] at h
      rcases List.append_eq_append_iff.1 h with ⟨rest, -, hrest⟩ | ⟨rest, hr', hrest⟩
      · exact ih hrest
      · -- the ampersand stands in the reference, so it is its first unit
        cases before with
        | nil =>
          rw [List.nil_append] at hr'
          subst hr'
          exact ⟨r, hr, hrest ▸ List.prefix_append _ _⟩
        | cons x before =>
          cases rest with
          | nil =>
            have hstart : encode references t = [] ++ Text.unit '&' :: after := hrest.symm
            exact ih hstart
          | cons y rest =>
            obtain ⟨rfl, -⟩ := List.cons.inj hrest
            refine absurd ?_ r.ampersand_not_mem_tail
            rw [hr']
            exact List.mem_append_right _ (.head _)
    · rw [he, List.singleton_append] at h
      cases before with
      | nil =>
        obtain ⟨rfl, -⟩ := List.cons.inj h
        exact absurd rfl (hv .amp ha)
      | cons x before => exact ih (List.cons.inj h).2

end Reference

namespace CharReference

/-- A text with its references replaced and with `literal` applied to each unit that stands as
itself, if every ampersand begins a reference. What has been read of a reference comes first. -/
def replace? (literal : UInt16 → UInt16) : Option Text → Text → Option Text
  | none, [] => some []
  | some _, [] => none
  | none, u :: rest =>
    if u = Text.unit '&' then replace? literal (some []) rest
    else (replace? literal none rest).map (literal u :: ·)
  | some body, u :: rest =>
    if u = Text.unit ';' then do
      let s ← decode? body
      (replace? literal none rest).map (s ++ ·)
    else replace? literal (some (body ++ [u])) rest

variable {literal : UInt16 → UInt16}

/-- A reference is read up to its semicolon. -/
theorem replace?_body {body : Text} (h : Text.unit ';' ∉ body) (acc rest : Text) :
    replace? literal (some acc) (body ++ Text.unit ';' :: rest) =
      (decode? (acc ++ body)).bind fun s => (replace? literal none rest).map (s ++ ·) := by
  induction body generalizing acc with
  | nil =>
    rw [List.nil_append, replace?, if_pos rfl, List.append_nil]
    rfl
  | cons u body ih =>
    rw [List.mem_cons, not_or] at h
    obtain ⟨hu, hb⟩ := h
    rw [List.cons_append, replace?, if_neg (Ne.symm hu), ih hb, List.append_assoc,
      List.singleton_append]

/-- A reference is read as the unit that it stands for. -/
theorem replace?_text (r : Reference) (rest : Text) :
    replace? literal none (r.text ++ rest) = (replace? literal none rest).map (r.unit :: ·) := by
  obtain ⟨body, ht, hs, hd⟩ := Reader.exists_text_reference r
  rw [ht, List.cons_append, replace?, if_pos rfl, List.append_assoc, List.singleton_append,
    replace?_body hs, List.nil_append, hd]
  rfl

/-- What is written with references is read as the text that it was made from, if ampersands have
one and so has every unit that does not stay as it is. -/
theorem replace?_encode {references : List Reference} (ha : .amp ∈ references)
    (hl : ∀ u, (∀ r ∈ references, r.unit ≠ u) → literal u = u) (t : Text) :
    replace? literal none (Reference.encode references t) = some t := by
  induction t with
  | nil => rfl
  | cons u t ih =>
    rw [Reference.encode_cons]
    rcases Reader.encodeUnit_cases references u with ⟨r, -, rfl, he⟩ | ⟨hu, he⟩
    · rw [he, replace?_text, ih]
      rfl
    · have hamp : u ≠ Text.unit '&' := (hu .amp ha).symm
      rw [he, List.singleton_append, replace?, if_neg hamp, ih, hl u hu]
      rfl

end CharReference

/-! ## Character data -/

namespace CharData

/-- What a reader makes of a text between tags, if it is character data: no markup is opened and no
section is ended in it. -/
def read? (t : Text) : Option Text :=
  let t := t.normalizeLineEnds
  if Text.unit '<' ∈ t ∨ Text.contains CDSect.closing t then none
  else CharReference.replace? id none t

/-- Markup is not written as itself in character data. -/
theorem not_mem_encode (t : Text) : Text.unit '<' ∉ encode t ∧ Text.unit '>' ∉ encode t :=
  ⟨Reference.not_mem_encode (r := .lt) (by decide) (by decide) t,
    Reference.not_mem_encode (r := .gt) (by decide) (by decide) t⟩

/-- The mark that ends a CDATA section does not stand in character data. -/
theorem not_closing_infix_encode (t : Text) : ¬ CDSect.closing <:+: encode t := by
  intro h
  have hm : Text.unit '>' ∈ CDSect.closing := by decide
  exact (not_mem_encode t).2 (h.subset hm)

/-- Character data begin with a line feed exactly if their text does. -/
theorem head?_encode_eq_lineFeed_iff (t : Text) :
    (encode t).head? = some (Text.unit '\n') ↔ t.head? = some (Text.unit '\n') := by
  cases t with
  | nil => rfl
  | cons u t =>
    have hr : ∀ r ∈ references, r.unit ≠ Text.unit '\n' ∧ r.text.head? = some (Text.unit '&') := by
      decide
    rw [encode, Reference.encode_cons]
    rcases Reader.encodeUnit_cases references u with ⟨r, hm, rfl, he⟩ | ⟨-, he⟩
    · obtain ⟨hne, hamp⟩ := hr r hm
      rw [he, List.head?_append, hamp, Option.some_or]
      exact iff_of_false (by decide) fun h => hne (Option.some.inj h)
    · rw [he]
      rfl

/-- Line ends are written as they stand, so that they may be normalized before or after. -/
theorem normalizeLineEnds_encode (t : Text) :
    (encode t).normalizeLineEnds = encode t.normalizeLineEnds := by
  induction t with
  | nil => rfl
  | cons u t ih =>
    have hcons : ∀ v s, encode (v :: s) = Reference.encodeUnit references v ++ encode s :=
      fun _ _ => rfl
    by_cases hu : u = Text.unit '\r'
    · subst hu
      have hself : Reference.encodeUnit references (Text.unit '\r') = [Text.unit '\r'] := rfl
      have hfeed : Reference.encodeUnit references (Text.unit '\n') = [Text.unit '\n'] := rfl
      rw [hcons, hself, List.singleton_append, Text.normalizeLineEnds, if_pos rfl,
        Text.normalizeLineEnds, if_pos rfl]
      by_cases hh : t.head? = some (Text.unit '\n')
      · rw [if_pos ((head?_encode_eq_lineFeed_iff t).2 hh), if_pos hh, ih]
      · rw [if_neg fun h => hh ((head?_encode_eq_lineFeed_iff t).1 h), if_neg hh, hcons, hfeed, ih,
          List.singleton_append]
    · have hn : Text.unit '\r' ∉ Reference.encodeUnit references u := by
        rcases Reader.encodeUnit_cases references u with ⟨r, -, -, he⟩ | ⟨-, he⟩
        · rw [he]
          cases r <;> decide
        · rw [he, List.mem_singleton]
          exact Ne.symm hu
      rw [hcons, Text.normalizeLineEnds_append hn, ih, Text.normalizeLineEnds, if_neg hu, hcons]

/-- Character data are read as their text with its line ends normalized. -/
theorem read?_encode (t : Text) : read? (encode t) = some t.normalizeLineEnds := by
  have hmarkup : ¬ (Text.unit '<' ∈ encode t.normalizeLineEnds ∨
      Text.contains CDSect.closing (encode t.normalizeLineEnds) = true) := by
    rw [Text.contains_iff, not_or]
    exact ⟨(not_mem_encode _).1, not_closing_infix_encode _⟩
  rw [read?, normalizeLineEnds_encode, if_neg hmarkup]
  exact CharReference.replace?_encode (by decide) (fun _ _ => rfl) _

/-- Without checks every text can be written as character data. What is written, with checks or
without, opens no markup, does not hold the mark that ends a CDATA section, and has ampersands only
where one of three references begins. It is read as the text with its line ends normalized, which is
the text that it was made from exactly if that has no carriage return. -/
theorem read?_of_write (t : Text) :
    (∃ e, write false t = .ok e) ∧ ∀ enforce e, write enforce t = .ok e →
      Text.unit '<' ∉ e ∧ ¬ CDSect.closing <:+: e ∧
      (∀ before after, e = before ++ Text.unit '&' :: after →
        ∃ name ∈ ["amp;", "lt;", "gt;"], Text.ofString name <+: after) ∧
      read? e = some t.normalizeLineEnds ∧ (read? e = some t ↔ Text.unit '\r' ∉ t) := by
  refine ⟨⟨_, vet_bind_eq_ok_iff.2 ⟨vet_false _, rfl⟩⟩, ?_⟩
  intro enforce e he
  obtain ⟨-, rfl⟩ := vet_bind_eq_ok_iff.1 he
  refine ⟨(not_mem_encode t).1, not_closing_infix_encode t, ?_, read?_encode t, ?_⟩
  · intro before after h
    obtain ⟨r, hr, hp⟩ := Reference.exists_of_ampersand (by decide) h
    have hname : ∀ r ∈ references, ∃ name ∈ ["amp;", "lt;", "gt;"],
        r.text = Text.unit '&' :: Text.ofString name := by decide
    obtain ⟨name, hm, ht⟩ := hname r hr
    exact ⟨name, hm, (List.cons_prefix_cons.1 (ht ▸ hp)).2⟩
  · rw [read?_encode, Option.some_inj]
    exact Text.normalizeLineEnds_eq_self_iff

/-- A carriage return that stands for itself is read as a line feed. -/
theorem not_read?_of_carriageReturn :
    let t := Text.ofString "a\rb"
    ∃ e, write true t = .ok e ∧ read? e = some (Text.ofString "a\nb") ∧ read? e ≠ some t :=
  ⟨Text.ofString "a\rb", rfl, by decide, by decide⟩

end CharData

/-! ## Attribute values -/

namespace AttValue

/-- What a reader makes of a text between double quotes, if it is the value of an attribute: no
markup is opened in it, and it does not end before. -/
def read? (t : Text) : Option Text :=
  let t := t.normalizeLineEnds
  if Text.unit '<' ∈ t ∨ Text.unit '"' ∈ t then none
  else CharReference.replace? (fun u => if isSpace u then Text.unit ' ' else u) none t

/-- A unit that has a reference is not written as itself, except for the ampersand. -/
theorem not_mem_encode {r : Reference} (hr : r ≠ .amp) (t : Text) : r.unit ∉ encode t := by
  have hm : r ∈ references := by cases r <;> decide
  have hall : ∀ r ∈ references, r ≠ .amp → ∀ r' ∈ references, r.unit ∉ r'.text := by decide
  exact Reference.not_mem_encode hm (hall r hm hr) t

/-- Attribute values are read as their text. -/
theorem read?_encode (t : Text) : read? (encode t) = some t := by
  have hend : ¬ (Text.unit '<' ∈ encode t ∨ Text.unit '"' ∈ encode t) :=
    not_or.2 ⟨not_mem_encode (r := .lt) (by decide) t, not_mem_encode (r := .quot) (by decide) t⟩
  have hline : (encode t).normalizeLineEnds = encode t :=
    Text.normalizeLineEnds_eq_self_iff.2 (not_mem_encode (r := .carriageReturn) (by decide) t)
  rw [read?, hline, if_neg hend]
  exact CharReference.replace?_encode (by decide)
    (fun _ hu => (Reader.of_forall_attValue_references hu).2.2.2) t

/-- Without checks every text can be written as an attribute value. What is written, with checks or
without, does not hold the quote that would end it, opens no markup, and has ampersands only where a
reference begins. It is read as the text that it was made from. -/
theorem read?_of_write_value (t : Text) :
    (∃ e, write false t = .ok e) ∧ ∀ enforce e, write enforce t = .ok e →
      Text.unit '"' ∉ e ∧ Text.unit '<' ∉ e ∧
      (∀ before after, e = before ++ Text.unit '&' :: after →
        ∃ r ∈ references, r.text <+: Text.unit '&' :: after) ∧
      read? e = some t := by
  refine ⟨⟨_, vet_bind_eq_ok_iff.2 ⟨vet_false _, rfl⟩⟩, ?_⟩
  intro enforce e he
  obtain ⟨-, rfl⟩ := vet_bind_eq_ok_iff.1 he
  exact ⟨not_mem_encode (r := .quot) (by decide) t, not_mem_encode (r := .lt) (by decide) t,
    fun before after h => Reference.exists_of_ampersand (by decide) h, read?_encode t⟩

end AttValue

end XmlWriter
