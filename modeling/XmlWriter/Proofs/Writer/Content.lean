import XmlWriter.Proofs.Reading.Production
import XmlWriter.Proofs.Text.Mark
import XmlWriter.Proofs.Writer.Bytes
import XmlWriter.Proofs.Writer.Failing

/-!
# Comments and processing instructions

What the checks of comments and of processing instructions let pass, against the productions of
XML. The check of a comment is exact: it finds no flaw in the texts of `Production.commentText` and
in no others (`Comment.flaw?_eq_none_iff`), and a text stays one of them with its references
(`CharData.mem_commentText_encode`). The check of an instruction is exact about the data, but looks
in the target for a colon only, so that a target that is no name can end the instruction early. Main
statements: `Writer.mem_commentText_iff_of_perform` and `Writer.mem_instruction_iff_of_perform`.
-/

open scoped Computability

namespace XmlWriter

/-! ## Content is written or refused -/

namespace Writer

variable {ω : Type} [Outlet ω] {w : Writer} {out : ω} {e : Event} {flaw? : Option Flaw} {p : Piece}

/-- Content is refused exactly if its check finds a flaw and is enforced. -/
theorem forall_failure_ne_flaw_iff (he : e.emit = Event.emitContent flaw? p) :
    (∀ flaw, (w.perform out e).failure ≠ some (.flaw flaw)) ↔ vet w.enforce flaw? = .ok () := by
  cases hv : vet w.enforce flaw? with
  | error flaw =>
    have hr : e.emit.run w = ⟨[], .error flaw, w⟩ := by
      rw [he, Event.emitContent, Emit.run_get_bind]
      exact Emit.run_bind_of_error _ hv
    have hf : (w.perform out e).failure = some (.flaw flaw) := by
      rw [perform, hr]
      rfl
    exact iff_of_false (fun h => h flaw hf) (by simp)
  | ok u =>
    have hr : e.emit.run w = ⟨[(p, w)], .ok none, w⟩ := by
      rw [he, Event.emitContent, Emit.run_get_bind, Emit.run_demand_bind_of_ok _ hv]
      rfl
    refine iff_of_true (fun flaw hf => ?_) rfl
    have he := (perform_flaw hf).1
    rw [hr] at he
    cases he

/-- Content that does not fail has passed its check and is one chunk. -/
theorem takes_of_emitContent (he : e.emit = Event.emitContent flaw? p)
    (h : (w.perform out e).failure = none) :
    vet w.enforce flaw? = .ok () ∧ Outlet.Takes out [p.render] (w.perform out e).out := by
  obtain ⟨a, ha⟩ := ends_of_perform h
  rw [he, Event.ends_emitContent] at ha
  obtain ⟨-, hv, hp, -⟩ := ha
  have ht := takes_of_perform h
  rw [hp] at ht
  exact ⟨hv, ht⟩

end Writer

/-! ## Comments -/

namespace Comment

variable {t body : Text}

/-- The production as the check has it: characters without a double hyphen and without a hyphen at
the end, the hyphens looked for among the units. -/
theorem codePoints_mem_commentText_iff : t.codePoints ∈ Production.commentText ↔
    (∀ n ∈ t.codePoints, CharClass.char.contains n = true) ∧ ¬ Text.ofString "--" <:+: t ∧
      ¬ Text.ofString "-" <:+ t := by
  have hd : [0x2D, 0x2D] <:+: t.codePoints ↔ Text.ofString "--" <:+: t :=
    Text.IsMark.infix_codePoints_iff (m := Text.ofString "--") (by decide)
  have he : [0x2D] <:+ t.codePoints ↔ Text.ofString "-" <:+ t :=
    Text.IsMark.suffix_codePoints_iff (m := Text.ofString "-") (by decide)
  simp only [Production.mem_commentText_iff, hd, he, Production.mem_char_iff]

/-- The check of a comment finds no flaw exactly in the texts of the production. -/
theorem flaw?_eq_none_iff : flaw? t = none ↔ t.codePoints ∈ Production.commentText := by
  rw [codePoints_mem_commentText_iff, ← @charFlaw?_eq_none_iff context, flaw?,
    ← Text.contains_iff, ← List.isSuffixOf_iff_suffix]
  split
  next h => simp [h]
  next h =>
    split
    next h' => simp [h']
    next h' => simp [h, h']

/-- The text of a comment between the marks of one is a comment of the grammar. -/
theorem codePoints_mem_comment (h : body.codePoints ∈ Production.commentText) :
    (Text.ofString "<!--" ++ body ++ Text.ofString "-->").codePoints ∈ Production.comment := by
  rw [Text.IsMark.codePoints_wrap (by decide) (by decide), Production.comment,
    Production.append_mem_mul_literal_iff, Production.append_mem_literal_mul_iff]
  exact h

/-- The first double hyphen after the text of a comment is that of the end mark. -/
theorem dropInfix?_of_mem_commentText (h : body.codePoints ∈ Production.commentText) :
    (body ++ Text.ofString "-->").dropInfix? (Text.ofString "--") =
      some (body, Text.ofString ">") := by
  obtain ⟨-, hd, he⟩ := codePoints_mem_commentText_iff.1 h
  have hsplit : body ++ Text.ofString "-->" =
      body ++ Text.ofString "--" ++ Text.ofString ">" := by
    rw [List.append_assoc]
    rfl
  rw [hsplit, Text.dropInfix?_append_iff (by decide)]
  have hlast : (Text.ofString "--").dropLast = [Text.unit '-'] := rfl
  rw [hlast, List.infix_concat_iff, not_or]
  refine ⟨fun hs : [Text.unit '-'] ++ [Text.unit '-'] <:+ _ => he ?_, hd⟩
  exact List.suffix_append_self_iff.1 hs

end Comment

namespace CharData

/-- The code points that character data shows for a code point. -/
def escape (n : ℕ) : List ℕ :=
  match references.find? fun r => r.unit.toNat = n with
  | some r => r.text.codePoints
  | none => [n]

/-- For one unit, code points are escaped as the unit is encoded. -/
theorem escape_toNat (u : UInt16) :
    escape u.toNat = (Reference.encodeUnit references u).codePoints := by
  have hf : (fun r : Reference => decide (r.unit.toNat = u.toNat)) = fun r => decide (r.unit = u) :=
    funext fun r => decide_eq_decide.2 UInt16.toNat_inj
  rw [escape, hf, Reference.encodeUnit, Reference.for?]
  cases references.find? fun r => decide (r.unit = u) <;> rfl

/-- There are no references to characters beyond the basic plane. -/
theorem escape_of_le {n : ℕ} (h : 0x10000 ≤ n) : escape n = [n] := by
  have hn : references.find? (fun r => decide (r.unit.toNat = n)) = none := by
    rw [List.find?_eq_none]
    intro r _
    have := r.unit.toNat_lt
    simp only [decide_eq_true_eq]
    omega
  rw [escape, hn]

/-- Half of a pair has no reference. -/
theorem encodeUnit_of_isSurrogate {u : UInt16} (h : Text.isHigh u = true ∨ Text.isLow u = true) :
    Reference.encodeUnit references u = [u] := by
  rcases Reader.encodeUnit_cases references u with ⟨r, -, rfl, -⟩ | ⟨-, he⟩
  · exfalso
    revert h
    cases r <;> decide
  · exact he

/-- Units are written one by one, but what is written is what the code points are written as: a
reference never cuts a surrogate pair in two. -/
theorem codePoints_encode (t : Text) : (encode t).codePoints = t.codePoints.flatMap escape := by
  have hcons : ∀ u t, encode (u :: t) = Reference.encodeUnit references u ++ encode t :=
    fun _ _ => rfl
  fun_induction Text.codePoints t with
  | case1 u v rest h ih =>
    rw [Bool.and_eq_true] at h
    rw [hcons, hcons, encodeUnit_of_isSurrogate (.inl h.1), encodeUnit_of_isSurrogate (.inr h.2),
      List.singleton_append, List.singleton_append, Text.codePoints_cons_of_pair h.1 h.2, ih,
      List.flatMap_cons, escape_of_le (Text.le_joined u v), List.singleton_append]
  | case2 u v rest h ih =>
    rw [hcons, Text.codePoints_append, ih, List.flatMap_cons, escape_toNat]
    rintro ⟨hu, hv⟩
    rcases Reader.encodeUnit_cases references u with ⟨r, -, -, he⟩ | ⟨-, he⟩
    · have hr : r.text.endsHigh = false := by cases r <;> rfl
      rw [he, hr] at hu
      cases hu
    · rw [he] at hu
      refine Bool.eq_false_iff.1 (beginsLow_encode ?_) hv
      rw [Bool.and_eq_true] at h
      exact Bool.eq_false_iff.2 fun hl => h ⟨hu, hl⟩
  | case3 u =>
    rw [hcons, List.flatMap_singleton, escape_toNat]
    exact congrArg _ (List.append_nil _)
  | case4 => rfl

/-- What is shown for a character is not empty and has no hyphen, unless the character is one. -/
theorem exists_escape {n : ℕ} (hn : n ∈ Production.char) (hne : n ≠ 0x2D) :
    ∃ m ms, escape n = m :: ms ∧ ∀ k ∈ m :: ms, k ∈ Production.char ∧ k ≠ 0x2D := by
  unfold escape
  split
  next r hr =>
    have href : ∀ r ∈ references, r.text.codePoints ≠ [] ∧
        ∀ k ∈ r.text.codePoints, CharClass.char.contains k = true ∧ k ≠ 0x2D := by decide
    obtain ⟨hnil, hk⟩ := href r (List.mem_of_find?_eq_some hr)
    obtain ⟨m, ms, he⟩ := List.exists_cons_of_ne_nil hnil
    exact ⟨m, ms, he, fun k hm => by
      rw [Production.mem_char_iff]
      exact hk k (he ▸ hm)⟩
  next =>
    refine ⟨n, [], rfl, fun k hk => ?_⟩
    rw [List.mem_singleton] at hk
    exact hk ▸ ⟨hn, hne⟩

/-- The text of a comment is one still with its references. -/
theorem mem_commentText_encode {t : Text} (h : t.codePoints ∈ Production.commentText) :
    (encode t).codePoints ∈ Production.commentText := by
  rw [codePoints_encode]
  refine Production.commentText_induction (P := fun w => w.flatMap escape ∈ Production.commentText)
    Production.nil_mem_commentText ?_ ?_ h
  · intro n w hn hne hw
    obtain ⟨m, ms, he, hm⟩ := exists_escape hn hne
    rw [List.flatMap_cons, he]
    exact Production.append_mem_commentText hm hw
  · intro n w hn hne hw
    obtain ⟨m, ms, he, hm⟩ := exists_escape hn hne
    have hy : escape 0x2D = [0x2D] := by decide
    rw [List.flatMap_cons, List.flatMap_cons, hy, he]
    rw [List.forall_mem_cons] at hm
    exact Production.hyphen_cons_mem_commentText hm.1.1 hm.1.2
      (Production.append_mem_commentText hm.2 hw)

end CharData

namespace Writer

variable {ω : Type} [Outlet ω] {w : Writer}

/-- With checks, a comment is accepted exactly if its text is the text of a comment. What is written
then is a comment whose text, with references, is the text of one still, and the first double hyphen
in it is that of its end mark. -/
theorem mem_commentText_iff_of_perform (hw : w.enforce = true) (out : ω) (t : Text) :
    let p := w.perform out (.comment t)
    let body := CharData.encode t
    let e := Text.ofString "<!--" ++ body ++ Text.ofString "-->"
    ((∀ flaw, p.failure ≠ some (.flaw flaw)) ↔ t.codePoints ∈ Production.commentText) ∧
      (p.failure = none → Outlet.Takes out [e] p.out ∧
        body.codePoints ∈ Production.commentText ∧ e.codePoints ∈ Production.comment ∧
        (body ++ Text.ofString "-->").dropInfix? (Text.ofString "--") =
          some (body, Text.ofString ">")) := by
  intro p body e
  refine ⟨?_, fun hf => ?_⟩
  · rw [forall_failure_ne_flaw_iff rfl, hw, vet_true_eq_ok_iff, Comment.flaw?_eq_none_iff]
  · obtain ⟨hv, ht⟩ := takes_of_emitContent rfl hf
    rw [hw, vet_true_eq_ok_iff, Comment.flaw?_eq_none_iff] at hv
    have hbody : body.codePoints ∈ Production.commentText := CharData.mem_commentText_encode hv
    exact ⟨ht, hbody, Comment.codePoints_mem_comment hbody,
      Comment.dropInfix?_of_mem_commentText hbody⟩

/-- A text with markup of its own and with single hyphens, one of them before a reference. -/
theorem mem_commentText_iff_of_perform_markup :
    let w := new { enforce := true }
    let t := Text.ofString "a-<b> - &c"
    let p := w.perform TextBuffer.empty (.comment t)
    let body := Text.ofString "a-&lt;b&gt; - &amp;c"
    p.failure = none ∧ t.codePoints ∈ Production.commentText ∧
      Outlet.Takes TextBuffer.empty [Text.ofString "<!--" ++ body ++ Text.ofString "-->"] p.out ∧
      body.codePoints ∈ Production.commentText := by
  intro w t p body
  obtain ⟨ha, hw⟩ := mem_commentText_iff_of_perform (w := w) rfl TextBuffer.empty t
  have hf : p.failure = none := by decide +kernel
  have hbody : CharData.encode t = body := by decide +kernel
  have hn : ∀ flaw, p.failure ≠ some (.flaw flaw) := by simp [hf]
  obtain ⟨ht, hb, -⟩ := hw hf
  rw [hbody] at ht hb
  exact ⟨hf, ha.1 hn, ht, hb⟩

end Writer

/-! ## Processing instructions -/

namespace Instruction

variable {target data : Text}

/-- A target that is the reserved one by the grammar is found to be it. -/
theorem isReserved_of_mem (h : target.codePoints ∈ Production.reserved) :
    isReserved target = true := by
  simp only [Production.reserved, Language.mem_mul] at h
  obtain ⟨_, ⟨_, ⟨a, ha, rfl⟩, _, ⟨b, hb, rfl⟩, rfl⟩, _, ⟨c, hc, rfl⟩, he⟩ := h
  have ht := Text.flatMap_ofCodePoint_codePoints target
  rw [← he] at ht
  rw [← ht]
  rcases ha with rfl | rfl <;> rcases hb with rfl | rfl <;> rcases hc with rfl | rfl <;> decide

/-- The check of the data is that of the grammar. -/
theorem codePoints_mem_instructionText_iff : data.codePoints ∈ Production.instructionText ↔
    ¬ closing <:+: data ∧ charFlaw? dataContext data = none := by
  have hm : [0x3F, 0x3E] <:+: data.codePoints ↔ closing <:+: data :=
    Text.IsMark.infix_codePoints_iff (m := closing) (by decide)
  simp only [Production.mem_instructionText_iff, hm, Production.mem_char_iff,
    charFlaw?_eq_none_iff, and_comm]

/-- No flaw is found in an instruction exactly if the target is not the reserved one, has no colon
and is made of characters, and the data is data. -/
theorem flaw?_eq_none_iff : flaw? target data = none ↔
    isReserved target = false ∧ Text.unit ':' ∉ target ∧
      charFlaw? targetContext target = none ∧ data.codePoints ∈ Production.instructionText := by
  rw [codePoints_mem_instructionText_iff, flaw?, ← Text.contains_iff,
    ← Text.contains_singleton (u := Text.unit ':')]
  split
  next h => simp [h]
  next h =>
    split
    next h' => simp [h']
    next h' =>
      split
      next h'' => simp [h'']
      next h'' => simp [h, h', h'', Option.or_eq_none_iff]

/-- A name that is not found to be the reserved one is a target of the grammar. -/
theorem mem_target (h : isReserved target = false) (hn : target.codePoints ∈ Production.name) :
    target.codePoints ∈ Production.target :=
  ⟨hn, fun hr => Bool.eq_false_iff.1 h (isReserved_of_mem hr)⟩

/-- An instruction between its two marks. -/
theorem encode_eq (target data : Text) : encode target data =
    Text.ofString "<?" ++ (target ++ Text.unit ' ' :: data) ++ closing := by
  rw [encode, List.append_assoc (Text.ofString "<?")]

/-- The code points of an instruction are those of its parts. -/
theorem codePoints_encode_mem_instructionOf_iff {targets : Language ℕ} :
    (encode target data).codePoints ∈ Production.instructionOf targets ↔
      target.codePoints ++ 0x20 :: data.codePoints ∈ Production.instructionBody targets := by
  have hs : (Text.unit ' ' :: data) = [Text.unit ' '] ++ data := rfl
  rw [encode_eq, Text.IsMark.codePoints_wrap (by decide) (by decide), closing,
    Production.instructionOf, Production.append_mem_mul_literal_iff,
    Production.append_mem_literal_mul_iff, hs, ← List.append_assoc,
    Text.IsMark.codePoints_append (by decide), List.append_assoc]
  rfl

/-- An instruction is one of the grammar exactly if its target could stand between the marks by
itself, whatever its data. -/
theorem codePoints_encode_mem_instruction_iff
    (h : data.codePoints ∈ Production.instructionText) :
    (encode target data).codePoints ∈ Production.instruction ↔
      target.codePoints ∈ Production.instructionBody Production.target := by
  have hs : Production.Avoids 0x20 Production.target := fun w hw =>
    Production.avoids_name (by decide) w hw.1
  exact codePoints_encode_mem_instructionOf_iff.trans
    (Production.append_cons_mem_instructionBody_iff hs h)

/-- The first end mark in an instruction is its last, unless one stands in its target or is begun
before the target. -/
theorem dropInfix?_encode_iff (h : ¬ closing <:+: data) :
    (encode target data).dropInfix? closing =
        some (Text.ofString "<?" ++ target ++ Text.unit ' ' :: data, []) ↔
      ¬ closing <:+: Text.unit '?' :: target := by
  have hlast : closing.dropLast = [Text.unit '?'] := rfl
  have hend : ¬ closing <:+: data ++ [Text.unit '?'] := fun hi =>
    h (Text.infix_of_infix_append (m := [Text.unit '?']) (by decide) hi)
  have hopen : closing <:+: Text.ofString "<?" ++ target ↔
      closing <:+: Text.unit '?' :: target := by
    have ho : Text.ofString "<?" ++ target = Text.unit '<' :: Text.unit '?' :: target := rfl
    rw [ho, List.infix_cons_iff, or_iff_right]
    exact fun hp => absurd (List.cons_prefix_cons.1 hp).1 (by decide)
  rw [encode, Text.dropInfix?_append_self_iff (by decide), hlast,
    List.append_assoc (Text.ofString "<?" ++ target), List.cons_append,
    infix_append_cons_iff (by decide), or_iff_left hend, hopen]

/-- No end mark is in a name or is begun before one. -/
theorem not_closing_infix_cons (h : target.codePoints ∈ Production.name) :
    ¬ closing <:+: Text.unit '?' :: target := by
  have hm : Text.unit '>' ∉ target :=
    (Production.avoids_name (n := 0x3E) (by decide)).not_mem h (by decide)
  intro hi
  rcases List.mem_cons.1 (hi.subset (show Text.unit '>' ∈ closing by decide)) with he | he
  · exact absurd he (by decide)
  · exact hm he

end Instruction

namespace Writer

variable {ω : Type} [Outlet ω] {w : Writer} {out : ω}

/-- What an instruction that is accepted is written as. If its target is a name, then it is an
instruction with that target, and the first end mark in it is its last. In general it is an
instruction exactly if the target by itself could stand between the marks of one, and the first end
mark is the last exactly if none is in the target or is begun before it. -/
theorem mem_instruction_iff_of_perform (hw : w.enforce = true) {target data : Text}
    (hf : (w.perform out (.instruction target data)).failure = none) :
    let e := Text.ofString "<?" ++ target ++ Text.unit ' ' :: data ++ Text.ofString "?>"
    let endsAtLast := e.dropInfix? (Text.ofString "?>") =
      some (Text.ofString "<?" ++ target ++ Text.unit ' ' :: data, [])
    Outlet.Takes out [e] (w.perform out (.instruction target data)).out ∧
      (target.codePoints ∈ Production.name → target.codePoints ∈ Production.target ∧
        e.codePoints ∈ Production.instructionOf {target.codePoints} ∧ endsAtLast) ∧
      (e.codePoints ∈ Production.instruction ↔
        target.codePoints ∈ Production.instructionBody Production.target) ∧
      (endsAtLast ↔ ¬ Text.ofString "?>" <:+: Text.unit '?' :: target) := by
  intro e endsAtLast
  obtain ⟨hv, ht⟩ := takes_of_emitContent rfl hf
  rw [hw, vet_true_eq_ok_iff, Instruction.flaw?_eq_none_iff] at hv
  obtain ⟨hr, -, -, hdata⟩ := hv
  have hends : endsAtLast ↔ ¬ Instruction.closing <:+: Text.unit '?' :: target :=
    Instruction.dropInfix?_encode_iff (Instruction.codePoints_mem_instructionText_iff.1 hdata).1
  refine ⟨ht, fun hn => ⟨Instruction.mem_target hr hn, ?_, ?_⟩, ?_, hends⟩
  · refine Instruction.codePoints_encode_mem_instructionOf_iff.2 ?_
    have hrest : 0x20 :: data.codePoints ∈ Production.instructionData :=
      ⟨_, Production.singleton_mem_space, _, hdata, rfl⟩
    exact ⟨_, rfl, _, Production.mem_optional.2 (.inl hrest), rfl⟩
  · exact hends.2 (Instruction.not_closing_infix_cons hn)
  · exact Instruction.codePoints_encode_mem_instruction_iff hdata

/-- Data with both halves of an end mark in it, but not next to each other. -/
theorem mem_instruction_iff_of_perform_apart :
    let w := new { enforce := true }
    let target := Text.ofString "xml-a"
    let data := Text.ofString "? > >?"
    let p := w.perform TextBuffer.empty (.instruction target data)
    let e := Text.ofString "<?xml-a ? > >??>"
    w.enforce = true ∧ p.failure = none ∧ Outlet.Takes TextBuffer.empty [e] p.out ∧
      target.codePoints ∈ Production.target ∧
      e.codePoints ∈ Production.instructionOf {target.codePoints} ∧
      e.codePoints ∈ Production.instruction ∧
      e.dropInfix? (Text.ofString "?>") = some (Text.ofString "<?xml-a ? > >?", []) := by
  intro w target data p e
  have hf : p.failure = none := by decide +kernel
  have hn : target.codePoints ∈ Production.name := Production.mem_name_iff.2 (by decide)
  obtain ⟨ht, hname, hi, -⟩ := mem_instruction_iff_of_perform (w := w) rfl hf
  obtain ⟨hx, ho, hl⟩ := hname hn
  refine ⟨rfl, hf, ht, hx, ho, hi.2 ?_, hl⟩
  exact ⟨_, hx, [], Production.nil_mem_optional, List.append_nil _⟩

/-- A target is not checked to be a name: this one ends its own instruction, so that what is written
after it is text. -/
theorem not_mem_instruction_of_endMark :
    let w := new { enforce := true }
    let target := Text.ofString "a?>b"
    let p := w.perform TextBuffer.empty (.instruction target (Text.ofString "c"))
    p.failure = none ∧ p.out.text = Text.ofString "<?a?>b c?>" ∧
      target.codePoints ∉ Production.target ∧ p.out.text.codePoints ∉ Production.instruction ∧
      p.out.text.dropInfix? (Text.ofString "?>") =
        some (Text.ofString "<?a", Text.ofString "b c?>") := by
  intro w target p
  have hf : p.failure = none := by decide +kernel
  have ht : p.out.text = Instruction.encode target (Text.ofString "c") := by decide +kernel
  have hname : target.codePoints ∉ Production.target := fun h =>
    absurd (Production.mem_name_iff.1 h.1) (by decide)
  have hdata : (Text.ofString "c").codePoints ∈ Production.instructionText :=
    Instruction.codePoints_mem_instructionText_iff.2 (by decide)
  refine ⟨hf, ht, hname, fun h => ?_, by rw [ht]; decide +kernel⟩
  rw [ht, Instruction.codePoints_encode_mem_instruction_iff hdata] at h
  have hc : target.codePoints = [0x61, 0x3F, 0x3E, 0x62] := by decide
  exact hname (Production.mem_of_mem_instructionBody h (by simp [hc, Production.spaceChar]))

end Writer

end XmlWriter
