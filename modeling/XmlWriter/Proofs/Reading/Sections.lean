import XmlWriter.Proofs.Reading.References
import XmlWriter.Proofs.Text.Mark

/-!
# Reading CDATA sections

A CDATA section opens with its mark and ends at the first mark that ends one, whatever stands
between. `CDSect.read?` reads a text so, as sections and nothing else. A section whose content holds
no end mark is read as that content, since its own end mark cannot begin in the content
(`CDSect.read?_wrap_append`), and no content of the sections that a text is cut into holds one
(`CDSect.not_closing_infix`). Main statement: `CDSect.flatten_read?_of_write`.
-/

namespace XmlWriter

namespace CDSect

/-- Reads a text as CDATA sections and nothing else, and gives what they hold. Each section opens
with its mark and ends at the first mark that ends one. -/
def read? (t : Text) : Option (List Text) :=
  if t = [] then some []
  else
    match _h : (t.dropPrefix? opening).bind (·.dropInfix? closing) with
    | none => none
    | some (content, rest) => (read? rest).map (content :: ·)
termination_by t.length
decreasing_by
  obtain ⟨inside, ho, hc⟩ := Option.bind_eq_some_iff.1 _h
  obtain ⟨o, rfl, -⟩ := List.dropPrefix?_eq_some_iff.1 ho
  obtain ⟨⟨c, rfl, hb⟩, -⟩ := List.dropInfix?_eq_some_iff.1 hc
  rw [beq_iff_eq.1 hb]
  have hlen : closing.length = 3 := rfl
  simp only [List.length_append]
  omega

theorem read?_nil : read? [] = some [] := by
  rw [read?, if_pos rfl]

/-- A section that holds no end mark is read as its content, whatever follows it. -/
theorem read?_wrap_append {content : Text} (h : ¬ closing <:+: content) (rest : Text) :
    read? (wrap content ++ rest) = (read? rest).map (content :: ·) := by
  have ho : (wrap content ++ rest).dropPrefix? opening = some (content ++ closing ++ rest) := by
    rw [wrap, List.append_assoc opening, List.append_assoc opening]
    exact List.dropPrefix?_append_of_beq _ BEq.rfl
  have hc : (content ++ closing ++ rest).dropInfix? closing = some (content, rest) := by
    refine (Text.dropInfix?_append_iff (by decide)).2 fun hi => h ?_
    exact Text.infix_of_infix_append (m := [Text.unit ']', Text.unit ']']) (by decide) hi
  have hne : wrap content ++ rest ≠ [] := by simp [wrap, closing_eq]
  rw [read?, if_neg hne]
  split
  next hn =>
    rw [ho, Option.bind_some, hc] at hn
    cases hn
  next hs =>
    rw [ho, Option.bind_some, hc] at hs
    cases hs
    rfl

/-- Sections that hold no end mark are read as their contents. -/
theorem read?_flatMap_wrap {contents : List Text} (h : ∀ s ∈ contents, ¬ closing <:+: s) :
    read? (contents.flatMap wrap) = some contents := by
  induction contents with
  | nil => exact read?_nil
  | cons s contents ih =>
    rw [List.forall_mem_cons] at h
    rw [List.flatMap_cons, read?_wrap_append h.1, ih h.2]
    rfl

/-- Without checks every text can be written as CDATA sections. What is written, with checks or
without, is one section or more and nothing else, and these hold the text, in order. -/
theorem flatten_read?_of_write (t : Text) :
    (∃ e, write false t = .ok e) ∧ ∀ enforce e, write enforce t = .ok e →
      ∃ contents, read? e = some contents ∧ e = contents.flatMap wrap ∧ contents ≠ [] ∧
        contents.flatten = t := by
  refine ⟨⟨_, vet_bind_eq_ok_iff.2 ⟨vet_false _, rfl⟩⟩, ?_⟩
  intro enforce e he
  obtain ⟨-, rfl⟩ := vet_bind_eq_ok_iff.1 he
  have hread : read? (encode t) = some (sections t) :=
    read?_flatMap_wrap fun s hs => not_closing_infix t s hs
  exact ⟨sections t, hread, rfl, sections_ne_nil t, flatten_sections t⟩

/-- A text with marks of both kinds in it, and with brackets before an end mark. -/
theorem flatten_read?_of_write_marks :
    let t := Text.ofString "<![CDATA[]]]>]]>]]"
    let e := Text.ofString "<![CDATA[<![CDATA[]]]]]><![CDATA[>]]]]><![CDATA[>]]]]>"
    write true t = .ok e ∧ ∃ contents, read? e = some contents ∧ e = contents.flatMap wrap ∧
      contents ≠ [] ∧ contents.flatten = t := by
  intro t e
  have h : write true t = .ok e := by decide +kernel
  exact ⟨h, (flatten_read?_of_write t).2 true e h⟩

end CDSect

end XmlWriter
