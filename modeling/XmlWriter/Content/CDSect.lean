import XmlWriter.Content.Legal

/-!
# CDATA sections

A CDATA section shows its content as it is and ends at the first `]]>`. A text that contains `]]>`
is therefore written as several sections: wherever `]]>` occurs, a section ends after `]]` and the
next begins with `>`. Main statements: the contents of the sections are the text, in order
(`CDSect.flatten_sections`), and there is at least one section (`CDSect.sections_ne_nil`).
-/

namespace XmlWriter

namespace CDSect

/-- The part of a document that the content of a section is, in messages. -/
def context : Text := Text.ofString "CDATA section"

/-- What is wrong with a text as the content of CDATA sections. -/
def flaw? (t : Text) : Option Flaw := charFlaw? context t

/-- The mark that opens a section. -/
def opening : Text := Text.ofString "<![CDATA["

/-- The mark that ends a section. -/
def closing : Text := Text.ofString "]]>"

/-- Puts a unit in front of the first of some sections. -/
def extend (u : UInt16) : List Text → List Text
  | [] => [[u]]
  | first :: rest => (u :: first) :: rest

/-- The contents of the sections that a text is written as: the text cut inside every `]]>`, after
its brackets. -/
def sections : Text → List Text
  | a :: b :: c :: rest =>
    if [a, b, c] = closing then [a, b] :: extend c (sections rest)
    else extend a (sections (b :: c :: rest))
  | short => [short]

/-- One section. -/
def wrap (content : Text) : Text := opening ++ content ++ closing

/-- A text written as CDATA sections. -/
def encode (t : Text) : Text := (sections t).flatMap wrap

/-- A text written as CDATA sections, unless it is refused. -/
def write (enforce : Bool) (t : Text) : Except Flaw Text := do
  vet enforce (flaw? t)
  return encode t

@[simp] theorem flatten_extend (u : UInt16) (ss : List Text) :
    (extend u ss).flatten = u :: ss.flatten := by
  cases ss <;> simp [extend]

/-- A unit put in front of sections leaves at least one section. -/
theorem extend_ne_nil (u : UInt16) (ss : List Text) : extend u ss ≠ [] := by
  cases ss <;> simp [extend]

/-- Cutting a text into sections loses and adds nothing. -/
@[simp] theorem flatten_sections (t : Text) : (sections t).flatten = t := by
  fun_induction sections t with
  | case1 a b c rest h ih => simp [ih]
  | case2 a b c rest h ih => simp [ih]
  | case3 short h => simp

/-- There is always a section, also for the empty text. -/
theorem sections_ne_nil (t : Text) : sections t ≠ [] := by
  fun_cases sections t with
  | case1 => simp
  | case2 => exact extend_ne_nil _ _
  | case3 => simp

end CDSect

end XmlWriter
