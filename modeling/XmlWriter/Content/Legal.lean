import XmlWriter.Character
import XmlWriter.Flaw

/-!
# Legal characters

Every kind of content is checked for code points outside `Char`, which no document may contain in
any form. The flaw names the first of them and the part that the text plays. The check looks through
a text for the first code point that is none of those in a list of its own (`CharClass.passed`),
which is shown to be `Char` again (`CharClass.contains_passed`).
-/

namespace XmlWriter

namespace CharClass

/-- The code points that the check passes over: tab, line feed, carriage return, two ranges
of the basic plane and all the other planes. -/
def passed : CharClass :=
  ⟨[(0x9, 0x9), (0xA, 0xA), (0xD, 0xD), (0x20, 0xD7FF), (0xE000, 0xFFFD), (0x10000, 0x10FFFF)]⟩

/-- What the check passes over is what may stand in a document. -/
theorem contains_passed (n : Nat) : passed.contains n = char.contains n := by
  rw [Bool.eq_iff_iff]
  simp only [contains, passed, char, List.any_cons, List.any_nil, Bool.or_eq_true,
    Bool.and_eq_true, decide_eq_true_eq, Bool.false_eq_true, or_false]
  omega

/-- The two classes find the same first character outside of them. -/
theorem firstOutside?_passed (t : Text) : passed.firstOutside? t = char.firstOutside? t := by
  simp only [firstOutside?, contains_passed]

end CharClass

/-- The flaw of a text that has a code point outside `Char`; `context` says which part of a document
the text is. -/
def charFlaw? (context t : Text) : Option Flaw :=
  (CharClass.passed.firstOutside? t).map fun n => .illegalChar n context

/-- A text has no such flaw exactly when all its code points are in `Char`. -/
theorem charFlaw?_eq_none_iff {context t : Text} :
    charFlaw? context t = none ↔ ∀ n ∈ t.codePoints, CharClass.char.contains n = true := by
  simp [charFlaw?, CharClass.firstOutside?_passed, CharClass.firstOutside?_eq_none_iff]

/-- The flaw names the first code point that is outside `Char`. -/
theorem charFlaw?_eq_some_iff {context t : Text} {flaw : Flaw} :
    charFlaw? context t = some flaw ↔
      ∃ n, CharClass.char.firstOutside? t = some n ∧ Flaw.illegalChar n context = flaw := by
  simp [charFlaw?, CharClass.firstOutside?_passed]

end XmlWriter
