import XmlWriter.Character

/-!
# Where a text fails to be a name

`NameFault.find?` looks for the first place where a text departs from the production `Name`: an
empty text, a first character that may not begin a name, or a later one that may not stand in one.
Characters are whole code points, so an astral character is one and a lone surrogate is one.
-/

namespace XmlWriter

/-- The first place where a text departs from the production `Name`. -/
structure NameFault where
  /-- The character at fault, empty for an empty text. -/
  char : Text
  /-- Whether the fault lies at the beginning. -/
  leading : Bool
  deriving DecidableEq, Repr

namespace NameFault

/-- The first fault among the code points of a text. -/
def among : List Nat → Option NameFault
  | [] => some ⟨[], true⟩
  | first :: rest =>
    if CharClass.nameStart.contains first then
      (rest.find? fun n => !CharClass.name.contains n).map fun n => ⟨Text.ofCodePoint n, false⟩
    else some ⟨Text.ofCodePoint first, true⟩

/-- The first fault of a text, if it is no name. -/
def find? (t : Text) : Option NameFault := among t.codePoints

@[simp] theorem find?_nil : find? [] = some ⟨[], true⟩ := rfl

/-- Code points have no fault exactly when they match `Name`: a start character, then name
characters. -/
theorem among_eq_none_iff {cs : List Nat} :
    among cs = none ↔ ∃ first rest, cs = first :: rest ∧
      CharClass.nameStart.contains first = true ∧ ∀ n ∈ rest, CharClass.name.contains n = true := by
  cases cs with
  | nil => simp [among]
  | cons first rest =>
    constructor
    · intro h
      by_cases hs : CharClass.nameStart.contains first = true
      · exact ⟨first, rest, rfl, hs, by simpa [among, hs] using h⟩
      · simp [among, hs] at h
    · rintro ⟨_, _, ⟨⟩, hs, hr⟩
      simpa [among, hs] using hr

end NameFault

end XmlWriter
