import XmlWriter.Number.Decimal

/-!
# The counter of generated prefixes

A prefix that the writer makes up is `ns` followed by the text of a counter, which then goes up by
one. A run starts the counter at any number its caller likes, so it is a number of double precision
and may be negative, fractional, too large to be counted up or undefined.
-/

namespace XmlWriter

/-- The number that the next generated prefix carries. -/
abbrev Counter := Binary64

namespace Counter

/-- Counters are written without an exponent up to 21 digits before the point and up to five zeros
after it. -/
def layout : Layout := ⟨21, 5⟩

/-- The text of a counter. -/
def text (n : Counter) : Text := Binary64.text layout n

/-- The prefix that a counter stands for. -/
def generated (n : Counter) : Text := Text.ofString "ns" ++ text n

/-- A whole number within the limit is written with its sign and all its digits. -/
theorem text_ofInt {k : Int} (h : k.natAbs ≤ Binary64.exactLimit) :
    text (Binary64.ofInt k) = Layout.intText k := by
  simp [text, Binary64.text, Binary64.ofInt_eq h, h]

end Counter

end XmlWriter
