import XmlWriter.Text.Basic

/-!
# Character classes

The three classes of code points that the XML grammar is built on, each as a list of ranges: `Char`
(production 2), `NameStartChar` (production 4) and `NameChar` (production 4a). `CharClass.contains`
is the test; `CharClass.runs` reads a class back as its maximal runs inside a window. A surrogate
and a number outside Unicode belong to none of the three. Main statement: what may begin a name may
stand anywhere in it (`CharClass.contains_name_of_nameStart`).
-/

namespace XmlWriter

/-- A set of code points, as a list of ranges whose ends belong to it. -/
structure CharClass where
  ranges : List (Nat × Nat)

namespace CharClass

/-- Whether a code point belongs to the class. -/
def contains (c : CharClass) (n : Nat) : Bool := c.ranges.any fun r => r.1 ≤ n && n ≤ r.2

/-- Whether an integer is a code point of the class; a negative one is no code point. -/
def containsInt (c : CharClass) : Int → Bool
  | .ofNat n => c.contains n
  | .negSucc _ => false

/-- `Char`: what may stand in a document at all. -/
def char : CharClass :=
  ⟨[(0x9, 0xA), (0xD, 0xD), (0x20, 0xD7FF), (0xE000, 0xFFFD), (0x10000, 0x10FFFF)]⟩

/-- `NameStartChar`: what may begin a name. The colon is one of them. -/
def nameStart : CharClass :=
  ⟨[(0x3A, 0x3A), (0x41, 0x5A), (0x5F, 0x5F), (0x61, 0x7A), (0xC0, 0xD6), (0xD8, 0xF6),
    (0xF8, 0x2FF), (0x370, 0x37D), (0x37F, 0x1FFF), (0x200C, 0x200D), (0x2070, 0x218F),
    (0x2C00, 0x2FEF), (0x3001, 0xD7FF), (0xF900, 0xFDCF), (0xFDF0, 0xFFFD), (0x10000, 0xEFFFF)]⟩

/-- `NameChar`: what may stand in a name. Beside `NameStartChar` these are the hyphen, the full
stop, the digits, the middle dot, the combining marks and two ties. -/
def name : CharClass :=
  ⟨nameStart.ranges ++
    [(0x2D, 0x2E), (0x30, 0x39), (0xB7, 0xB7), (0x300, 0x36F), (0x203F, 0x2040)]⟩

/-- The runs of a class among the `count` integers from `n` on, put in front of `done`, the runs
before them in reverse. The run that `n` may continue began at `start?`. -/
def runsFrom (c : CharClass) : Nat → Int → Option Int → List (Int × Int) → List (Int × Int)
  | 0, _, none, done => done.reverse
  | 0, n, some start, done => ((start, n - 1) :: done).reverse
  | count + 1, n, start?, done =>
    if c.containsInt n then runsFrom c count (n + 1) (some (start?.getD n)) done
    else
      match start? with
      | none => runsFrom c count (n + 1) none done
      | some start => runsFrom c count (n + 1) none ((start, n - 1) :: done)

/-- The maximal runs of a class between two integers, both included. -/
def runs (c : CharClass) (low high : Int) : List (Int × Int) :=
  runsFrom c (high + 1 - low).toNat low none []

/-- The first code point of a text that lies outside the class. -/
def firstOutside? (c : CharClass) (t : Text) : Option Nat :=
  t.codePoints.find? fun n => !c.contains n

/-- A text has no code point outside a class exactly when all of them are inside. -/
theorem firstOutside?_eq_none_iff {c : CharClass} {t : Text} :
    c.firstOutside? t = none ↔ ∀ n ∈ t.codePoints, c.contains n = true := by
  simp [firstOutside?]

/-- What may begin a name may stand anywhere in it. -/
theorem contains_name_of_nameStart {n : Nat} (h : nameStart.contains n = true) :
    name.contains n = true := by
  simp only [contains, name, List.any_append, Bool.or_eq_true]
  exact .inl h

end CharClass

end XmlWriter
