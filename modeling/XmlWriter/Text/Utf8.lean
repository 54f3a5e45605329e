import XmlWriter.Text.Basic

/-!
# Texts as UTF-8

`Text.utf8` encodes each code point of a text in one to four bytes. A lone surrogate has no encoding
of its own and is written as the replacement character U+FFFD. Texts that are encoded one after the
other give the bytes of their concatenation unless a surrogate pair is cut in two at a border: the
halves are then lone surrogates.
-/

namespace XmlWriter

namespace Text

/-- The code point that stands in for a lone surrogate, which UTF-8 cannot encode. -/
def replacement : Nat := 0xFFFD

/-- The UTF-8 bytes of a code point. -/
def utf8OfCodePoint (n : Nat) : List UInt8 :=
  if n < 0x80 then
    [UInt8.ofNat n]
  else if n < 0x800 then
    [UInt8.ofNat (0xC0 + n / 0x40), UInt8.ofNat (0x80 + n % 0x40)]
  else if n < 0x10000 then
    [UInt8.ofNat (0xE0 + n / 0x1000), UInt8.ofNat (0x80 + n / 0x40 % 0x40),
      UInt8.ofNat (0x80 + n % 0x40)]
  else
    [UInt8.ofNat (0xF0 + n / 0x40000), UInt8.ofNat (0x80 + n / 0x1000 % 0x40),
      UInt8.ofNat (0x80 + n / 0x40 % 0x40), UInt8.ofNat (0x80 + n % 0x40)]

/-- The UTF-8 encoding of a text, with U+FFFD for every lone surrogate. -/
def utf8 (t : Text) : List UInt8 :=
  t.codePoints.flatMap fun n => utf8OfCodePoint (if isSurrogate n then replacement else n)

@[simp] theorem utf8_nil : utf8 [] = [] := rfl

end Text

end XmlWriter
