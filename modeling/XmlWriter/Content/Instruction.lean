import XmlWriter.Content.Legal

/-!
# Processing instructions

A processing instruction has a target and data, and neither is escaped. The target may not be `xml`
in any case, which announces a declaration, and may not contain a colon; the data may not contain
the mark that ends the instruction.
-/

namespace XmlWriter

namespace Instruction

/-- The part of a document that a target is, in messages. -/
def targetContext : Text := Text.ofString "processing instruction target"

/-- The part of a document that the data are, in messages. -/
def dataContext : Text := Text.ofString "processing instruction data"

/-- The mark that ends an instruction. -/
def closing : Text := Text.ofString "?>"

/-- A unit with an upper-case letter of the Latin alphabet made lower-case. -/
def lowerUnit (u : UInt16) : UInt16 :=
  if (Text.unit 'A').toNat ≤ u.toNat ∧ u.toNat ≤ (Text.unit 'Z').toNat then u + 32 else u

/-- Whether a target is `xml` in some case. No character outside the Latin alphabet becomes one of
these letters in lower case, so the case of that alphabet is all that matters. -/
def isReserved (target : Text) : Bool := target.map lowerUnit = Text.ofString "xml"

/-- What is wrong with an instruction: first the target's name, then its colon, then the end mark in
the data, then illegal characters of the target and of the data. -/
def flaw? (target data : Text) : Option Flaw :=
  if isReserved target then some (.reservedTarget target)
  else if Text.contains [Text.unit ':'] target then some (.colonInTarget target)
  else if Text.contains closing data then some .endMarkInData
  else (charFlaw? targetContext target).or (charFlaw? dataContext data)

/-- An instruction as it is written. -/
def encode (target data : Text) : Text :=
  Text.ofString "<?" ++ target ++ Text.unit ' ' :: data ++ closing

/-- The check of an instruction, if checks are enforced. -/
def check (enforce : Bool) (target data : Text) : Except Flaw Unit :=
  vet enforce (flaw? target data)

end Instruction

end XmlWriter
