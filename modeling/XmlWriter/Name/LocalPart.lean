import XmlWriter.Name.Fault
import XmlWriter.Flaw

/-!
# Local parts

A local part must be a name without a colon. The colon, although a name may contain it, is looked
for first and has a refusal of its own. Main statement: a local part passes exactly when it is a
name and has no colon (`LocalPart.flaw?_eq_none_iff`).
-/

namespace XmlWriter

namespace LocalPart

/-- What is wrong with a local part in the given role. -/
def flaw? (role : NameRole) (t : Text) : Option Flaw :=
  if Text.contains [Text.unit ':'] t then some (.colonInLocalName role t)
  else
    (NameFault.find? t).map fun fault =>
      if fault.char.isEmpty then .emptyLocalName role
      else if fault.leading then .leadingChar role t fault.char
      else .nameChar role t fault.char

/-- A local part passes exactly when it is a name and has no colon. -/
theorem flaw?_eq_none_iff {role : NameRole} {t : Text} :
    flaw? role t = none ↔ Text.unit ':' ∉ t ∧ NameFault.find? t = none := by
  unfold flaw?
  split
  next h => simp [Text.contains_singleton.1 h]
  next h =>
    rw [Text.contains_singleton] at h
    simp [h]

end LocalPart

end XmlWriter
