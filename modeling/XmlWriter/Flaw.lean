import XmlWriter.Name.Basic

/-!
# What is wrong with an input

A writer that enforces well-formedness refuses an input that no conforming parser would read back.
A `Flaw` is the cause of such a refusal, with what its message quotes. `Flaw.kind` sorts the causes
into ten kinds, and `Flaw.message` gives the text that a caller sees. `vet` is the only place where
a flaw stops a check: only if checks are enforced.
-/

namespace XmlWriter

/-- What a local name is the name of. -/
inductive NameRole where
  | element
  | attribute
  deriving DecidableEq, Repr

namespace NameRole

/-- The word for the role in a message. -/
def text : NameRole → Text
  | .element => Text.ofString "Element"
  | .attribute => Text.ofString "Attribute"

end NameRole

/-- Why an input is refused. -/
inductive Flaw where
  /-- A local name contains a colon. -/
  | colonInLocalName (role : NameRole) (name : Text)
  /-- A local name is empty. -/
  | emptyLocalName (role : NameRole)
  /-- A local name begins with a character that may not begin a name. -/
  | leadingChar (role : NameRole) (name char : Text)
  /-- A local name contains a character that may not stand in a name. -/
  | nameChar (role : NameRole) (name char : Text)
  /-- Two attributes of an element have the same namespace and local part. -/
  | duplicateAttribute (name : QName)
  /-- A text that plays the part `context` has a code point outside `Char`. -/
  | illegalChar (codePoint : Nat) (context : Text)
  /-- A comment contains two hyphens in a row. -/
  | doubleHyphen
  /-- A comment ends with a hyphen. -/
  | trailingHyphen
  /-- The target of a processing instruction is `xml` in some case. -/
  | reservedTarget (target : Text)
  /-- The target of a processing instruction contains a colon. -/
  | colonInTarget (target : Text)
  /-- The data of a processing instruction contains its end mark. -/
  | endMarkInData
  /-- The version of an XML declaration is not `1.` and digits. -/
  | badVersion (given : Text)
  /-- An element would be written with the prefix of declarations. -/
  | xmlnsElement (name : Text)
  /-- An attribute in no namespace has the name of the default declaration. -/
  | bareXmlns
  /-- A declaration binds the namespace of declarations. -/
  | bindsXmlns (name : QName)
  /-- A declaration has an empty value. -/
  | undeclares (name : QName)
  deriving DecidableEq, Repr

/-- The kinds of refusal that a caller can tell apart. -/
inductive FlawKind where
  | invalidName
  | colonInLocalName
  | duplicateAttribute
  | invalidCharacter
  | invalidComment
  | invalidProcessingInstruction
  | invalidDeclaration
  | reservedPrefix
  | reservedAttributeName
  | invalidNamespaceDeclaration
  deriving DecidableEq, Repr

namespace FlawKind

/-- The code of a kind. -/
def code : FlawKind → String
  | .invalidName => "invalid_name"
  | .colonInLocalName => "colon_in_local_name"
  | .duplicateAttribute => "duplicate_attribute"
  | .invalidCharacter => "invalid_character"
  | .invalidComment => "invalid_comment"
  | .invalidProcessingInstruction => "invalid_processing_instruction"
  | .invalidDeclaration => "invalid_declaration"
  | .reservedPrefix => "reserved_prefix"
  | .reservedAttributeName => "reserved_attribute_name"
  | .invalidNamespaceDeclaration => "invalid_namespace_declaration"

end FlawKind

namespace Flaw

/-- The kind of a flaw. -/
def kind : Flaw → FlawKind
  | .colonInLocalName .. => .colonInLocalName
  | .emptyLocalName .. | .leadingChar .. | .nameChar .. => .invalidName
  | .duplicateAttribute .. => .duplicateAttribute
  | .illegalChar .. => .invalidCharacter
  | .doubleHyphen | .trailingHyphen => .invalidComment
  | .reservedTarget .. | .colonInTarget .. | .endMarkInData => .invalidProcessingInstruction
  | .badVersion .. => .invalidDeclaration
  | .xmlnsElement .. => .reservedPrefix
  | .bareXmlns => .reservedAttributeName
  | .bindsXmlns .. | .undeclares .. => .invalidNamespaceDeclaration

/-- A text in double quotes. -/
def quoted (t : Text) : Text := Text.unit '"' :: t ++ [Text.unit '"']

/-- The code point in the usual notation: `U+` and at least four upper-case hexadecimal digits. -/
def codePointText (n : Nat) : Text :=
  let digits := (Nat.toDigits 16 n).map Char.toUpper
  Text.ofString "U+" ++ Text.ofChars (List.replicate (4 - digits.length) '0' ++ digits)

/-- The message of a flaw. -/
def message : Flaw → Text
  | .colonInLocalName role name =>
    role.text ++ Text.ofString " local name " ++ quoted name ++
      Text.ofString " cannot contain \":\""
  | .emptyLocalName role => role.text ++ Text.ofString " local name cannot be empty"
  | .leadingChar role name char =>
    role.text ++ Text.ofString " local name " ++ quoted name ++
      Text.ofString " cannot start with " ++ quoted char
  | .nameChar role name char =>
    role.text ++ Text.ofString " local name " ++ quoted name ++
      Text.ofString " cannot contain " ++ quoted char
  | .duplicateAttribute name => Text.ofString "Duplicate attribute " ++ quoted name.text
  | .illegalChar codePoint context =>
    Text.ofString "Invalid character " ++ codePointText codePoint ++ Text.ofString " in " ++ context
  | .doubleHyphen =>
    Text.ofString "Invalid comment: contains \"--\" which is forbidden in XML comments"
  | .trailingHyphen =>
    Text.ofString "Invalid comment: ends with \"-\" which would produce invalid \"--->\""
  | .reservedTarget target =>
    Text.ofString "Invalid processing instruction: target " ++ quoted target ++
      Text.ofString " is reserved"
  | .colonInTarget target =>
    Text.ofString "Invalid processing instruction: target " ++ quoted target ++
      Text.ofString " contains \":\""
  | .endMarkInData => Text.ofString "Invalid processing instruction: data contains \"?>\""
  | .badVersion given =>
    Text.ofString "Invalid XML declaration: version " ++ quoted given ++
      Text.ofString " is not 1.x"
  | .xmlnsElement name =>
    Text.ofString "Element " ++ quoted name ++ Text.ofString
      " has the prefix \"xmlns\", which cannot be read back by a conforming parser"
  | .bareXmlns => Text.ofString "Attribute \"xmlns\" must be in the XMLNS namespace"
  | .bindsXmlns name =>
    Text.ofString "Namespace declaration " ++ quoted name.text ++
      Text.ofString " cannot bind the XMLNS namespace"
  | .undeclares name =>
    Text.ofString "Namespace declaration " ++ quoted name.text ++
      Text.ofString " cannot undeclare a namespace"

end Flaw

/-- Passes an input on unless a check found a flaw and checks are enforced. -/
def vet (enforce : Bool) : Option Flaw → Except Flaw Unit
  | none => .ok ()
  | some flaw => if enforce then .error flaw else .ok ()

@[simp] theorem vet_false (flaw? : Option Flaw) : vet false flaw? = .ok () := by
  cases flaw? <;> rfl

@[simp] theorem vet_none (enforce : Bool) : vet enforce none = .ok () := rfl

@[simp] theorem vet_true_some (flaw : Flaw) : vet true (some flaw) = .error flaw := rfl

/-- An enforced check lets an input pass exactly when it found no flaw. -/
theorem vet_true_eq_ok_iff {flaw? : Option Flaw} : vet true flaw? = .ok () ↔ flaw? = none := by
  cases flaw? <;> simp [vet]

end XmlWriter
