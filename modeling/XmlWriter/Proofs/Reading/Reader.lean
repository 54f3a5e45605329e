import XmlWriter.Proofs.Reading.QName
import XmlWriter.Proofs.Reading.StartTag

/-!
# A reader of markup

`read` is a reader for the content of an element: tags, character data, comments and CDATA sections,
with references to characters and to the predefined entities. It works on the units of a text one by
one. `lex` finds the tokens, and `Builder.take?` puts them together: it resolves names by the
declarations in force, matches end tags with start tags and joins characters that stand next to each
other. Tags that are not well-formed, or break a rule for namespaces, are not read at all: a prefix
that is not declared, a declaration that is not allowed (`NsDecl.IsLegal`), two attributes or
declarations of one name. Characters between tags are taken as they stand, line ends included; what
changes if these are normalized first is said by `Source.read_normalizeLineEnds_of_render`.
-/

namespace XmlWriter

/-! ## Items and tokens -/

/-- What is read: elements by their expanded names, with their ordinary attributes, characters, and
comments. -/
inductive Item where
  | element (name : ExpandedName) (attributes : List (ExpandedName × Text)) (content : List Item)
  | chars (t : Text)
  | comment (t : Text)

/-- What a text is made of. -/
inductive Token where
  | start (t : StartTag)
  | close (name : QName)
  | chars (t : Text)
  | comment (t : Text)

namespace Item

/-- Some items with characters after them, which are joined with characters at their end. -/
def addChars : List Item → Text → List Item
  | [], t => if t = [] then [] else [.chars t]
  | [.chars s], t => [.chars (s ++ t)]
  | i :: rest, t => i :: addChars rest t

end Item

/-! ## References -/

namespace CharReference

/-- The value of a digit. -/
def digit? (base : Nat) (u : UInt16) : Option Nat :=
  let value := fun (first : Char) => u.toNat - (Text.unit first).toNat
  let within := fun (first last : Char) =>
    (Text.unit first).toNat ≤ u.toNat ∧ u.toNat ≤ (Text.unit last).toNat
  if within '0' '9' then some (value '0')
  else if base = 16 ∧ within 'a' 'f' then some (value 'a' + 10)
  else if base = 16 ∧ within 'A' 'F' then some (value 'A' + 10)
  else none

/-- The character that digits stand for, if there is one that a document may contain. -/
def number? (base : Nat) (digits : Text) : Option Text := do
  let n ← digits.foldlM (fun n u => (digit? base u).map (n * base + ·)) 0
  if digits ≠ [] ∧ CharClass.char.contains n then some (Text.ofCodePoint n) else none

/-- What a reference stands for, given what is between its ampersand and its semicolon. -/
def decode? (body : Text) : Option Text :=
  if body = Text.ofString "amp" then some [Text.unit '&']
  else if body = Text.ofString "lt" then some [Text.unit '<']
  else if body = Text.ofString "gt" then some [Text.unit '>']
  else if body = Text.ofString "quot" then some [Text.unit '"']
  else if body = Text.ofString "apos" then some [Text.unit '\'']
  else if (Text.ofString "#x").isPrefixOf body then number? 16 (body.drop 2)
  else if (Text.ofString "#").isPrefixOf body then number? 10 (body.drop 1)
  else none

end CharReference

/-! ## Tokens -/

/-- Where in a text a reader stands, with what it has of the token that it is in. -/
inductive Mode where
  /-- Between tags. -/
  | content
  /-- After an ampersand in character data. -/
  | reference (body : Text)
  /-- After the mark that opens a tag, a comment or a section. -/
  | opened
  /-- After the mark and an exclamation mark. -/
  | bang (t : Text)
  /-- In a comment, after some hyphens that may end it. -/
  | comment (t : Text) (hyphens : Nat)
  /-- In a CDATA section, after some brackets that may end it. -/
  | cdata (brackets : Nat)
  /-- In the name of an end tag. -/
  | endName (t : Text)
  /-- After the name of an end tag. -/
  | endSpace (name : QName)
  /-- In the name of a start tag. -/
  | startName (t : Text)
  /-- In a start tag, before an attribute or the end. -/
  | inTag (t : StartTag)
  /-- In the name of an attribute. -/
  | attrName (t : StartTag) (name : Text)
  /-- After the name of an attribute, before the equals sign. -/
  | attrSpace (t : StartTag) (name : QName)
  /-- After the equals sign. -/
  | attrEq (t : StartTag) (name : QName)
  /-- In the value of an attribute. -/
  | attrValue (t : StartTag) (name : QName) (quote : UInt16) (value : Text)
  /-- After an ampersand in the value of an attribute. -/
  | attrReference (t : StartTag) (name : QName) (quote : UInt16) (value body : Text)
  /-- After the value of an attribute. -/
  | afterValue (t : StartTag)
  /-- After the slash of an empty-element tag. -/
  | slash (t : StartTag)
  deriving DecidableEq

/-- White space in markup. -/
def isSpace (u : UInt16) : Bool := u ∈ [' ', '\t', '\n', '\r'].map Text.unit

/-- What a reader does after the name or an attribute of a start tag: it goes on after white space
or at a slash, or the tag ends. -/
def lexTag (t : StartTag) (u : UInt16) : Option (Mode × Option Token) :=
  if isSpace u then some (.inTag t, none)
  else if u = Text.unit '/' then some (.slash t, none)
  else if u = Text.unit '>' then some (.content, some (.start t))
  else none

/-- Reads one more unit: where the reader then stands, and the token that is complete, if one is. -/
def lex : Mode → UInt16 → Option (Mode × Option Token)
  | .content, u =>
    if u = Text.unit '<' then some (.opened, none)
    else if u = Text.unit '&' then some (.reference [], none)
    else some (.content, some (.chars [u]))
  | .reference body, u =>
    if u = Text.unit ';' then (CharReference.decode? body).map fun t => (.content, some (.chars t))
    else some (.reference (body ++ [u]), none)
  | .opened, u =>
    if u = Text.unit '/' then some (.endName [], none)
    else if u = Text.unit '!' then some (.bang [], none)
    else some (.startName [u], none)
  | .bang t, u =>
    if t ++ [u] = Text.ofString "--" then some (.comment [] 0, none)
    else if t ++ [u] = Text.ofString "[CDATA[" then some (.cdata 0, none)
    else if t.length < 6 then some (.bang (t ++ [u]), none)
    else none
  | .comment t hyphens, u =>
    if hyphens = 2 then
      if u = Text.unit '>' then some (.content, some (.comment t)) else none
    else if u = Text.unit '-' then some (.comment t (hyphens + 1), none)
    else some (.comment (t ++ List.replicate hyphens (Text.unit '-') ++ [u]) 0, none)
  | .cdata brackets, u =>
    if u = Text.unit ']' then
      if brackets = 2 then some (.cdata 2, some (.chars [u]))
      else some (.cdata (brackets + 1), none)
    else if u = Text.unit '>' ∧ brackets = 2 then some (.content, none)
    else some (.cdata 0, some (.chars (List.replicate brackets (Text.unit ']') ++ [u])))
  | .endName t, u =>
    if u = Text.unit '>' then (QName.read? t).map fun q => (.content, some (.close q))
    else if isSpace u then (QName.read? t).map fun q => (.endSpace q, none)
    else some (.endName (t ++ [u]), none)
  | .endSpace q, u =>
    if isSpace u then some (.endSpace q, none)
    else if u = Text.unit '>' then some (.content, some (.close q))
    else none
  | .startName t, u =>
    if isSpace u ∨ u = Text.unit '/' ∨ u = Text.unit '>' then do
      let q ← QName.read? t
      lexTag ⟨q, [], false⟩ u
    else some (.startName (t ++ [u]), none)
  | .inTag t, u =>
    if isSpace u ∨ u = Text.unit '/' ∨ u = Text.unit '>' then lexTag t u
    else some (.attrName t [u], none)
  | .attrName t name, u =>
    if u = Text.unit '=' then (QName.read? name).map fun q => (.attrEq t q, none)
    else if isSpace u then (QName.read? name).map fun q => (.attrSpace t q, none)
    else some (.attrName t (name ++ [u]), none)
  | .attrSpace t q, u =>
    if isSpace u then some (.attrSpace t q, none)
    else if u = Text.unit '=' then some (.attrEq t q, none)
    else none
  | .attrEq t q, u =>
    if isSpace u then some (.attrEq t q, none)
    else if u = Text.unit '"' ∨ u = Text.unit '\'' then some (.attrValue t q u [], none)
    else none
  | .attrValue t q quote value, u =>
    if u = quote then some (.afterValue { t with attributes := t.attributes ++ [(q, value)] }, none)
    else if u = Text.unit '<' then none
    else if u = Text.unit '&' then some (.attrReference t q quote value [], none)
    else some (.attrValue t q quote (value ++ [if isSpace u then Text.unit ' ' else u]), none)
  | .attrReference t q quote value body, u =>
    if u = Text.unit ';' then
      (CharReference.decode? body).map fun s => (.attrValue t q quote (value ++ s), none)
    else some (.attrReference t q quote value (body ++ [u]), none)
  | .afterValue t, u => lexTag t u
  | .slash t, u =>
    if u = Text.unit '>' then some (.content, some (.start { t with isEmpty := true })) else none

/-! ## Elements -/

/-- Whether a declaration is allowed: nothing may be bound to the namespace of declarations, only
`xml` may be bound to its namespace and to no other, `xmlns` may not be declared, and a prefix may
not be bound to no namespace. -/
def NsDecl.IsLegal (d : NsDecl) : Prop :=
  d.value ≠ xmlnsNamespace ∧
    match d.pre with
    | none => d.value ≠ xmlNamespace
    | some p => p ≠ xmlnsPrefix ∧ d.value ≠ [] ∧ (p = xmlPrefix ↔ d.value = xmlNamespace)

instance : DecidablePred NsDecl.IsLegal := fun d => by
  unfold NsDecl.IsLegal
  cases d.pre <;> infer_instance

/-- The expanded names of a start tag's element and of its ordinary attributes, if its declarations
are allowed, every prefix is declared and no two names are the same. -/
def StartTag.resolve? (t : StartTag) (s : InForce) :
    Option (ExpandedName × List (ExpandedName × Text)) := do
  let name ← s.expand? s.default t.name
  let attributes ← t.ordinary.mapM fun a => (s.expand? none a.1).map fun n => (n, a.2)
  if (∀ d ∈ t.declarations, d.IsLegal) ∧ (t.declarations.map (·.pre)).Nodup ∧
      (attributes.map (·.1)).Nodup then some (name, attributes)
  else none

/-- An element that is being read. -/
structure Level where
  /-- The name that its start tag shows. -/
  tag : QName
  name : ExpandedName
  attributes : List (ExpandedName × Text)
  /-- What is in force around it. -/
  scope : InForce
  /-- What was read before it. -/
  before : List Item

/-- What has been read: what is in force, the items inside the innermost element, and the elements
that are open, the innermost first. -/
structure Builder where
  scope : InForce
  items : List Item
  levels : List Level

namespace Builder

/-- Takes one more token. -/
def take? (b : Builder) : Token → Option Builder
  | .start t => do
    let inner : InForce := t.declarations.reverse ++ b.scope
    let (name, attributes) ← t.resolve? inner
    if t.isEmpty then some { b with items := b.items ++ [.element name attributes []] }
    else some ⟨inner, [], ⟨t.name, name, attributes, b.scope, b.items⟩ :: b.levels⟩
  | .close q =>
    match b.levels with
    | [] => none
    | l :: levels =>
      if l.tag = q then
        some ⟨l.scope, l.before ++ [.element l.name l.attributes b.items], levels⟩
      else none
  | .chars t => some { b with items := Item.addChars b.items t }
  | .comment t => some { b with items := b.items ++ [.comment t] }

end Builder

/-- A reader in the course of a text. -/
structure Reader where
  mode : Mode
  builder : Builder

namespace Reader

/-- A reader at the beginning of a text that stands in a context. -/
def start (context : Option Text) : Reader := ⟨.content, ⟨.root context, [], []⟩⟩

/-- Reads one more unit. -/
def step (r : Reader) (u : UInt16) : Option Reader := do
  let (mode, token?) ← lex r.mode u
  match token? with
  | none => some ⟨mode, r.builder⟩
  | some token => (r.builder.take? token).map fun b => ⟨mode, b⟩

/-- Reads a text. -/
def run (r : Reader) (t : Text) : Option Reader := t.foldlM step r

end Reader

/-- Reads a text that stands in a context: the items of it, if it can be read to its end and every
element is closed. -/
def read (context : Option Text) (t : Text) : Option (List Item) := do
  let r ← (Reader.start context).run t
  if r.mode = .content ∧ r.builder.levels = [] then some r.builder.items else none

end XmlWriter
