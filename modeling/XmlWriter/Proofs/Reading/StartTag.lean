import XmlWriter.Piece
import XmlWriter.Proofs.Reading.QName

/-!
# Start tags as a reader sees them

A reader of a start tag sees a name and attributes. Which attributes are namespace declarations it
tells from their names alone (`NsDecl.ofAttribute?`), and it reads a name by the declarations in
force: those of the tag and of the tags around it, where a later one overrides those before it
(`InForce`). Around the outermost tag a context gives the default namespace, and `xml` is bound to
its namespace.
-/

namespace XmlWriter

/-- A start tag as it stands: its name, its attributes with the declarations among them, and whether
it is an empty-element tag. -/
structure StartTag where
  name : QName
  attributes : List (QName × Text)
  isEmpty : Bool
  deriving DecidableEq, Repr

namespace Piece

/-- The attributes that a piece shows in a start tag. -/
def shown : Piece → List (QName × Text)
  | .head _ own => own.toList.map fun d => (d.name, d.value)
  | .generated d => [(d.name, d.value)]
  | .attribute name value => [(name, value)]
  | _ => []

@[simp] theorem shown_attribute (q : QName) (v : Text) : shown (.attribute q v) = [(q, v)] := rfl

@[simp] theorem shown_generated (d : NsDecl) : shown (.generated d) = [(d.name, d.value)] := rfl

end Piece

namespace StartTag

/-- The start tag before anything of it is written. -/
def blank : StartTag := ⟨⟨none, []⟩, [], false⟩

/-- A start tag with one more piece of it. -/
def add (t : StartTag) : Piece → StartTag
  | .head name own => ⟨name, (Piece.head name own).shown, false⟩
  | .slash _ => { t with isEmpty := true }
  | p => { t with attributes := t.attributes ++ p.shown }

/-- The start tag that pieces make up. -/
def ofPieces (ps : List Piece) : StartTag := ps.foldl add blank

end StartTag

namespace NsDecl

/-- The declaration that an attribute makes, if it has the name of one. -/
def ofAttribute? : QName × Text → Option NsDecl
  | (⟨none, l⟩, v) => if l = xmlnsPrefix then some ⟨none, v⟩ else none
  | (⟨some p, l⟩, v) => if p = xmlnsPrefix then some ⟨some l, v⟩ else none

/-- An attribute makes a declaration exactly when it has the declaration's name and value. -/
theorem ofAttribute?_eq_some_iff {a : QName × Text} {d : NsDecl} :
    ofAttribute? a = some d ↔ a = (d.name, d.value) := by
  rcases a with ⟨⟨_ | p, l⟩, v⟩ <;> rcases d with ⟨_ | pre, value⟩ <;>
    simp [ofAttribute?, name, eq_comm, and_assoc]

@[simp] theorem ofAttribute?_name (d : NsDecl) : ofAttribute? (d.name, d.value) = some d :=
  ofAttribute?_eq_some_iff.2 rfl

/-- A declaration of an NCName, or of none, has a proper name. -/
theorem isProper_name {d : NsDecl} (h : ∀ p, d.pre = some p → IsNCName p) : d.name.IsProper := by
  have hx : IsNCName xmlnsPrefix := by decide
  rcases d with ⟨_ | p, v⟩
  · exact ⟨nofun, hx⟩
  · exact ⟨fun q hq => Option.some.inj hq ▸ hx, h p rfl⟩

end NsDecl

/-- The declarations in force, the later ones first. -/
abbrev InForce := List NsDecl

/-- A name with the namespace it is read in. -/
structure ExpandedName where
  space : Option Text
  localPart : Text
  deriving DecidableEq, Repr

namespace StartTag

/-- The declarations of a tag, in the order of its attributes. -/
def declarations (t : StartTag) : List NsDecl := t.attributes.filterMap NsDecl.ofAttribute?

/-- A declaration is one of a tag exactly when its attribute is. -/
theorem mem_declarations {t : StartTag} {d : NsDecl} :
    d ∈ t.declarations ↔ (d.name, d.value) ∈ t.attributes := by
  simp [declarations, List.mem_filterMap, NsDecl.ofAttribute?_eq_some_iff]

/-- The attributes of a tag that are no declarations. -/
def ordinary (t : StartTag) : List (QName × Text) :=
  t.attributes.filter fun a => (NsDecl.ofAttribute? a).isNone

/-- Whether a tag binds a prefix to a namespace; the empty value stands for no namespace. -/
def Declares (t : StartTag) (pre : Text) (space : Option Text) : Prop :=
  ⟨some pre, space.getD []⟩ ∈ t.declarations

end StartTag

namespace InForce

/-- What is in force around the outermost tag: the default namespace of the context, and `xml`. -/
def root (context : Option Text) : InForce :=
  [⟨none, context.getD []⟩, ⟨some xmlPrefix, xmlNamespace⟩]

/-- The declarations in force inside some open tags, the innermost tag first. -/
def inside (context : Option Text) : List StartTag → InForce
  | [] => root context
  | t :: ts => t.declarations.reverse ++ inside context ts

/-- The value that a prefix, or the default declaration, has by the declarations in force. -/
def value? (s : InForce) (pre : Option Text) : Option Text :=
  (s.find? fun d => d.pre = pre).map (·.value)

/-- The default namespace. -/
def default (s : InForce) : Option Text := (s.value? none).bind namespaceOf

/-- The expanded name of a written one, unless its prefix is not declared. A name without a prefix
is in the namespace `bare`: for an element that is the default namespace, for an attribute none. -/
def expand? (s : InForce) (bare : Option Text) (q : QName) : Option ExpandedName :=
  match q.pre with
  | none => some ⟨bare, q.localPart⟩
  | some p => (s.value? (some p)).map fun v => ⟨namespaceOf v, q.localPart⟩

@[simp] theorem inside_nil (context : Option Text) : inside context [] = root context := rfl

@[simp] theorem inside_cons (context : Option Text) (t : StartTag) (ts : List StartTag) :
    inside context (t :: ts) = t.declarations.reverse ++ inside context ts := rfl

/-- The declarations of an inner tag are looked at first. -/
theorem value?_append (s s' : InForce) (pre : Option Text) :
    (s ++ s' : InForce).value? pre = (s.value? pre).or (s'.value? pre) := by
  unfold value?
  rw [List.find?_append]
  cases s.find? fun d => d.pre = pre <;> rfl

/-- What a prefix has is the value of one of its declarations. -/
theorem mem_of_value? {s : InForce} {pre : Option Text} {v : Text} (h : s.value? pre = some v) :
    ⟨pre, v⟩ ∈ s := by
  obtain ⟨d, hd, rfl⟩ := Option.map_eq_some_iff.1 h
  have hp : d.pre = pre := by simpa using List.find?_some hd
  exact hp ▸ List.mem_of_find?_eq_some hd

/-- A prefix has no value exactly when it is not declared. -/
theorem value?_eq_none_iff {s : InForce} {pre : Option Text} :
    s.value? pre = none ↔ ∀ d ∈ s, d.pre ≠ pre := by
  simp [value?]

/-- A prefix whose declarations all give it the same value has that value. -/
theorem value?_eq_some_of_forall {s : InForce} {pre : Option Text} {v : Text}
    (hm : ⟨pre, v⟩ ∈ s) (hu : ∀ d ∈ s, d.pre = pre → d.value = v) : s.value? pre = some v := by
  cases hv : s.value? pre with
  | none => exact absurd rfl (value?_eq_none_iff.1 hv _ hm)
  | some v' => exact congrArg some (hu _ (mem_of_value? hv) rfl)

/-! ## Prefixes that are declared again -/

/-- Whether a prefix is declared for a namespace, or for none, but has since been declared for
another one, which is the one that counts. -/
def Overridden (s : InForce) (pre : Text) (space : Option Text) : Prop :=
  ∃ later v earlier, s = later ++ ⟨some pre, v⟩ :: earlier ∧ (∀ d ∈ later, d.pre ≠ some pre) ∧
    namespaceOf v ≠ space ∧ ⟨some pre, space.getD []⟩ ∈ earlier

/-- A namespace is read back from the value that declares it. -/
theorem namespaceOf_getD {space : Option Text} (h : space ≠ some []) :
    namespaceOf (space.getD []) = space := by
  cases space with
  | none => rfl
  | some v => exact namespaceOf_eq_some_iff.2 ⟨rfl, fun hv => h (congrArg some hv)⟩

/-- A name whose prefix is declared for a namespace is read in that namespace exactly if the prefix
has not been overridden. -/
theorem expand?_eq_some_iff {s : InForce} {pre l : Text} {space bare : Option Text}
    (hs : space ≠ some []) (hm : ⟨some pre, space.getD []⟩ ∈ s) :
    s.expand? bare ⟨some pre, l⟩ = some ⟨space, l⟩ ↔ ¬ s.Overridden pre space := by
  obtain ⟨v, hv⟩ : ∃ v, s.value? (some pre) = some v :=
    Option.ne_none_iff_exists'.1 fun hn => value?_eq_none_iff.1 hn _ hm rfl
  obtain ⟨d, hd, rfl⟩ := Option.map_eq_some_iff.1 hv
  obtain ⟨hp, later, earlier, rfl, hl⟩ := List.find?_eq_some_iff_append.1 hd
  replace hp : d.pre = some pre := by simpa using hp
  replace hl : ∀ d ∈ later, d.pre ≠ some pre := by simpa using hl
  have hiff : InForce.expand? (later ++ d :: earlier) bare ⟨some pre, l⟩ = some ⟨space, l⟩ ↔
      namespaceOf d.value = space := by
    simp [expand?, hv]
  rw [hiff]
  constructor
  · rintro hn ⟨later', v', earlier', he, hl', hv', -⟩
    -- there is one declaration of the prefix that is the last one
    have hd' : List.find? (fun d => d.pre = some pre) (later ++ d :: earlier) =
        some ⟨some pre, v'⟩ :=
      List.find?_eq_some_iff_append.2 ⟨by simp, later', earlier', he, by simpa using hl'⟩
    rw [hd] at hd'
    cases hd'
    exact hv' hn
  · intro ho
    refine Decidable.byContradiction fun hn =>
      ho ⟨later, d.value, earlier, by rw [← hp], hl, hn, ?_⟩
    rcases List.mem_append.1 hm with hm | hm
    · exact absurd rfl (hl _ hm)
    · rcases List.mem_cons.1 hm with rfl | hm
      · exact absurd (namespaceOf_getD hs) hn
      · exact hm

end InForce

/-! ## Reading all tags -/

/-- A start tag with the declarations in force in it. -/
structure ReadTag where
  tag : StartTag
  scope : InForce
  deriving DecidableEq, Repr

/-- The start tags that stand in pieces of markup, inside some open tags and after some pieces of
the next tag. -/
def readTags (context : Option Text) : List StartTag → StartTag → List Piece → List ReadTag
  | _, _, [] => []
  | opened, t, .tagEnd :: ps =>
    ⟨t, InForce.inside context (t :: opened)⟩ ::
      readTags context (if t.isEmpty then opened else t :: opened) .blank ps
  | opened, t, .endTag _ :: ps => readTags context opened.tail t ps
  | opened, t, p :: ps => readTags context opened (t.add p) ps

namespace Piece

/-- Whether a piece stands inside a start tag. -/
def isInTag : Piece → Bool
  | .head .. | .generated _ | .attribute .. | .slash _ => true
  | _ => false

end Piece

/-- The pieces of a start tag up to its end make up the tag. -/
theorem readTags_append_of_isInTag {context : Option Text} {opened : List StartTag}
    {ps : List Piece} (h : ∀ p ∈ ps, p.isInTag = true) (t : StartTag) (rest : List Piece) :
    readTags context opened t (ps ++ rest) = readTags context opened (ps.foldl .add t) rest := by
  induction ps generalizing t with
  | nil => rfl
  | cons p ps ih =>
    have hp := h p (.head _)
    rw [List.foldl_cons, ← ih (fun q hq => h q (.tail _ hq)), List.cons_append]
    cases p with
    | tagEnd | endTag | text | cdata | comment | instruction | doctype | declaration => cases hp
    | _ => rfl

end XmlWriter
