import XmlWriter.Scope

/-!
# The declarations among an element's attributes

Before a start tag is written, the namespace declarations among its attributes are collected: they
are in force on the tag itself. A prefix declaration that the prefix map already holds is passed
over, since it may be left out, and so is one for the XML namespace, which needs none. Main
statement: what has been collected is in the map (`Declarations.candidates_subset_collect`: no
candidate is lost; `Declarations.holds_of_mem_bound`: each new binding is held).
-/

namespace XmlWriter

namespace Attribute

/-- Whether an attribute is a namespace declaration. -/
def isDeclaration (a : Attribute) : Bool := a.name.space = some xmlnsNamespace

end Attribute

/-- The declarations of an element, collected in the order of its attributes. -/
structure Declarations where
  /-- The prefixes in scope, with those that the attributes bind. -/
  prefixes : PrefixMap
  /-- The prefixes that the attributes bind anew, with their values, the last one first. -/
  bound : List (Text × Text)
  /-- The value of the default declaration, if there is one. -/
  default? : Option Text
  deriving DecidableEq, Repr

namespace Declarations

/-- The value that the attributes bind a prefix to, if they bind it anew; a later one counts. -/
def valueOf? (d : Declarations) (pre : Text) : Option Text := d.bound.lookup pre

/-- Whether the attributes bind a prefix anew. -/
def binds (d : Declarations) (pre : Text) : Bool := (d.valueOf? pre).isSome

/-- Collects one attribute. -/
def collectOne (d : Declarations) (a : Attribute) : Declarations :=
  if !a.isDeclaration then d
  else
    match a.name.wish with
    | none => { d with default? := some a.value }
    | some _ =>
      if a.value = xmlNamespace ∨ d.prefixes.holds (namespaceOf a.value) a.name.localPart then d
      else
        { d with
          prefixes := d.prefixes.add (namespaceOf a.value) a.name.localPart
          bound := (a.name.localPart, a.value) :: d.bound }

/-- The declarations among some attributes, in a scope with the given prefixes. -/
def collect (prefixes : PrefixMap) (attributes : List Attribute) : Declarations :=
  attributes.foldl collectOne ⟨prefixes, [], none⟩

/-- Collecting an attribute keeps every candidate. -/
theorem mem_candidates_collectOne {d : Declarations} {a : Attribute} {space : Option Text}
    {pre : Text} (h : pre ∈ d.prefixes.candidates space) :
    pre ∈ (d.collectOne a).prefixes.candidates space := by
  unfold collectOne
  split
  · exact h
  · split
    · exact h
    · split
      · exact h
      · rw [PrefixMap.candidates_add]
        exact List.mem_append_left _ h

/-- Collecting attributes keeps every candidate. -/
theorem mem_candidates_foldl {as : List Attribute} {d : Declarations} {space : Option Text}
    {pre : Text} (h : pre ∈ d.prefixes.candidates space) :
    pre ∈ (as.foldl collectOne d).prefixes.candidates space := by
  induction as generalizing d with
  | nil => exact h
  | cons a as ih => exact ih (mem_candidates_collectOne h)

/-- The prefixes of the scope stay recorded. -/
theorem candidates_subset_collect {m : PrefixMap} {as : List Attribute} {space : Option Text} :
    m.candidates space ⊆ (collect m as).prefixes.candidates space :=
  fun _ h => mem_candidates_foldl h

/-- What an attribute binds anew is held from then on. -/
theorem holds_collectOne {d : Declarations} {a : Attribute}
    (h : ∀ b ∈ d.bound, d.prefixes.holds (namespaceOf b.2) b.1 = true) :
    ∀ b ∈ (d.collectOne a).bound,
      (d.collectOne a).prefixes.holds (namespaceOf b.2) b.1 = true := by
  intro b hb
  unfold collectOne at hb ⊢
  split
  next ha =>
    rw [if_pos ha] at hb
    exact h b hb
  next ha =>
    rw [if_neg ha] at hb
    split
    next hw =>
      simp only [hw] at hb
      exact h b hb
    next hw =>
      simp only [hw] at hb
      split
      next hx =>
        rw [if_pos hx] at hb
        exact h b hb
      next hx =>
        rw [if_neg hx] at hb
        rw [PrefixMap.holds_iff, PrefixMap.candidates_add]
        rcases List.mem_cons.1 hb with rfl | hb
        · simp
        · exact List.mem_append_left _ (PrefixMap.holds_iff.1 (h b hb))

/-- Each binding that the attributes make anew is in the map. -/
theorem holds_of_mem_bound {m : PrefixMap} {as : List Attribute} {pre value : Text}
    (h : (pre, value) ∈ (collect m as).bound) :
    (collect m as).prefixes.holds (namespaceOf value) pre = true := by
  suffices ∀ d : Declarations,
      (∀ b ∈ d.bound, d.prefixes.holds (namespaceOf b.2) b.1 = true) →
      ∀ b ∈ (as.foldl collectOne d).bound,
        (as.foldl collectOne d).prefixes.holds (namespaceOf b.2) b.1 = true from
    this ⟨m, [], none⟩ (by simp) (pre, value) h
  clear h
  induction as with
  | nil => exact fun _ hd => hd
  | cons a as ih => exact fun d hd => ih _ (holds_collectOne hd)

end Declarations

end XmlWriter
