import XmlWriter.Name.Basic

/-!
# Prefix maps

A prefix map records which prefixes have been bound to which namespace, "no namespace" included, in
the order in which that happened. It is a history and not a scope: a prefix stays recorded for a
namespace after it has been bound to another one. The map is the list of its bindings, oldest first,
and `PrefixMap.candidates` is the view that everything else is said in. Main statements: adding a
binding appends to the candidates of its namespace and to no others (`PrefixMap.candidates_add`), a
binding is held exactly when its prefix is a candidate (`PrefixMap.holds_iff`), and a prefix can be
preferred exactly when there is a candidate (`PrefixMap.preferred?_eq_none_iff`).
-/

namespace XmlWriter

/-- A namespace, or none, and a prefix that has been bound to it. -/
structure Binding where
  space : Option Text
  pre : Text
  deriving DecidableEq, Repr

/-- A history of bindings, oldest first. -/
structure PrefixMap where
  bindings : List Binding
  deriving DecidableEq, Repr

namespace PrefixMap

/-- The map without bindings. -/
def empty : PrefixMap := ⟨[]⟩

/-- The prefixes recorded for a namespace, oldest first. -/
def candidates (m : PrefixMap) (space : Option Text) : List Text :=
  (m.bindings.filter fun b => b.space = space).map (·.pre)

/-- Records one more prefix for a namespace. A prefix may be recorded more than once. -/
def add (m : PrefixMap) (space : Option Text) (pre : Text) : PrefixMap :=
  ⟨m.bindings ++ [⟨space, pre⟩]⟩

/-- Whether a prefix is recorded for a namespace. -/
def holds (m : PrefixMap) (space : Option Text) (pre : Text) : Bool :=
  (m.candidates space).contains pre

/-- The prefix to use for a namespace: the one wished for if it is recorded, else the one recorded
last. -/
def preferred? (m : PrefixMap) (space wish : Option Text) : Option Text :=
  match wish with
  | none => (m.candidates space).getLast?
  | some p => if m.holds space p then some p else (m.candidates space).getLast?

/-- Makes the prefixes of a namespace those of a list; an empty list is passed over. -/
def assign (m : PrefixMap) (space : Option Text) (prefixes : List Text) : PrefixMap :=
  if prefixes.isEmpty then m
  else ⟨(m.bindings.filter fun b => b.space ≠ space) ++ prefixes.map fun p => ⟨space, p⟩⟩

/-- The map with the given prefixes, where a later entry for a namespace replaces an earlier one. -/
def ofEntries (entries : List (Option Text × List Text)) : PrefixMap :=
  entries.foldl (fun m e => m.assign e.1 e.2) empty

/-- The map that a document starts from: `xml` is bound to its namespace. -/
def standard : PrefixMap := empty.add (some xmlNamespace) xmlPrefix

/-! ## The view -/

@[simp] theorem candidates_empty (space : Option Text) : empty.candidates space = [] := rfl

/-- Adding a binding appends to the candidates of its namespace and to no others. -/
theorem candidates_add (m : PrefixMap) (space key : Option Text) (pre : Text) :
    (m.add space pre).candidates key =
      m.candidates key ++ if space = key then [pre] else [] := by
  by_cases h : space = key <;> simp [candidates, add, List.filter_append, h]

/-- A nonempty list becomes the candidates of its namespace; all others stay as they were. -/
theorem candidates_assign (m : PrefixMap) (space key : Option Text) (prefixes : List Text) :
    (m.assign space prefixes).candidates key =
      if space = key ∧ prefixes ≠ [] then prefixes else m.candidates key := by
  unfold assign
  by_cases hp : prefixes = []
  · simp [hp]
  · rw [if_neg (by simpa using hp)]
    by_cases h : space = key
    · subst h
      have hf : (prefixes.map fun p => Binding.mk space p).filter (fun b => b.space = space) =
          prefixes.map fun p => Binding.mk space p := by
        rw [List.filter_eq_self]; simp
      simp [candidates, List.filter_append, List.filter_filter, hf, hp, Function.comp_def]
    · have hf :
          (prefixes.map fun p => Binding.mk space p).filter (fun b => b.space = key) = [] := by
        rw [List.filter_eq_nil_iff]; simp [h]
      have hk : (m.bindings.filter fun b => b.space ≠ space).filter (fun b => b.space = key) =
          m.bindings.filter fun b => b.space = key := by
        rw [List.filter_filter]
        apply List.filter_congr
        intro b _
        by_cases hb : b.space = key
        · simp [hb, Ne.symm h]
        · simp [hb]
      rw [candidates, List.filter_append, hk, hf]
      simp [candidates, h]

/-- A binding is held exactly when its prefix is a candidate of its namespace. -/
theorem holds_iff {m : PrefixMap} {space : Option Text} {pre : Text} :
    m.holds space pre = true ↔ pre ∈ m.candidates space := by
  simp [holds]

/-- The candidates of a namespace are the prefixes that it has a binding with. -/
theorem mem_candidates_iff {m : PrefixMap} {space : Option Text} {pre : Text} :
    pre ∈ m.candidates space ↔ ⟨space, pre⟩ ∈ m.bindings := by
  simp only [candidates, List.mem_map, List.mem_filter, decide_eq_true_eq]
  constructor
  · rintro ⟨⟨s, p⟩, ⟨hb, rfl⟩, rfl⟩
    exact hb
  · exact fun hb => ⟨⟨space, pre⟩, ⟨hb, rfl⟩, rfl⟩

/-- What is preferred is recorded. -/
theorem mem_candidates_of_preferred? {m : PrefixMap} {space wish : Option Text} {pre : Text}
    (h : m.preferred? space wish = some pre) : pre ∈ m.candidates space := by
  unfold preferred? at h
  split at h
  · exact List.mem_of_getLast? h
  · split at h
    next hp => cases h; exact holds_iff.1 hp
    · exact List.mem_of_getLast? h

/-- No prefix can be preferred exactly when none is recorded. -/
theorem preferred?_eq_none_iff {m : PrefixMap} {space wish : Option Text} :
    m.preferred? space wish = none ↔ m.candidates space = [] := by
  cases wish with
  | none => simp [preferred?]
  | some p =>
    by_cases h : m.holds space p = true
    · have := holds_iff.1 h
      simp only [preferred?, h, if_true]
      constructor
      · intro hn; cases hn
      · intro hn; rw [hn] at this; cases this
    · simp [preferred?, h]

end PrefixMap

end XmlWriter
