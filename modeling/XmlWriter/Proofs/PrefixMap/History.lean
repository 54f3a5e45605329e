import Mathlib.Data.List.Dedup
import Mathlib.Data.List.Induction
import XmlWriter.PrefixMap.Family

/-!
# Prefix maps as histories, copy by copy

A map of a family shows the prefixes that its history has put under a namespace. The history of a
copy goes back beyond the moment at which it was made, as that of the map that it is a copy of, and
from then on the two go their own ways. So an addition belongs to the history of a map exactly if it
is made to the map that this one comes from at that moment (`PrefixMapFamily.origin`), and before
all additions there is what the first map was given (`PrefixMap.given`). Main statement:
`PrefixMapFamily.candidates_of_steps`.
-/

namespace XmlWriter

/-! ## Entries -/

namespace PrefixMap

/-- The list that entries give a namespace: that of the last entry for it which is not empty. -/
def given (entries : List (Option Text × List Text)) (key : Option Text) : List Text :=
  ((entries.filter fun e => e.1 = key ∧ e.2 ≠ []).getLast?.map (·.2)).getD []

/-- What a map is read out as: the namespaces that it has bindings of, each with its prefixes. -/
def entries (m : PrefixMap) : List (Option Text × List Text) :=
  (m.bindings.map (·.space)).dedup.map fun key => (key, m.candidates key)

section
variable {m : PrefixMap} {key : Option Text} {prefixes : List Text}

/-- A map made of entries has the list that they give. -/
theorem candidates_ofEntries (es : List (Option Text × List Text)) (key : Option Text) :
    (ofEntries es).candidates key = given es key := by
  induction es using List.reverseRecOn with
  | nil => rfl
  | append_singleton es e ih =>
    have hstep : ofEntries (es ++ [e]) = (ofEntries es).assign e.1 e.2 := by
      rw [ofEntries, List.foldl_append]
      rfl
    rw [hstep, candidates_assign, ih, given, given, List.filter_append]
    by_cases h : e.1 = key ∧ e.2 ≠ [] <;> simp [h]

/-- A namespace has an entry exactly if it has candidates, and the entry has these. -/
theorem mem_entries_iff :
    (key, prefixes) ∈ m.entries ↔ prefixes = m.candidates key ∧ prefixes ≠ [] := by
  have hkey : key ∈ m.bindings.map (·.space) ↔ m.candidates key ≠ [] := by
    rw [candidates, ne_eq, List.map_eq_nil_iff, List.filter_eq_nil_iff]
    simp
  simp only [entries, List.mem_map, List.mem_dedup, Prod.mk.injEq]
  constructor
  · rintro ⟨_, hk, rfl, rfl⟩
    exact ⟨rfl, hkey.1 (List.mem_map.2 hk)⟩
  · rintro ⟨rfl, hne⟩
    exact ⟨key, List.mem_map.1 (hkey.2 hne), rfl, rfl⟩

/-- A map made of the entries of another one has the same candidates. -/
theorem candidates_ofEntries_entries (m : PrefixMap) (key : Option Text) :
    (ofEntries m.entries).candidates key = m.candidates key := by
  rw [candidates_ofEntries, given]
  cases hl : (m.entries.filter fun e => e.1 = key ∧ e.2 ≠ []).getLast? with
  | none =>
    -- an entry for the namespace would not be empty
    rw [List.getLast?_eq_none_iff, List.filter_eq_nil_iff] at hl
    by_contra hne
    have hm := mem_entries_iff.2 ⟨rfl, Ne.symm hne⟩
    exact hl _ hm (by simpa using Ne.symm hne)
  | some e =>
    obtain ⟨hm, he⟩ := List.mem_filter.1 (List.mem_of_getLast? hl)
    obtain ⟨rfl, -⟩ : e.1 = key ∧ e.2 ≠ [] := by simpa using he
    exact (mem_entries_iff.1 hm).1

/-- What is preferred is the prefix wished for if it is a candidate, and else the last candidate. -/
theorem preferred?_eq (wish : Option Text) :
    m.preferred? key wish =
      if ∃ p ∈ wish, p ∈ m.candidates key then wish else (m.candidates key).getLast? := by
  cases wish with
  | none => simp [preferred?]
  | some p => simp [preferred?, holds_iff]

end

end PrefixMap

/-! ## Where a map comes from -/

namespace FamilyStep

/-- The number of the map that a step goes to. -/
def index : FamilyStep → Nat
  | .add index .. | .copy index => index

/-- Whether a step makes one more map. -/
def isCopy : FamilyStep → Bool
  | .add .. => false
  | .copy _ => true

end FamilyStep

namespace PrefixMapFamily

/-- Whether each of some steps goes to a map that has been made by then, if there are `n` maps when
they begin. -/
def Addressed : Nat → List FamilyStep → Prop
  | _, [] => True
  | n, s :: rest => s.index < n ∧ Addressed (if s.isCopy then n + 1 else n) rest

instance decidableAddressed : ∀ n ss, Decidable (Addressed n ss)
  | _, [] => .isTrue trivial
  | n, s :: rest =>
    have := decidableAddressed (if s.isCopy then n + 1 else n) rest
    inferInstanceAs (Decidable (_ ∧ _))

/-- The map, among the `n` that there are when some steps begin, that the map with a number comes
from after them: itself, or what the map comes from that it is a copy of. -/
def origin : Nat → List FamilyStep → Nat → Nat
  | _, [], i => i
  | n, .add .. :: rest, i => origin n rest i
  | n, .copy index :: rest, i =>
    if origin (n + 1) rest i = n then index else origin (n + 1) rest i

/-- The prefixes that some steps add to the history of the map with a number, under one namespace:
those that are added to the map which it comes from at that moment. -/
def recorded (key : Option Text) : Nat → List FamilyStep → Nat → List Text
  | _, [], _ => []
  | n, .add index space pre :: rest, i =>
    (if index = origin n rest i ∧ space = key then [pre] else []) ++ recorded key n rest i
  | n, .copy _ :: rest, i => recorded key (n + 1) rest i

section
variable {f : PrefixMapFamily} {ss : List FamilyStep} {n i j : Nat} {space key : Option Text}
  {pre : Text}

/-- A history goes on from what its first step leaves. -/
theorem steps_cons (f : PrefixMapFamily) (s : FamilyStep) (ss : List FamilyStep) :
    f.steps (s :: ss) = (f.step s).steps ss := rfl

@[simp] theorem length_step_add (f : PrefixMapFamily) (index : Nat) (space : Option Text)
    (pre : Text) : (f.step (.add index space pre)).length = f.length :=
  List.length_modify ..

@[simp] theorem length_step_copy (f : PrefixMapFamily) (index : Nat) :
    (f.step (.copy index)).length = f.length + 1 :=
  List.length_append

/-- Every copy is one more map. -/
theorem length_steps (f : PrefixMapFamily) (ss : List FamilyStep) :
    (f.steps ss).length = f.length + ss.countP FamilyStep.isCopy := by
  induction ss generalizing f with
  | nil => rfl
  | cons s ss ih =>
    rw [steps_cons, ih, List.countP_cons]
    cases s with
    | add => simp [FamilyStep.isCopy]
    | copy =>
      simp only [length_step_copy, FamilyStep.isCopy, if_true]
      omega

/-- An addition reaches one map. -/
theorem map_step_add (hj : j < f.length) :
    (f.step (.add j space pre)).map i = if j = i then (f.map i).add space pre else f.map i := by
  unfold step map
  rw [List.getElem?_modify]
  split
  next h =>
    subst h
    rw [List.getElem?_eq_getElem hj]
    rfl
  next => simp

/-- A copy is what the map is that it is made of, and all others stay as they were. -/
theorem map_step_copy :
    (f.step (.copy j)).map i = if i = f.length then f.map j else f.map i := by
  unfold step map
  rcases Nat.lt_trichotomy i f.length with h | rfl | h
  · rw [List.getElem?_append_left h, if_neg (Nat.ne_of_lt h)]
  · rw [List.getElem?_concat_length, if_pos rfl]
    rfl
  · rw [if_neg (Nat.ne_of_gt h), List.getElem?_eq_none (Nat.le_of_lt h), List.getElem?_eq_none]
    rw [List.length_append]
    exact h

/-- What a map comes from had been made. -/
theorem origin_lt (h : Addressed n ss) (hi : i < n + ss.countP FamilyStep.isCopy) :
    origin n ss i < n := by
  induction ss generalizing n with
  | nil => exact hi
  | cons s ss ih =>
    rw [List.countP_cons] at hi
    cases s with
    | add => exact ih h.2 hi
    | copy index =>
      have hn : origin (n + 1) ss i < n + 1 := by
        refine ih h.2 ?_
        simp only [FamilyStep.isCopy, if_true] at hi
        omega
      rw [origin]
      split
      next => exact h.1
      next hne => omega

/-- After some steps a map has the candidates of the map that it comes from, and then those that the
steps have added to its history. -/
theorem candidates_map_steps (h : Addressed f.length ss) (hi : i < (f.steps ss).length)
    (key : Option Text) :
    ((f.steps ss).map i).candidates key =
      (f.map (origin f.length ss i)).candidates key ++ recorded key f.length ss i := by
  induction ss generalizing f with
  | nil => simp [steps, origin, recorded]
  | cons s ss ih =>
    rw [steps_cons] at hi ⊢
    cases s with
    | add j space pre =>
      have h' : Addressed (f.step (.add j space pre)).length ss := by
        rw [length_step_add]
        exact h.2
      have hlt : j < f.length := h.1
      rw [ih h' hi, map_step_add hlt, length_step_add, origin, recorded, ← List.append_assoc]
      by_cases hj : j = origin f.length ss i
      · rw [if_pos hj, PrefixMap.candidates_add]
        simp only [hj, true_and]
      · simp [hj]
    | copy j =>
      have h' : Addressed (f.step (.copy j)).length ss := by
        rw [length_step_copy]
        exact h.2
      rw [ih h' hi, map_step_copy, length_step_copy, origin, recorded, apply_ite f.map]

end

/-- Among the maps that come from one made of entries, by additions and copies that go to maps made
so far, there is one more for each copy. Each of them has for a namespace the prefixes that the
entries give it, and then those that have been added for it to this map and, as long as it had not
been made, to the map that it comes from. No namespace that is there has an empty list, and what a
map is read out as makes the same map again. A binding is held exactly if its prefix is a candidate;
what is preferred is the prefix wished for, if it is a candidate, and else the last candidate, and
there is none exactly if there are no candidates. -/
theorem candidates_of_steps (entries : List (Option Text × List Text)) (ss : List FamilyStep)
    (h : Addressed 1 ss) :
    let f := steps [PrefixMap.ofEntries entries] ss
    f.length = 1 + ss.countP FamilyStep.isCopy ∧
    ∀ i m, f[i]? = some m → ∀ key,
      m.candidates key = PrefixMap.given entries key ++ recorded key 1 ss i ∧
      (∀ prefixes, (key, prefixes) ∈ m.entries ↔ prefixes = m.candidates key ∧ prefixes ≠ []) ∧
      (PrefixMap.ofEntries m.entries).candidates key = m.candidates key ∧
      (∀ pre, m.holds key pre = true ↔ pre ∈ m.candidates key) ∧
      (∀ wish, m.preferred? key wish =
        if ∃ pre ∈ wish, pre ∈ m.candidates key then wish else (m.candidates key).getLast?) ∧
      ∀ wish, m.preferred? key wish = none ↔ m.candidates key = [] := by
  intro f
  have hlen : f.length = 1 + ss.countP FamilyStep.isCopy := length_steps _ ss
  refine ⟨hlen, ?_⟩
  intro i m hm key
  obtain ⟨hi, -⟩ := List.getElem?_eq_some_iff.1 hm
  have hmap : f.map i = m := by
    rw [map, hm]
    rfl
  -- there is only one map that any map can come from
  have horigin : origin 1 ss i = 0 := Nat.lt_one_iff.1 (origin_lt h (hlen ▸ hi))
  have hc := candidates_map_steps (f := [PrefixMap.ofEntries entries]) h hi key
  rw [List.length_singleton, horigin] at hc
  refine ⟨?_, fun _ => PrefixMap.mem_entries_iff, m.candidates_ofEntries_entries key,
    fun _ => PrefixMap.holds_iff, PrefixMap.preferred?_eq,
    fun _ => PrefixMap.preferred?_eq_none_iff⟩
  rw [← hmap, ← PrefixMap.candidates_ofEntries]
  exact hc

/-- A copy and the map that it was made of, both added to afterwards, and a copy of the copy. "No
namespace" and the namespace with the empty name are two. -/
theorem candidates_of_steps_copied :
    let a := Text.ofString "a"
    let b := Text.ofString "b"
    let c := Text.ofString "c"
    let d := Text.ofString "d"
    let entries := [(none, [a]), (some [], [b]), (none, [c, a]), (none, [])]
    let ss : List FamilyStep := [.add 0 none d, .copy 0, .add 0 none a, .add 1 none b, .copy 1,
      .add 1 (some []) c, .add 2 none b]
    let f := steps [PrefixMap.ofEntries entries] ss
    Addressed 1 ss ∧
      (f.map 0).candidates none = [c, a, d, a] ∧ (f.map 1).candidates (some []) = [b, c] ∧
      (f.map 2).candidates none = [c, a, d, b, b] ∧ (f.map 2).candidates (some []) = [b] := by
  intro a b c d entries ss f
  have h : Addressed 1 ss := by decide
  obtain ⟨-, hf⟩ := candidates_of_steps entries ss h
  exact ⟨h, (hf 0 (f.map 0) rfl none).1, (hf 1 (f.map 1) rfl (some [])).1,
    (hf 2 (f.map 2) rfl none).1, (hf 2 (f.map 2) rfl (some [])).1⟩

end PrefixMapFamily

end XmlWriter
