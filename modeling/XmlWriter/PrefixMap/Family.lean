import XmlWriter.PrefixMap.Basic

/-!
# Families of prefix maps

Copies of a prefix map live on their own: what is added to one reaches no other. A family is the
list of the maps made so far, numbered in the order in which they were made.

Who asks a map of a family for the candidates of a namespace is given a view of them
(`CandidateView`), which goes on showing what is added to them later. Main statement: read at once,
a view shows the candidates (`CandidateView.read_view`).
-/

namespace XmlWriter

/-- The maps made so far; a copy is put at the end. -/
abbrev PrefixMapFamily := List PrefixMap

/-- What can be done to a family. -/
inductive FamilyStep where
  | add (index : Nat) (space : Option Text) (pre : Text)
  | copy (index : Nat)
  deriving DecidableEq, Repr

namespace PrefixMapFamily

/-- The map with a number; a number that is not in use stands for the empty map. -/
def map (f : PrefixMapFamily) (index : Nat) : PrefixMap := (f[index]?).getD PrefixMap.empty

/-- One step: a binding added to one map, or one more map, the copy of another. -/
def step (f : PrefixMapFamily) : FamilyStep → PrefixMapFamily
  | .add index space pre => List.modify f index fun m => m.add space pre
  | .copy index => f ++ [f.map index]

/-- The family after some steps. -/
def steps (f : PrefixMapFamily) (ss : List FamilyStep) : PrefixMapFamily := ss.foldl step f

end PrefixMapFamily

/-- What is given to who asks for the candidates of a namespace. While there are none there is no
list to look at, and the view that is given then stays empty. -/
inductive CandidateView where
  | empty
  | live (index : Nat) (space : Option Text)
  deriving DecidableEq, Repr

namespace PrefixMapFamily

/-- The view of the candidates of a namespace in one of the maps. -/
def view (f : PrefixMapFamily) (index : Nat) (space : Option Text) : CandidateView :=
  if (f.map index).candidates space = [] then .empty else .live index space

end PrefixMapFamily

namespace CandidateView

/-- What a view shows of a family. -/
def read (f : PrefixMapFamily) : CandidateView → List Text
  | .empty => []
  | .live index space => (f.map index).candidates space

/-- Read at once, a view shows the candidates. -/
theorem read_view (f : PrefixMapFamily) (index : Nat) (space : Option Text) :
    (f.view index space).read f = (f.map index).candidates space := by
  unfold PrefixMapFamily.view
  split
  next h => rw [h]; rfl
  · rfl

end CandidateView

end XmlWriter
