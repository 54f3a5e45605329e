import XmlWriter.Writer.Run
import XmlWriter.Outlet.Buffers

/-!
# Documents and trees

A tree of nodes is written by the events of its nodes in document order: an element starts, its
children follow, and it is closed. A document is an optional declaration and its nodes. A caller
with trees of its own gives its events instead. `Source.write` writes any of these to an outlet, and
`Source.render` gives the text.
-/

namespace XmlWriter

/-- A node of a tree. -/
inductive Node where
  | element (name : Name) (attributes : List Attribute) (children : List Node)
  | text (t : Text)
  | cdata (t : Text)
  | comment (t : Text)
  | instruction (target content : Text)
  | doctype (t : Text)

namespace Node

/-- Whether a node is an element. -/
def isElement : Node → Bool
  | .element .. => true
  | _ => false

mutual

/-- The events of a node. -/
def events : Node → List Event
  | .element name attributes children =>
    .start name attributes children.isEmpty :: (eventsOfAll children ++ [.close name])
  | .text t => [.text t]
  | .cdata t => [.cdata t]
  | .comment t => [.comment t]
  | .instruction target content => [.instruction target content]
  | .doctype t => [.doctype t]

/-- The events of nodes, one node after the other. -/
def eventsOfAll : List Node → List Event
  | [] => []
  | n :: rest => n.events ++ eventsOfAll rest

end

/-- The events of nodes are those of each in turn. -/
theorem eventsOfAll_eq_flatMap (ns : List Node) : eventsOfAll ns = ns.flatMap events := by
  induction ns with
  | nil => rfl
  | cons n rest ih => simp [eventsOfAll, ih]

end Node

/-- A document: an optional declaration and its top-level nodes. -/
structure Document where
  declaration : Option XmlDecl
  children : List Node

namespace Document

/-- The events of a document. -/
def events (d : Document) : List Event :=
  (d.declaration.map Event.declaration).toList ++ Node.eventsOfAll d.children

end Document

/-- How much of an element is written: the element with its tags, or only its content. -/
inductive Extent where
  | whole
  | content
  deriving DecidableEq, Repr

/-- What can be written. -/
inductive Source where
  | document (d : Document)
  | node (n : Node)
  /-- A tree of the caller's own, which is asked for its events. -/
  | walker (walk : Extent → List Event)

namespace Source

/-- The events of a source. Only an element has tags that can be left out. -/
def events : Source → Extent → List Event
  | .document d, _ => d.events
  | .node (.element _ _ children), .content => Node.eventsOfAll children
  | .node n, _ => n.events
  | .walker walk, extent => walk extent

end Source

/-- How a source is written. -/
structure Options where
  /-- How much of an element is written, if the caller says so. -/
  extent : Option Extent := none
  /-- Whether inputs that would not be well-formed are refused. -/
  enforce : Bool := true
  /-- The namespace that the outermost element inherits. -/
  context : NamePart := .absent
  /-- The prefixes recorded before the first element. -/
  prefixes : PrefixMap := .standard
  /-- The number of the first generated prefix. -/
  firstNumber : Counter := .ofInt 1

namespace Writer

/-- A writer at the start of a run. -/
def new (o : Options) : Writer where
  enforce := o.enforce
  root := ⟨o.prefixes, o.context.value?⟩
  stack := []
  next := o.firstNumber

end Writer

namespace Source

variable {ω : Type} [Outlet ω]

/-- Writes a source to an outlet, of an element only the content unless the options say
otherwise. -/
def write (s : Source) (o : Options) (out : ω) : Progress ω :=
  (Writer.new o).walk out (s.events (o.extent.getD .content))

/-- Writes a source to a buffer, an element with its tags unless the options say otherwise. -/
def writeText (s : Source) (o : Options) : Progress TextBuffer :=
  s.write { o with extent := some (o.extent.getD .whole) } TextBuffer.empty

/-- The text of a source, unless it is refused. -/
def render (s : Source) (o : Options) : Except Failure Text :=
  let p := s.writeText o
  match p.failure with
  | some failure => .error failure
  | none => .ok p.out.text

end Source

end XmlWriter
