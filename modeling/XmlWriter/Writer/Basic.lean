import XmlWriter.Tag.Start
import XmlWriter.Writer.Event

/-!
# The writer

A writer holds the scope that the outermost elements are resolved in, the elements that are open and
the counter of generated prefixes. `Event.emit` says what an event hands on and what it makes of the
writer. Only the innermost scope, the counter and the enforcement of checks decide what is written;
the rest of the stack matters only when elements are closed.
-/

namespace XmlWriter

/-- The state of one run. -/
structure Writer where
  /-- Whether an input that would not be well-formed is refused. -/
  enforce : Bool
  /-- The scope of the outermost elements. -/
  root : Scope
  /-- The open elements. -/
  stack : OpenElements
  /-- The number that the next generated prefix carries. -/
  next : Counter
  deriving DecidableEq, Repr

namespace Writer

/-- The number of open elements. -/
def depth (w : Writer) : Nat := w.stack.depth

/-- The scope that the next element is resolved in. -/
def scope (w : Writer) : Scope := (w.stack.innermost?.map (·.scope)).getD w.root

/-- The writer with another counter. -/
def withNext (n : Counter) (w : Writer) : Writer := { w with next := n }

/-- The writer with one more open element. -/
def push (e : OpenElement) (w : Writer) : Writer := { w with stack := w.stack.push e }

/-- The writer without its innermost element. -/
def pop (w : Writer) : Writer := { w with stack := w.stack.pop }

/-- The scope inside an element just opened is the element's. -/
@[simp] theorem scope_push (e : OpenElement) (w : Writer) : (w.push e).scope = e.scope := rfl

@[simp] theorem pop_push (e : OpenElement) (w : Writer) : (w.push e).pop = w := rfl

end Writer

namespace Event

/-- Opens an element. -/
def emitStart (name : Name) (attributes : List Attribute) (childless : Bool) :
    Emit Writer Unit := do
  let w ← Emit.get
  let e ← Emit.zoom Writer.next Writer.withNext
    (OpenElement.start w.enforce w.scope name attributes childless)
  Emit.modify (Writer.push e)
  Emit.write .tagEnd

/-- Closes the innermost element under the name it was opened with. The name given for it only
matters when nothing is open. -/
def emitClose (name : Name) : Emit Writer (Option Warning) := do
  let w ← Emit.get
  match w.stack.innermost? with
  | none => return some (.nothingOpen name.localPart)
  | some e =>
    Emit.modify Writer.pop
    if e.selfClosed then
      return none
    else
      Emit.write (.endTag e.name)
      return none

/-- Writes a piece of content after its check. -/
def emitContent (flaw? : Option Flaw) (p : Piece) : Emit Writer (Option Warning) := do
  let w ← Emit.get
  Emit.demand w.enforce flaw?
  Emit.write p
  return none

/-- What an event does. -/
def emit : Event → Emit Writer (Option Warning)
  | .start name attributes childless => do
    emitStart name attributes childless
    return none
  | .close name => emitClose name
  | .text t => emitContent (CharData.flaw? t) (.text t)
  | .cdata t => emitContent (CDSect.flaw? t) (.cdata t)
  | .comment t => emitContent (Comment.flaw? t) (.comment t)
  | .instruction target data =>
    emitContent (Instruction.flaw? target data) (.instruction target data)
  | .doctype t => emitContent none (.doctype t)
  | .declaration d => emitContent d.flaw? (.declaration d)

end Event

end XmlWriter
