import XmlWriter.Proofs.SideBySide
import XmlWriter.Proofs.Writer.Forest
import XmlWriter.Proofs.Writer.Session

/-!
# Nodes in their context

What a writer does with nodes depends on the elements around them only through the scope of the
innermost one. A writer that has just begun can be put inside the open elements of another one
(`Writer.within`), and as long as no element is closed that it has not opened itself, it does there
what it does alone (`Writer.walk_within`), also where it is stopped on the way. Nodes close what
they open (`Node.isEnclosed_eventsOfAll_append`), so that writing them in any state of a run is
writing them as a document of their own, with the scope and the counter of that state for options
(`Session.walk_eq_write_document`).
-/

namespace XmlWriter

/-! ## Events that stay inside -/

namespace Event

/-- Whether events that come with `depth` elements open close none but these and those that they
open themselves. -/
def IsEnclosed : Nat → List Event → Prop
  | _, [] => True
  | depth, .start .. :: es => IsEnclosed (depth + 1) es
  | 0, .close _ :: _ => False
  | depth + 1, .close _ :: es => IsEnclosed depth es
  | depth, .text _ :: es | depth, .cdata _ :: es | depth, .comment _ :: es
  | depth, .instruction .. :: es | depth, .doctype _ :: es | depth, .declaration _ :: es =>
    IsEnclosed depth es

end Event

/-- Nodes close every element that they open. -/
theorem Node.isEnclosed_eventsOfAll_append (ns : List Node) (depth : Nat) (es : List Event) :
    Event.IsEnclosed depth (eventsOfAll ns ++ es) ↔ Event.IsEnclosed depth es := by
  match ns with
  | [] => rfl
  | .element name attributes children :: rest =>
    simp only [eventsOfAll, events, List.cons_append, List.append_assoc, List.nil_append,
      Event.IsEnclosed]
    rw [isEnclosed_eventsOfAll_append children, Event.IsEnclosed,
      isEnclosed_eventsOfAll_append rest]
  | .text _ :: rest | .cdata _ :: rest | .comment _ :: rest | .instruction .. :: rest
  | .doctype _ :: rest =>
    simp only [eventsOfAll, events, List.cons_append, List.nil_append, Event.IsEnclosed]
    exact isEnclosed_eventsOfAll_append rest depth es
termination_by sizeOf ns

namespace Writer

/-! ## One writer inside another -/

/-- The writer `v` inside the elements that are open in `w`. -/
def within (w v : Writer) : Writer := { v with root := w.root, stack := v.stack ++ w.stack }

section
variable {w v : Writer}

/-- Inside the other elements the scope is the same, if `v` has begun in the scope that they leave.
-/
theorem scope_within (h : v.root = w.scope) : (w.within v).scope = v.scope := by
  unfold scope within
  cases hs : v.stack with
  | nil => simpa [OpenElements.innermost?, scope] using h.symm
  | cons e es => rfl

/-- Who closes an element from inside has it open. -/
theorem exists_eq_push {name : Name} {es : List Event}
    (h : Event.IsEnclosed v.depth (.close name :: es)) : ∃ el, v = v.pop.push el := by
  obtain ⟨enforce, root, _ | ⟨el, stack⟩, next⟩ := v
  · exact h.elim
  · exact ⟨el, rfl⟩

/-- An event does inside the other elements what it does alone, if it closes none of them. -/
theorem follows_within {e : Event} {es : List Event} (h : v.root = w.scope)
    (he : Event.IsEnclosed v.depth (e :: es)) : e.emit.Follows w.within e.emit v := by
  cases e with
  | start name attributes childless =>
    refine (Emit.follows_get_bind ?_).bind fun _ _ _ _ => Emit.follows_pure none
    rw [scope_within h]
    refine Emit.Follows.bind (Emit.follows_zoom _ rfl fun _ => rfl) fun _ el _ _ => ?_
    refine Emit.Follows.bind (Emit.follows_modify ?_) fun _ _ _ _ => Emit.follows_write .tagEnd
    rfl
  | close name =>
    obtain ⟨el, hv⟩ := exists_eq_push he
    rw [hv]
    refine Emit.follows_get_bind ?_
    refine Emit.Follows.bind (Emit.follows_modify ?_) fun _ _ _ _ => ?_
    · rfl
    · split
      · exact Emit.follows_pure none
      · exact (Emit.follows_write _).bind fun _ _ _ _ => Emit.follows_pure none
  | text | cdata | comment | instruction | doctype | declaration =>
    refine Emit.follows_get_bind ?_
    refine Emit.Follows.bind (Emit.follows_demand _ _) fun _ _ _ _ => ?_
    exact (Emit.follows_write _).bind fun _ _ _ _ => Emit.follows_pure none

/-- An event that ends well from inside gives no warning, and what comes after it stays inside. -/
theorem isEnclosed_of_ends {e : Event} {es : List Event} {ps : List Piece} {a : Option Warning}
    {v' : Writer} (h : Event.IsEnclosed v.depth (e :: es)) (ha : e.emit.Ends v ps a v') :
    a = none ∧ Event.IsEnclosed v'.depth es ∧ v'.root = v.root := by
  cases e with
  | start name attributes childless =>
    obtain ⟨rfl, _, el, n, -, -, rfl⟩ := Event.ends_emit_start.1 ha
    exact ⟨rfl, h, rfl⟩
  | close name =>
    obtain ⟨el, hv⟩ := exists_eq_push h
    rw [hv] at ha h ⊢
    obtain ⟨rfl, -, rfl⟩ := Event.ends_emitClose ha
    exact ⟨rfl, h, rfl⟩
  | text | cdata | comment | instruction | doctype | declaration =>
    obtain ⟨rfl, -, -, rfl⟩ := Event.ends_emitContent.1 ha
    exact ⟨rfl, h, rfl⟩

end

variable {ω : Type} [Outlet ω]

/-- Events that close none of the other elements do inside them what they do alone, as far as they
get, and give no warning. -/
theorem walk_within {w v : Writer} {es : List Event} (out : ω) (h : v.root = w.scope)
    (he : Event.IsEnclosed v.depth es) :
    (w.within v).walk out es = (v.walk out es).mapWriter w.within ∧
      (v.walk out es).warnings = [] := by
  induction es generalizing v out with
  | nil => exact ⟨rfl, rfl⟩
  | cons e es ih =>
    have hp := perform_of_follows (follows_within h he) out
    have hw : (v.perform out e).warnings = [] := by
      refine List.eq_nil_iff_forall_not_mem.2 fun warning hm => ?_
      obtain ⟨_, ha⟩ := ends_of_mem_warnings hm
      cases (isEnclosed_of_ends he ha).1
    cases hf : (v.perform out e).failure with
    | some failure =>
      rw [walk_cons_of_failed es hf, walk_cons_of_failed es (by rw [hp]; exact hf)]
      exact ⟨hp, hw⟩
    | none =>
      obtain ⟨a, ha⟩ := ends_of_perform hf
      obtain ⟨-, he', hr⟩ := isEnclosed_of_ends he ha
      obtain ⟨ih₁, ih₂⟩ := ih (v.perform out e).out (hr.trans h) he'
      rw [walk_cons_of_done es hf, walk_cons_of_done es (by rw [hp]; exact hf), hp]
      simp [Progress.mapWriter, ih₁, ih₂, hw]

/-- Nodes do inside some open elements what they do in a new run that has the scope inside these for
its root and the same counter, and give no warning. -/
theorem walk_eventsOfAll (w : Writer) (out : ω) (ns : List Node) :
    let q := (Writer.mk w.enforce w.scope [] w.next).walk out (Node.eventsOfAll ns)
    w.walk out (Node.eventsOfAll ns) = q.mapWriter w.within ∧ q.warnings = [] := by
  have hn : Event.IsEnclosed 0 (Node.eventsOfAll ns) := by
    rw [← List.append_nil (Node.eventsOfAll ns), Node.isEnclosed_eventsOfAll_append]
    trivial
  exact walk_within (v := ⟨w.enforce, w.scope, [], w.next⟩) out rfl hn

/-- Nodes that are written to the end change only the counter. -/
theorem walk_eventsOfAll_writer {w : Writer} {out : ω} {ns : List Node}
    (h : (w.walk out (Node.eventsOfAll ns)).failure = none) :
    let w' := (w.walk out (Node.eventsOfAll ns)).writer
    w' = w.withNext w'.next := by
  obtain ⟨n', -, hw'⟩ := Node.writtenAll_of_ends ns (ends_of_walk h)
  rw [hw']
  rfl

end Writer

/-! ## In any state of a run -/

namespace NamePart

/-- How a caller says a namespace, or that there is none. -/
def ofOption : Option Text → NamePart
  | none => .null
  | some t => .given t

/-- A namespace said in this way is understood as it was meant. -/
@[simp] theorem value?_ofOption {space : Option Text} (h : space ≠ some []) :
    (ofOption space).value? = space := by
  rcases space with _ | _ | ⟨u, t⟩
  · rfl
  · exact absurd rfl h
  · rfl

end NamePart

/-- The content of an element does not inherit the namespace with the empty name. -/
theorem Resolution.Way.inherited_ne {enforce : Bool} {d : Declarations} {inherited : Option Text}
    {name : Name} {n t : Counter} {r : Resolution} (h : Way enforce d inherited name n r t)
    (hi : inherited ≠ some []) : r.inherited ≠ some [] := by
  have hd : inheritedWith d.default? inherited ≠ some [] := by
    cases d.default? with
    | none => exact hi
    | some v => exact NamePart.value?_ne_some_nil _
  cases h with
  | inPlace => exact hi
  | recorded =>
    simp only [withRecorded]
    split
    · exact hi
    · exact hd
  | declared | generated => exact hd
  | ownDefault | default => exact NamePart.value?_ne_some_nil _

/-- What is inherited inside open elements can be said by a caller. -/
theorem Opened.inherited_ne {enforce : Bool} {root : Scope} {P : List Attribute → Prop}
    {stack : OpenElements} {tags : List StartTag} (h : Opened enforce root P stack tags)
    (hr : root.inherited ≠ some []) : (stack.scope root).inherited ≠ some [] := by
  induction h with
  | nil => exact hr
  | cons _ _ hs ih =>
    cases hs with
    | mk _ hw => exact hw.inherited_ne ih

namespace Session

variable {ω₀ ω : Type} [Outlet ω₀] [Outlet ω]

/-- In any state of a run, whatever has happened before, writing nodes does to an outlet what
writing them as a document does, if the document is given the prefixes and the namespace of the
innermost scope and the counter: the outlet is given the same chunks, the same failure stops them,
if any does, and the counter ends where it ends there. No warning is given, and nodes that are
written to the end change nothing but the counter. -/
theorem walk_eq_write_document (o : Options) (out₀ : ω₀) (es : List Event) (ns : List Node)
    (extent : Option Extent) (out : ω) :
    let w := ((start o out₀).run es).writer
    let p := w.walk out (Node.eventsOfAll ns)
    let q := (Source.document ⟨none, ns⟩).write
      { extent := extent
        enforce := o.enforce
        context := .ofOption w.scope.inherited
        prefixes := w.scope.prefixes
        firstNumber := w.next } out
    p.out = q.out ∧ p.failure = q.failure ∧ p.writer.next = q.writer.next ∧ p.warnings = [] ∧
      q.warnings = [] ∧ (p.failure = none → p.writer = w.withNext q.writer.next) := by
  intro w p q
  obtain ⟨h, he, hr⟩ := opened_run_any o out₀ es
  have hi : w.scope.inherited ≠ some [] := by
    have hroot := h.inherited_ne (NamePart.value?_ne_some_nil o.context)
    rwa [← hr] at hroot
  -- the options give back the scope and the counter
  have hq : q = (Writer.mk w.enforce w.scope [] w.next).walk out (Node.eventsOfAll ns) := by
    show (Writer.mk o.enforce ⟨w.scope.prefixes, (NamePart.ofOption w.scope.inherited).value?⟩ []
      w.next).walk out (Node.eventsOfAll ns) = _
    rw [NamePart.value?_ofOption hi, ← he]
  obtain ⟨hp, hwarn⟩ := w.walk_eventsOfAll out ns
  rw [← hq] at hp hwarn
  have hp : p = q.mapWriter w.within := hp
  have hnext : p.writer.next = q.writer.next := by rw [hp]; rfl
  refine ⟨by rw [hp]; rfl, by rw [hp]; rfl, hnext, by rw [hp]; exact hwarn, hwarn, fun hf => ?_⟩
  rw [← hnext]
  exact Writer.walk_eventsOfAll_writer hf

end Session

end XmlWriter
