import XmlWriter.Proofs.Writer.Session

/-!
# Recorded prefixes are declared

The prefix map of an open element is a history that is kept apart from what is written: declarations
are recorded in one pass over the attributes and written in another, and prefixes are also recorded
where the name is found and where one is generated. With checks enforced the two agree:
`Session.bound_of_recorded` says that every prefix the map of an open element holds was in the map
that the run started from or is declared in the start tag of that element or of one around it, so
that every prefix of a name that is written has a declaration for its namespace.
-/

namespace XmlWriter

/-- Whether a prefix is bound to a namespace, or to none, in a prefix map or by one of some tags. -/
def Bound (m : PrefixMap) (tags : List StartTag) (space : Option Text) (pre : Text) : Prop :=
  ⟨space, pre⟩ ∈ m.bindings ∨ ∃ t ∈ tags, t.Declares pre space

section
variable {m : PrefixMap} {tags : List StartTag} {space : Option Text} {pre : Text}

/-- A prefix bound by some tags is bound by more of them. -/
theorem Bound.cons (h : Bound m tags space pre) (t : StartTag) : Bound m (t :: tags) space pre :=
  h.imp_right fun ⟨t', ht, hd⟩ => ⟨t', .tail _ ht, hd⟩

/-- A prefix is bound by the innermost tag that declares it. -/
theorem Bound.head {t : StartTag} (h : t.Declares pre space) : Bound m (t :: tags) space pre :=
  .inr ⟨t, .head _, h⟩

end

section
variable {m : PrefixMap} {root scope : Scope} {P : List Attribute → Prop} {stack : OpenElements}
  {tags : List StartTag} {name : Name} {attributes : List Attribute} {childless : Bool}
  {n n' : Counter} {ps : List Piece} {e : OpenElement} {b : Binding}

/-- If the prefixes of a scope are bound, so are those inside a start tag written in it. -/
theorem OpenElement.Started.bound
    (h : Started true scope name attributes childless n ps e n')
    (hb : ∀ b ∈ scope.prefixes.bindings, Bound m tags b.space b.pre)
    (hm : b ∈ e.scope.prefixes.bindings) :
    Bound m (.ofPieces ps :: tags) b.space b.pre := by
  rcases h.mem_bindings hm with hm | hd
  · exact (hb b hm).cons _
  · exact .head hd

/-- The prefixes recorded inside the innermost element are bound around it or in its tag. -/
theorem Opened.bound (h : Opened true root P stack tags)
    (hm : b ∈ (stack.scope root).prefixes.bindings) : Bound root.prefixes tags b.space b.pre := by
  induction h generalizing b with
  | nil => exact .inl hm
  | cons _ _ hs ih => exact hs.bound (fun _ hb => ih hb) hm

/-- The prefix of an element is bound, but for `xml`. -/
theorem OpenElement.Started.bound_name {pre : Text}
    (h : Started true scope name attributes childless n ps e n')
    (hb : ∀ b ∈ scope.prefixes.bindings, Bound m tags b.space b.pre)
    (hp : e.name.pre = some pre) :
    Bound m (.ofPieces ps :: tags) name.space pre ∨
      pre = xmlPrefix ∧ name.space = some xmlNamespace := by
  rw [← h.name_ofPieces] at hp
  exact (h.mem_bindings_of_pre hp).imp_left fun hm => h.bound hb hm

end

namespace Session

variable {ω : Type} [Outlet ω]

/-- With checks enforced, a start that does not fail writes its tag in a scope where only prefixes
are recorded that are bound in the map that the run started from or in the tags around it. -/
theorem started_of_start (o : Options) (ho : o.enforce = true) (out : ω) (es : List Event)
    (name : Name) (attributes : List Attribute) (childless : Bool) :
    let s := (start o out).run es
    (s.writer.perform s.out (.start name attributes childless)).failure = none →
      ∃ qs e n, OpenElement.Started true s.writer.scope name attributes childless s.writer.next qs e
          n ∧
        StartTag.ofPieces (Event.pieces s.writer (.start name attributes childless)) =
          .ofPieces qs ∧
        ∀ b ∈ s.writer.scope.prefixes.bindings, Bound o.prefixes s.tags b.space b.pre := by
  intro s hf
  obtain ⟨h, he, -⟩ := opened_run_any o out es
  obtain ⟨qs, e, n, hs, hq, -⟩ := started_of_perform hf
  rw [he, ho] at hs
  rw [ho] at h
  exact ⟨qs, e, n, hs, (congrArg StartTag.ofPieces hq).trans (StartTag.ofPieces_tagEnd qs),
    fun b hb => h.bound (scope_run o out es ▸ hb)⟩

/-- The prefixes that the map of an open element holds are bound in the map that the run started
from or in the start tag of that element or of one around it, and the names that a start writes have
prefixes that are bound to their namespaces. Only `xml` may be written on an element without being
bound so. -/
theorem bound_of_recorded (o : Options) (ho : o.enforce = true) (out : ω) (es : List Event) :
    let s := (start o out).run es
    (∀ k e, s.writer.stack[k]? = some e → ∀ b ∈ e.scope.prefixes.bindings,
      Bound o.prefixes (s.tags.drop k) b.space b.pre) ∧
    ∀ name attributes childless,
      (s.writer.perform s.out (.start name attributes childless)).failure = none →
      ∃ q own body,
        let ps := Piece.head q own :: (body ++ OpenElement.slash name childless)
        let tags := StartTag.ofPieces ps :: s.tags
        Event.pieces s.writer (.start name attributes childless) = ps ++ [.tagEnd] ∧
        (∀ pre, q.pre = some pre → Bound o.prefixes tags name.space pre ∨
          pre = xmlPrefix ∧ name.space = some xmlNamespace) ∧
        Attribute.Spelled (fun a pre => a.name.space = none ∧ pre = none ∨
          ∃ v p, a.name.space = some v ∧ pre = some p ∧ Bound o.prefixes tags (some v) p)
          attributes body := by
  intro s
  obtain ⟨h, he, hr⟩ := opened_run_any o out es
  rw [ho] at h
  refine ⟨fun k e hk b hb => ?_, fun name attributes childless hf => ?_⟩
  · exact (h.of_getElem? hk).bound hb
  · obtain ⟨qs, e, n, hs, hp, -⟩ := started_of_perform hf
    rw [he, hr, ho] at hs
    have hb : ∀ b ∈ (s.writer.stack.scope ⟨o.prefixes, o.context.value?⟩).prefixes.bindings,
        Bound o.prefixes s.tags b.space b.pre := fun b hb => h.bound hb
    have hs' := hs
    cases hs with
    | @mk r m n₁ n₂ body hl hr ha =>
      refine ⟨r.name, r.own, body, hp, fun _ hq => hs'.bound_name hb hq, ha.spelled.mono ?_⟩
      rintro a pre - ⟨hr | ⟨v, p, hv, rfl, hm⟩, -⟩
      · exact .inl hr
      · exact .inr ⟨v, p, hv, rfl, hs'.bound hb hm⟩

/-- A prefix that is declared again, after a refused character, stays bound to both namespaces. -/
theorem bound_of_recorded_twice :
    let name := fun (l v : String) => (⟨Text.ofString l, .given (Text.ofString "p"),
      .given (Text.ofString v)⟩ : Name)
    let s := (start {} TextBuffer.empty).run
      [.start (name "a" "urn:x") [] false, .text [0], .start (name "b" "urn:y") [] false]
    s.tags.length = 2 ∧ ∀ k e, s.writer.stack[k]? = some e → ∀ b ∈ e.scope.prefixes.bindings,
      Bound .standard (s.tags.drop k) b.space b.pre :=
  ⟨by decide +kernel, (bound_of_recorded {} rfl TextBuffer.empty _).1⟩

end Session

end XmlWriter
