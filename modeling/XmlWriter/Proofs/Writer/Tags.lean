import XmlWriter.Proofs.Tag.Distinct
import XmlWriter.Proofs.Tag.Legal
import XmlWriter.Proofs.Tag.Names
import XmlWriter.Proofs.Writer.Recorded

/-!
# What can be wrong with a start tag

With checks enforced a start that does not fail may still write a tag that no reader should accept.
`Session.nodup_names_of_start` says when a name is repeated in it, `Session.isLegal_iff_of_start`
when it declares what must not be declared, and `Session.hasQNames_iff_of_start` when a name in it
is no qualified name. All three do occur (`Session.not_nodup_of_redeclared`,
`Session.not_isLegal_of_prefixed`, `Session.not_hasQNames_of_wished`).
-/

namespace XmlWriter

/-- The prefixes that a run starts from stay recorded inside all open elements. -/
theorem Opened.bindings_subset {enforce : Bool} {root : Scope} {P : List Attribute → Prop}
    {stack : OpenElements} {tags : List StartTag} (h : Opened enforce root P stack tags) :
    root.prefixes.bindings ⊆ (stack.scope root).prefixes.bindings := by
  induction h with
  | nil => exact fun _ hb => hb
  | cons _ _ hs ih => exact fun _ hb => hs.bindings_subset (ih hb)

/-- What is bound by tags that are legal, or is bound from the beginning, may be bound. -/
theorem Bound.isLegal {tags : List StartTag} {b : Binding} (h : Bound .standard tags b.space b.pre)
    (ht : ∀ t ∈ tags, t.IsLegal) : b.IsLegal := by
  rcases h with h | ⟨t, hm, hd⟩
  · obtain ⟨hs, hpre⟩ := PrefixMap.mem_standard_iff.1 h
    rw [Binding.IsLegal, hs, hpre]
    decide
  · exact (ht t hm).1 _ hd

/-- What is bound by tags that have qualified names, or is bound from the beginning, is an NCName.
-/
theorem Bound.isNCName {tags : List StartTag} {space : Option Text} {pre : Text}
    (h : Bound .standard tags space pre) (ht : ∀ t ∈ tags, t.HasQNames) : IsNCName pre := by
  rcases h with h | ⟨t, hm, hd⟩
  · obtain ⟨-, rfl⟩ := PrefixMap.mem_standard_iff.1 h
    decide
  · exact (ht t hm).isNCName hd rfl

namespace Session

variable {ω : Type} [Outlet ω]

/-- In any state of a run, if a start does not fail, a name is repeated in its tag for one of three
reasons only: a prefix is generated that the tag declares for another value as well, the prefix map
has one prefix for the different namespaces of two attributes with the same local part, or an
attribute can be taken for what it is not, since it is a default declaration of another name or has
a prefix like that of a declaration. In the first two cases a name is repeated. -/
theorem nodup_names_of_start (o : Options) (ho : o.enforce = true) (out : ω) (es : List Event)
    (name : Name) (attributes : List Attribute) (childless : Bool) :
    let s := (start o out).run es
    let p := s.writer.perform s.out (.start name attributes childless)
    let t := StartTag.ofPieces (Event.pieces s.writer (.start name attributes childless))
    let m := p.writer.scope.prefixes
    p.failure = none →
      (¬ t.names.Nodup → t.DeclaresTwice ∨ Attribute.SharesName m attributes ∨
        ∃ a ∈ attributes, ¬ a.DulyNamed m) ∧
      (t.DeclaresTwice ∨ Attribute.SharesName m attributes → ¬ t.names.Nodup) := by
  intro s p t m hf
  obtain ⟨-, he, -⟩ := opened_run_any o out es
  obtain ⟨qs, e, n, hs, hp, hw⟩ := started_of_perform hf
  rw [he, ho] at hs
  have ht : t = .ofPieces qs := (congrArg StartTag.ofPieces hp).trans (StartTag.ofPieces_tagEnd qs)
  have hm : m = e.scope.prefixes := congrArg (·.scope.prefixes) hw
  rw [ht, hm]
  constructor
  · intro hn
    by_contra hc
    simp only [not_or, not_exists, not_and, not_not] at hc
    exact hn (hs.nodup_names hc.1 hc.2.1 hc.2.2)
  · rintro (hd | hd)
    · exact StartTag.not_nodup_of_declaresTwice hd
    · exact hs.not_nodup_of_sharesName hd

/-- An attribute whose prefix is generated, beside a declaration of another prefix. -/
theorem nodup_names_of_start_made_up :
    let name : Name := ⟨Text.ofString "e", .absent, .absent⟩
    let declared : Name := ⟨Text.ofString "p", .given xmlnsPrefix, .given xmlnsNamespace⟩
    let k : Name := ⟨Text.ofString "k", .absent, .given (Text.ofString "urn:y")⟩
    let as : List Attribute := [⟨declared, Text.ofString "urn:x"⟩, ⟨k, Text.ofString "1"⟩]
    let s := (start {} TextBuffer.empty).run [.start name [] false]
    let p := s.writer.perform s.out (.start name as true)
    let t := StartTag.ofPieces (Event.pieces s.writer (.start name as true))
    p.failure = none ∧ (¬ t.names.Nodup → t.DeclaresTwice ∨
      Attribute.SharesName p.writer.scope.prefixes as ∨
        ∃ a ∈ as, ¬ a.DulyNamed p.writer.scope.prefixes) := by
  intro name declared k as s p t
  have hf : p.failure = none := by decide +kernel
  exact ⟨hf, (nodup_names_of_start {} rfl TextBuffer.empty _ name as true hf).1⟩

/-- A name can be repeated: the prefix that is generated for an attribute is one that the tag
declares for another namespace. -/
theorem not_nodup_of_redeclared :
    let declared : Name := ⟨Text.ofString "ns1", .given xmlnsPrefix, .given xmlnsNamespace⟩
    let k : Name := ⟨Text.ofString "k", .absent, .given (Text.ofString "urn:y")⟩
    let e := Event.start ⟨Text.ofString "e", .absent, .absent⟩
      [⟨declared, Text.ofString "urn:x"⟩, ⟨k, Text.ofString "1"⟩] true
    let s := start {} TextBuffer.empty
    (s.writer.perform s.out e).failure = none ∧
      ¬ (StartTag.ofPieces (e.pieces s.writer)).names.Nodup := by
  decide +kernel

/-- In any state of a run with the standard prefixes, if a start does not fail, its tag and those
around it declare nothing that is not allowed exactly if that is so of those around it, the element
needs no such declaration and none is among its attributes. -/
theorem isLegal_iff_of_start (o : Options) (ho : o.enforce = true) (hp : o.prefixes = .standard)
    (out : ω) (es : List Event) (name : Name) (attributes : List Attribute) (childless : Bool) :
    let s := (start o out).run es
    let t := StartTag.ofPieces (Event.pieces s.writer (.start name attributes childless))
    (s.writer.perform s.out (.start name attributes childless)).failure = none →
      ((∀ t' ∈ t :: s.tags, t'.IsLegal) ↔
        (∀ t' ∈ s.tags, t'.IsLegal) ∧
          name.Declarable s.writer.scope.inherited
            (Declarations.collect s.writer.scope.prefixes attributes).prefixes ∧
          ∀ a ∈ attributes, a.SparesReserved) := by
  intro s t hf
  obtain ⟨h, he, -⟩ := opened_run_any o out es
  obtain ⟨qs, e, n, hs, hq, -⟩ := started_of_perform hf
  rw [he, ho] at hs
  rw [ho, hp] at h
  have ht : t = .ofPieces qs := (congrArg StartTag.ofPieces hq).trans (StartTag.ofPieces_tagEnd qs)
  have hsc : s.writer.scope = s.writer.stack.scope ⟨.standard, o.context.value?⟩ :=
    hp ▸ scope_run o out es
  have hx : ⟨some xmlNamespace, xmlPrefix⟩ ∈ s.writer.scope.prefixes.bindings :=
    hsc ▸ h.bindings_subset (PrefixMap.mem_bindings_add _ _ _)
  rw [List.forall_mem_cons, and_comm, and_congr_right_iff]
  intro hl
  rw [ht]
  exact hs.isLegal_iff hx fun b hb => (h.bound (hsc ▸ hb)).isLegal hl

/-- An element with a prefix of its own and a declaration of another one. -/
theorem isLegal_iff_of_start_declared :
    let a : Name := ⟨Text.ofString "a", .absent, .given (Text.ofString "urn:d")⟩
    let b : Name := ⟨Text.ofString "b", .given (Text.ofString "p"), .given (Text.ofString "urn:x")⟩
    let declared : Name := ⟨Text.ofString "q", .given xmlnsPrefix, .given xmlnsNamespace⟩
    let as : List Attribute := [⟨declared, Text.ofString "urn:y"⟩]
    let s := (start {} TextBuffer.empty).run [.start a [] false]
    let t := StartTag.ofPieces (Event.pieces s.writer (.start b as true))
    (s.writer.perform s.out (.start b as true)).failure = none ∧
      ((∀ t' ∈ t :: s.tags, t'.IsLegal) ↔
        (∀ t' ∈ s.tags, t'.IsLegal) ∧
          b.Declarable s.writer.scope.inherited
            (Declarations.collect s.writer.scope.prefixes as).prefixes ∧
          ∀ a ∈ as, a.SparesReserved) := by
  intro a b declared as s t
  have hf : (s.writer.perform s.out (.start b as true)).failure = none := by decide +kernel
  exact ⟨hf, isLegal_iff_of_start {} rfl rfl TextBuffer.empty _ b as true hf⟩

/-- A prefix can be declared for no namespace: an element that wishes for one is given it even if it
is in no namespace, where the namespace that it inherits is another. -/
theorem not_isLegal_of_prefixed :
    let a : Name := ⟨Text.ofString "a", .absent, .given (Text.ofString "urn:d")⟩
    let b : Name := ⟨Text.ofString "b", .given (Text.ofString "p"), .absent⟩
    let s := (start {} TextBuffer.empty).run [.start a [] false]
    let e := Event.start b [] true
    (s.writer.perform s.out e).failure = none ∧
      ⟨some (Text.ofString "p"), []⟩ ∈ (StartTag.ofPieces (e.pieces s.writer)).declarations := by
  decide +kernel

/-- In any state of a run with the standard prefixes, if a start does not fail, the names in its tag
and in those around it are qualified names exactly if that is so of those around it, the element can
be spelled, and no prefix is generated for it from a number that is too large to be written out. A
name that is a qualified name brings no mark or white space into the tag. -/
theorem hasQNames_iff_of_start (o : Options) (ho : o.enforce = true) (hp : o.prefixes = .standard)
    (out : ω) (es : List Event) (name : Name) (attributes : List Attribute) (childless : Bool) :
    let s := (start o out).run es
    let t := StartTag.ofPieces (Event.pieces s.writer (.start name attributes childless))
    (s.writer.perform s.out (.start name attributes childless)).failure = none →
      ((∀ t' ∈ t :: s.tags, t'.HasQNames) ↔
        (∀ t' ∈ s.tags, t'.HasQNames) ∧
          name.Spellable s.writer.scope.inherited
            (Declarations.collect s.writer.scope.prefixes attributes).prefixes ∧
          t.CountsPlainly) ∧
      (t.HasQNames → ∀ x ∈ t.name.text :: t.names, ∀ u ∈ delimiters, u ∉ x) := by
  intro s t hf
  obtain ⟨qs, e, n, hs, ht, hb⟩ := started_of_start o ho out es name attributes childless hf
  rw [hp] at hb
  refine ⟨?_, fun hn x hx u hu => hn.not_mem hx hu⟩
  rw [List.forall_mem_cons, and_comm, and_congr_right_iff]
  intro hl
  rw [show t = .ofPieces qs from ht]
  exact hs.hasQNames_iff fun b hm => (hb b hm).isNCName hl

/-- An element with a prefix of its own and an attribute that a prefix is generated for. -/
theorem hasQNames_iff_of_start_made_up :
    let a : Name := ⟨Text.ofString "a", .given (Text.ofString "p"), .given (Text.ofString "urn:x")⟩
    let k : Name := ⟨Text.ofString "k", .absent, .given (Text.ofString "urn:y")⟩
    let as : List Attribute := [⟨k, Text.ofString "1"⟩]
    let s := (start {} TextBuffer.empty).run [.start a [] false]
    let t := StartTag.ofPieces (Event.pieces s.writer (.start a as true))
    (s.writer.perform s.out (.start a as true)).failure = none ∧ t.HasQNames ∧
      ((∀ t' ∈ t :: s.tags, t'.HasQNames) ↔
        (∀ t' ∈ s.tags, t'.HasQNames) ∧
          a.Spellable s.writer.scope.inherited
            (Declarations.collect s.writer.scope.prefixes as).prefixes ∧
          t.CountsPlainly) := by
  intro a k as s t
  have hf : (s.writer.perform s.out (.start a as true)).failure = none := by decide +kernel
  exact ⟨hf, by decide +kernel,
    (hasQNames_iff_of_start {} rfl rfl TextBuffer.empty _ a as true hf).1⟩

/-- A name can fail to be a qualified name: the prefix that an element wishes for is written as it
is, with white space in it. -/
theorem not_hasQNames_of_wished :
    let e := Event.start ⟨Text.ofString "e", .given (Text.ofString "a b"),
      .given (Text.ofString "urn:x")⟩ [] true
    let s := start {} TextBuffer.empty
    (s.writer.perform s.out e).failure = none ∧
      ¬ (StartTag.ofPieces (e.pieces s.writer)).HasQNames := by
  decide +kernel

/-- So can a generated prefix, if the counter is too large to be written without an exponent. -/
example :
    let k : Name := ⟨Text.ofString "k", .absent, .given (Text.ofString "urn:y")⟩
    let e := Event.start ⟨Text.ofString "e", .absent, .absent⟩ [⟨k, []⟩] true
    let s := start { firstNumber := .ofInt 1000000000000000000000 } TextBuffer.empty
    (s.writer.perform s.out e).failure = none ∧
      ¬ (StartTag.ofPieces (e.pieces s.writer)).HasQNames := by
  decide +kernel

end Session

end XmlWriter
