import XmlWriter.Proofs.Tag.Distinct
import XmlWriter.Proofs.Tag.Legal
import XmlWriter.Proofs.Writer.Recorded

/-!
# The XML namespace

The prefix `xml` is bound to its namespace from the beginning and needs no declaration. A run that
starts from the standard prefixes records no other prefix for that namespace, in whatever place
prefixes are recorded (`Opened.hasXml`), so that names in it are always written with `xml`, and the
writer declares it nowhere. There is one way all the same in which a tag can declare it: an
attribute that is meant as an ordinary one is read as a declaration if it is written with the prefix
`xmlns`, which can be recorded like any other (`Session.declares_xml_of_xmlns`). Main statement:
`Session.xml_of_run`.
-/

namespace XmlWriter

/-! ## The prefixes of the XML namespace -/

namespace PrefixMap

/-- Whether `xml` is the one prefix recorded for its namespace. -/
def HasXml (m : PrefixMap) : Prop := m.candidates (some xmlNamespace) = [xmlPrefix]

section
variable {m : PrefixMap}

/-- In the standard map the prefix `xml` is recorded for its namespace. -/
theorem hasXml_standard : standard.HasXml := rfl

/-- The only prefix bound to the XML namespace is `xml`. -/
theorem HasXml.mem_iff (h : m.HasXml) {pre : Text} :
    ⟨some xmlNamespace, pre⟩ ∈ m.bindings ↔ pre = xmlPrefix := by
  rw [← mem_candidates_iff, h, List.mem_singleton]

/-- The binding of `xml` is among those of the map. -/
theorem HasXml.mem (h : m.HasXml) : ⟨some xmlNamespace, xmlPrefix⟩ ∈ m.bindings := h.mem_iff.2 rfl

/-- Names in the XML namespace have the prefix `xml`, whatever they wish for. -/
theorem HasXml.preferred? (h : m.HasXml) (wish : Option Text) :
    m.preferred? (some xmlNamespace) wish = some xmlPrefix := by
  cases hp : m.preferred? (some xmlNamespace) wish with
  | none =>
    rw [HasXml, preferred?_eq_none_iff.1 hp] at h
    cases h
  | some p => rw [h.mem_iff.1 (mem_candidates_iff.1 (mem_candidates_of_preferred? hp))]

/-- A prefix recorded for another namespace makes no difference. -/
theorem HasXml.add (h : m.HasXml) {space : Option Text} (hs : space ≠ some xmlNamespace)
    (pre : Text) : (m.add space pre).HasXml := by
  rw [HasXml, candidates_add, if_neg hs, List.append_nil]
  exact h

end

end PrefixMap

/-! ## No other prefix is recorded -/

section
variable {enforce : Bool} {d : Declarations} {inherited : Option Text} {name : Name} {n t : Counter}
  {r : Resolution} {m : PrefixMap}

/-- Declarations of the XML namespace are passed over. -/
theorem Declarations.hasXml_collect (h : m.HasXml) (as : List Attribute) :
    (collect m as).prefixes.HasXml := by
  refine List.foldlRecOn (motive := fun d : Declarations => d.prefixes.HasXml)
    as collectOne h ?_
  intro d ih a _
  rcases collectOne_cases d a with ⟨-, he⟩ | ⟨-, hx, he⟩ | ⟨-, he⟩
  · rw [he]
    exact ih
  · rw [he]
    exact ih.add (fun hs => hx (namespaceOf_eq_some_iff.1 hs).1) _
  · rw [he]
    exact ih

/-- A prefix is recorded for an element only if there was none for its namespace. -/
theorem Resolution.Way.hasXml (h : Way enforce d inherited name n r t) (hd : d.prefixes.HasXml) :
    r.prefixes.HasXml := by
  cases h with
  | inPlace | recorded | ownDefault | default => exact hd
  | declared _ _ hc | generated _ _ hc => exact hd.add (space_ne_xmlNamespace hd.mem hc) _

/-- An element in the XML namespace is written with `xml`. -/
theorem Resolution.Way.name_of_xml (h : Way true d inherited name n r t) (hd : d.prefixes.HasXml)
    (hs : name.space = some xmlNamespace) : r.name = ⟨some xmlPrefix, name.localPart⟩ := by
  cases h with
  | inPlace hi => simp [Resolution.inPlace, hi, hs]
  | recorded _ hx hc =>
    rw [hs, candidate?, if_neg (hx rfl), hd.preferred?] at hc
    cases hc
    rfl
  | declared _ _ hc | generated _ _ hc | ownDefault _ hc | default _ hc =>
    exact absurd hs (space_ne_xmlNamespace hd.mem hc)

/-- The declaration that a tag adds for its element is not of the XML namespace. -/
theorem Resolution.Way.own_ne_xml {o : NsDecl} (h : Way enforce d inherited name n r t)
    (hd : d.prefixes.HasXml) (ho : r.own = some o) : o.value ≠ xmlNamespace := by
  cases h with
  | inPlace | recorded | ownDefault => cases ho
  | declared _ _ hc | generated _ _ hc | default _ hc =>
    cases ho
    exact Name.getD_space_ne (space_ne_xmlNamespace hd.mem hc) (by decide)

end

namespace Attribute

/-- Whether an attribute is taken for a declaration of the XML namespace in a tag that leaves the
prefix map `m`, although it is meant as an ordinary one. -/
def PassesForXml (m : PrefixMap) (a : Attribute) : Prop :=
  a.isDeclaration = false ∧ a.value = xmlNamespace ∧ (a.writtenName m).pre = some xmlnsPrefix

section
variable {c : TagContext} {seen : List (Option Text × Text)} {m m' : PrefixMap} {n n' : Counter}
  {a : Attribute} {as : List Attribute} {ps : List Piece} {d : NsDecl}

/-- A prefix is made up only for a namespace that has none. -/
theorem Written.hasXml (h : a.Written c m n ps m' n') (hm : m.HasXml) : m'.HasXml := by
  cases h with
  | leftOut | declaration | plain | recorded => exact hm
  | generated _ _ hp =>
    refine hm.add (fun hs => ?_) _
    rw [hs, hm.preferred?] at hp
    cases hp

/-- Writing attributes records no further prefix for the XML namespace. -/
theorem WrittenAll.hasXml (h : WrittenAll c seen m n as ps m' n') (hm : m.HasXml) : m'.HasXml := by
  induction h with
  | nil => exact hm
  | cons _ ha _ ih => exact ih (ha.hasXml hm)

/-- Where a tag shows a declaration of the XML namespace for its attributes, an ordinary one is
taken for it. -/
theorem Shows.passesForXml (h : Shows c m m' as (d.name, d.value)) (he : c.enforce = true)
    (hm : m.HasXml) (hv : d.value = xmlNamespace) : ∃ a ∈ as, a.PassesForXml m' := by
  generalize hx : (d.name, d.value) = x at h
  have hvalue : x.2 = xmlNamespace := hx ▸ hv
  have hread : NsDecl.ofAttribute? x = some d := NsDecl.ofAttribute?_eq_some_iff.2 hx.symm
  cases h with
  | @declaration a _ _ hl =>
    obtain ⟨m₁, -, hl⟩ := hl
    have ha : a.value = xmlNamespace := hvalue
    simp [isLeftOut, ha] at hl
  | @generated _ s _ _ _ _ hn =>
    have hs : s = xmlNamespace := hvalue
    exact absurd hm.mem (hs ▸ hn xmlPrefix)
  | @ordinary a pre ha hd hw hr hc =>
    rw [he] at hc
    refine ⟨a, ha, hd, hvalue, ?_⟩
    rw [hw]
    by_contra hp
    rw [hc.ofAttribute?_eq_none ?_ hp] at hread
    · cases hread
    · rintro rfl
      rcases hr with ⟨hs, -⟩ | ⟨_, _, -, hp, -⟩
      · exact hs
      · cases hp

/-- An attribute that is taken for a declaration of the XML namespace is shown as one. -/
theorem WrittenAll.exists_of_passesForXml (h : WrittenAll c seen m n as ps m' n') (ha : a ∈ as)
    (hp : a.PassesForXml m') :
    ((⟨some a.name.localPart, xmlNamespace⟩ : NsDecl).name, xmlNamespace) ∈
      ps.flatMap Piece.shown := by
  obtain ⟨hd, hv, hx⟩ := hp
  have hname : a.writtenName m' = (⟨some a.name.localPart, xmlNamespace⟩ : NsDecl).name := by
    rw [NsDecl.name, ← hx]
    rfl
  rw [← hname, ← hv]
  refine h.ordinary_sublist.subset (List.mem_map.2 ⟨a, List.mem_filter.2 ⟨ha, by simp [hd]⟩, rfl⟩)

/-- The prefix `xmlns` of an ordinary attribute has been recorded for its namespace. -/
theorem PassesForXml.mem_bindings (h : a.PassesForXml m) :
    ∃ s, ⟨some s, xmlnsPrefix⟩ ∈ m.bindings := by
  obtain ⟨hd, -, hp⟩ := h
  simp only [writtenName, hd, Bool.false_eq_true, if_false] at hp
  obtain ⟨s, -, hs⟩ := Option.bind_eq_some_iff.1 hp
  exact ⟨s, PrefixMap.mem_candidates_iff.1 (PrefixMap.mem_candidates_of_preferred? hs)⟩

end

end Attribute

/-! ## Start tags -/

section
variable {enforce : Bool} {scope root : Scope} {name : Name} {attributes : List Attribute}
  {childless : Bool} {n n' : Counter} {ps : List Piece} {e : OpenElement}
  {P : List Attribute → Prop} {stack : OpenElements} {tags : List StartTag}

/-- The content of an element finds only `xml` recorded for its namespace. -/
theorem OpenElement.Started.hasXml
    (h : Started enforce scope name attributes childless n ps e n') (hs : scope.prefixes.HasXml) :
    e.scope.prefixes.HasXml := by
  cases h with
  | mk _ hr ha => exact ha.hasXml (hr.hasXml (Declarations.hasXml_collect hs _))

/-- With checks enforced a start tag declares the XML namespace exactly if one of its ordinary
attributes is taken for a declaration of it. -/
theorem OpenElement.Started.declares_xml_iff
    (h : Started true scope name attributes childless n ps e n') (hs : scope.prefixes.HasXml) :
    (∃ d ∈ (StartTag.ofPieces ps).declarations, d.value = xmlNamespace) ↔
      ∃ a ∈ attributes, a.PassesForXml e.scope.prefixes := by
  cases h with
  | mk _ hr ha =>
    have hd := Declarations.hasXml_collect hs attributes
    rw [StartTag.declarations_start ha.spelled]
    constructor
    · rintro ⟨d, hm, hv⟩
      rcases List.mem_append.1 hm with hm | hm
      · exact absurd hv (hr.own_ne_xml hd (Option.mem_toList.1 hm))
      · obtain ⟨x, hx, hxd⟩ := List.mem_filterMap.1 hm
        rw [NsDecl.ofAttribute?_eq_some_iff.1 hxd] at hx
        exact (ha.shows hx).passesForXml rfl (hr.hasXml hd) hv
    · rintro ⟨a, hm, hp⟩
      have hx := ha.exists_of_passesForXml hm hp
      refine ⟨⟨some a.name.localPart, xmlNamespace⟩, List.mem_append_right _ ?_, rfl⟩
      exact List.mem_filterMap.2 ⟨_, hx, NsDecl.ofAttribute?_name _⟩

/-- That takes a declaration of the prefix `xmlns`, in the tag or in one around it. -/
theorem OpenElement.Started.exists_xmlns_of_declares_xml
    (h : Started true scope name attributes childless n ps e n') (hs : scope.prefixes.HasXml)
    (hb : ∀ b ∈ scope.prefixes.bindings, Bound .standard tags b.space b.pre)
    (hx : ∃ d ∈ (StartTag.ofPieces ps).declarations, d.value = xmlNamespace) :
    ∃ t ∈ .ofPieces ps :: tags, ∃ d ∈ t.declarations, d.pre = some xmlnsPrefix := by
  obtain ⟨a, -, ha⟩ := (h.declares_xml_iff hs).1 hx
  obtain ⟨v, hv⟩ := ha.mem_bindings
  have hne : xmlnsPrefix ≠ xmlPrefix := by decide
  rcases h.bound hb hv with hm | ⟨t, ht, hd⟩
  · exact absurd (PrefixMap.mem_standard_iff.1 hm).2 hne
  · exact ⟨t, ht, _, hd, rfl⟩

/-- If only `xml` is recorded for its namespace around the outermost element, it is so inside the
innermost one. -/
theorem Opened.hasXml_scope (h : Opened enforce root P stack tags) (hr : root.prefixes.HasXml) :
    (stack.scope root).prefixes.HasXml := by
  induction h with
  | nil => exact hr
  | cons _ _ hs ih => exact hs.hasXml ih

/-- So it is inside each open element. -/
theorem Opened.hasXml (h : Opened enforce root P stack tags) (hr : root.prefixes.HasXml) :
    ∀ e ∈ stack, e.scope.prefixes.HasXml := by
  induction h with
  | nil => simp
  | cons h _ hs ih => exact List.forall_mem_cons.2 ⟨hs.hasXml (h.hasXml_scope hr), ih⟩

end

namespace Session

variable {ω : Type} [Outlet ω]

/-- In any state of a run with the standard prefixes and with checks enforced, the outermost scope
and those of all open elements have `xml` as the one prefix for its namespace. When a start does not
fail, an element in that namespace and each of the attributes in it are written with `xml`, and the
tag declares the namespace exactly if an ordinary attribute is written with the prefix `xmlns`; that
takes a declaration of this prefix, in the tag or in one around it. -/
theorem xml_of_run (o : Options) (ho : o.enforce = true) (hp : o.prefixes = .standard) (out : ω)
    (es : List Event) :
    let s := (start o out).run es
    (∀ scope ∈ s.writer.root :: s.writer.stack.map (·.scope),
      scope.prefixes.candidates (some xmlNamespace) = [xmlPrefix]) ∧
    ∀ name attributes childless,
      let p := s.writer.perform s.out (.start name attributes childless)
      p.failure = none →
      ∃ q own body,
        let ps := Piece.head q own :: (body ++ OpenElement.slash name childless)
        let t := StartTag.ofPieces ps
        Event.pieces s.writer (.start name attributes childless) = ps ++ [.tagEnd] ∧
        (name.space = some xmlNamespace → q = ⟨some xmlPrefix, name.localPart⟩) ∧
        Attribute.Spelled (fun a pre => a.name.space = some xmlNamespace → pre = some xmlPrefix)
          attributes body ∧
        ((∃ d ∈ t.declarations, d.value = xmlNamespace) ↔
          ∃ a ∈ attributes, a.PassesForXml p.writer.scope.prefixes) ∧
        ((∃ d ∈ t.declarations, d.value = xmlNamespace) →
          ∃ t' ∈ t :: s.tags, ∃ d ∈ t'.declarations, d.pre = some xmlnsPrefix) := by
  intro s
  obtain ⟨h, he, hr⟩ := opened_run_any o out es
  rw [ho] at he h
  rw [hp] at h hr
  have hroot : s.writer.root.prefixes.HasXml := hr ▸ PrefixMap.hasXml_standard
  have hstack := h.hasXml PrefixMap.hasXml_standard
  refine ⟨List.forall_mem_cons.2 ⟨hroot, List.forall_mem_map.2 hstack⟩, ?_⟩
  intro name attributes childless p hf
  obtain ⟨qs, e, n, hs, hpieces, hw⟩ := started_of_perform hf
  rw [he, hr] at hs
  have hscope := h.hasXml_scope PrefixMap.hasXml_standard
  have hprefixes : p.writer.scope.prefixes = e.scope.prefixes := congrArg (·.scope.prefixes) hw
  have hiff := hprefixes ▸ hs.declares_xml_iff hscope
  have hxmlns := hs.exists_xmlns_of_declares_xml hscope fun b hb => h.bound hb
  have hinside := hs.hasXml hscope
  cases hs with
  | @mk r m _ _ body _ hway ha =>
    refine ⟨r.name, r.own, body, hpieces, ?_, ha.spelled.mono ?_, hiff, hxmlns⟩
    · exact hway.name_of_xml (Declarations.hasXml_collect hscope _)
    · rintro a pre - ⟨⟨hnone, -⟩ | ⟨v, p, hv, rfl, hm⟩, -⟩ hx
      · rw [hnone] at hx
        cases hx
      · rw [hv, Option.some.injEq] at hx
        exact congrArg some (hinside.mem_iff.1 (hx ▸ hm))

/-- Inside an element that declares another prefix for the XML namespace, which is left out, an
element and an attribute that wish for that prefix are written with `xml`. -/
theorem xml_of_run_wished :
    let x := NamePart.given xmlNamespace
    let q := NamePart.given (Text.ofString "q")
    let declared : Name := ⟨Text.ofString "q", .given xmlnsPrefix, .given xmlnsNamespace⟩
    let name : Name := ⟨Text.ofString "b", q, x⟩
    let lang : Attribute := ⟨⟨Text.ofString "lang", q, x⟩, []⟩
    let s := (start {} TextBuffer.empty).run
      [.start ⟨Text.ofString "a", .absent, .absent⟩ [⟨declared, xmlNamespace⟩] false]
    let p := s.writer.perform s.out (.start name [lang] true)
    p.failure = none ∧ p.out.text = Text.ofString "<a><xml:b xml:lang=\"\"/>" ∧
      ∃ own body, Event.pieces s.writer (.start name [lang] true) =
          .head ⟨some xmlPrefix, name.localPart⟩ own :: (body ++ OpenElement.slash name true) ++
            [.tagEnd] ∧
        Attribute.Spelled (fun a pre => a.name.space = some xmlNamespace → pre = some xmlPrefix)
          [lang] body := by
  intro x q declared name lang s p
  have hf : p.failure = none := by decide +kernel
  obtain ⟨_, own, body, hps, hq, hbody, -⟩ :=
    (xml_of_run {} rfl rfl TextBuffer.empty _).2 name [lang] true hf
  refine ⟨hf, by decide +kernel, own, body, ?_, hbody⟩
  rw [← hq rfl]
  exact hps

/-- The XML namespace can be declared all the same: the prefix `xmlns` is not refused in a
declaration, and an attribute with the prefix is read as one. -/
theorem declares_xml_of_xmlns :
    let declared : Name := ⟨xmlnsPrefix, .given xmlnsPrefix, .given xmlnsNamespace⟩
    let k : Name := ⟨Text.ofString "p", .absent, .given (Text.ofString "urn:x")⟩
    let e := Event.start ⟨Text.ofString "e", .absent, .absent⟩
      [⟨declared, Text.ofString "urn:x"⟩, ⟨k, xmlNamespace⟩] true
    let s := start {} TextBuffer.empty
    (s.writer.perform s.out e).failure = none ∧
      ⟨some (Text.ofString "p"), xmlNamespace⟩ ∈
        (StartTag.ofPieces (e.pieces s.writer)).declarations := by
  decide +kernel

end Session

end XmlWriter
