import XmlWriter.Proofs.Writer.RoundTrip

/-!
# Documents with normalized line ends

The reader of `Source.read_of_render` takes line ends as they stand; a reader of whole documents
normalizes them first. Here is what that changes. Tags that can be read hold no carriage return, so
that line ends are normalized in character data, sections and comments only, and there the order
makes no difference: what is written for a text and then normalized is what is written for the
normalized text. So the text of some nodes, once normalized, is the text of the nodes of
`Node.normalizeAll` (`Node.WrittenAll.normalizeAll`), and it is read as these
(`Source.read_normalizeLineEnds_of_render`). They are the nodes themselves if there is no carriage
return in them (`Node.normalizeAll_eq_self`).
-/

namespace XmlWriter

/-! ## Content -/

namespace CharData

/-- A unit is not written as nothing. -/
theorem encode_cons_ne_nil (u : UInt16) (t : Text) : encode (u :: t) ≠ [] := by
  rw [encode, Reference.encode_cons]
  rcases Reader.encodeUnit_cases references u with ⟨r, -, -, he⟩ | ⟨-, he⟩
  · rw [he]
    cases r <;> exact List.cons_ne_nil _ _
  · rw [he]
    exact List.cons_ne_nil _ _

/-- Character data end with a carriage return exactly if their text does. -/
theorem getLast?_encode_eq_return_iff (t : Text) :
    (encode t).getLast? = some (Text.unit '\r') ↔ t.getLast? = some (Text.unit '\r') := by
  rcases List.eq_nil_or_concat t with rfl | ⟨s, u, rfl⟩
  · rfl
  · have hr : ∀ r ∈ references, r.unit ≠ Text.unit '\r' ∧
        r.text.getLast? = some (Text.unit ';') := by decide
    have hlast : encode (s ++ [u]) = encode s ++ Reference.encodeUnit references u := by
      simp [encode]
    rw [List.concat_eq_append, hlast, List.getLast?_append, List.getLast?_concat]
    rcases Reader.encodeUnit_cases references u with ⟨r, hm, rfl, he⟩ | ⟨-, he⟩
    · obtain ⟨hne, hsemi⟩ := hr r hm
      rw [he, hsemi, Option.some_or]
      exact iff_of_false (by decide) fun h => hne (Option.some.inj h)
    · rw [he]
      rfl

/-- Line ends are written as they stand, so that they may be normalized before or after, whatever
follows. -/
theorem normalizeBefore_encode (feed : Bool) (t : Text) :
    (encode t).normalizeBefore feed = encode (t.normalizeBefore feed) := by
  have hiff := getLast?_encode_eq_return_iff t
  unfold Text.normalizeBefore
  by_cases hc : feed = true ∧ t.getLast? = some (Text.unit '\r')
  · rw [if_pos hc, if_pos ⟨hc.1, hiff.2 hc.2⟩]
    obtain ⟨s, rfl⟩ := List.getLast?_eq_some_iff.1 hc.2
    have hlast : encode (s ++ [Text.unit '\r']) = encode s ++ [Text.unit '\r'] := by
      rw [encode, Reference.encode_append]
      rfl
    rw [hlast, List.dropLast_concat, List.dropLast_concat, normalizeLineEnds_encode]
  · rw [if_neg hc, if_neg fun h => hc ⟨h.1, hiff.1 h.2⟩, normalizeLineEnds_encode]

end CharData

namespace CDSect

/-- A text is cut after the brackets of an end mark that it begins with; else its first unit stands
at the beginning of the first section. -/
theorem sections_cons (u : UInt16) (t : Text) :
    (∃ rest, u = Text.unit ']' ∧ t = Text.unit ']' :: Text.unit '>' :: rest ∧
        sections (u :: t) =
          [Text.unit ']', Text.unit ']'] :: extend (Text.unit '>') (sections rest)) ∨
      ¬ closing <+: u :: t ∧ sections (u :: t) = extend u (sections t) := by
  match t with
  | [] | [_] => exact .inr ⟨fun h => absurd h.length_le (by simp [closing_eq]), rfl⟩
  | v :: w :: rest =>
    by_cases h : [u, v, w] = closing
    · rw [closing_eq] at h
      cases h
      exact .inl ⟨rest, rfl, rfl, rfl⟩
    · refine .inr ⟨fun hp => h ?_, by rw [sections, if_neg h]⟩
      exact (List.prefix_iff_eq_take.1 hp).symm

/-- Where no terminator begins, a unit goes to the first section of those behind it. -/
theorem sections_cons_eq_extend {u : UInt16} {t : Text} (h : ¬ closing <+: u :: t) :
    sections (u :: t) = extend u (sections t) := by
  rcases sections_cons u t with ⟨rest, rfl, rfl, -⟩ | ⟨-, hs⟩
  · exact absurd ⟨rest, rfl⟩ h
  · exact hs

/-- The first section begins as the text does. -/
theorem exists_sections_eq_cons (t : Text) :
    ∃ first rest, sections t = first :: rest ∧ first.head? = t.head? := by
  cases t with
  | nil => exact ⟨[], [], rfl, rfl⟩
  | cons u t =>
    rcases sections_cons u t with ⟨rest, rfl, rfl, hs⟩ | ⟨-, hs⟩
    · exact ⟨_, _, hs, rfl⟩
    · obtain ⟨first, rest, ht⟩ := List.exists_cons_of_ne_nil (sections_ne_nil t)
      exact ⟨u :: first, rest, by rw [hs, ht]; rfl, rfl⟩

/-- A unit other than a carriage return is put in front of sections before or after their line ends
are normalized. -/
theorem map_extend {u : UInt16} (hu : u ≠ Text.unit '\r') (ss : List Text) :
    (extend u ss).map Text.normalizeLineEnds = extend u (ss.map Text.normalizeLineEnds) := by
  cases ss with
  | nil => simp [extend, Text.normalizeLineEnds_cons hu]
  | cons s ss => simp [extend, Text.normalizeLineEnds_cons hu]

/-- Sections are cut at the same places whether line ends are normalized before or after. -/
theorem sections_normalizeLineEnds (t : Text) :
    sections t.normalizeLineEnds = (sections t).map Text.normalizeLineEnds := by
  have hclosing : Text.unit '\r' ∉ closing ∧ Text.unit '\n' ∉ closing := by decide
  match t with
  | [] => rfl
  | u :: t =>
    have hp := Text.prefix_normalizeLineEnds_iff (t := u :: t) hclosing.1 hclosing.2
    rcases sections_cons u t with ⟨rest, rfl, rfl, hs⟩ | ⟨hn, hs⟩
    · have ih := sections_normalizeLineEnds rest
      have hbracket : Text.unit ']' ≠ Text.unit '\r' := by decide
      have hangle : Text.unit '>' ≠ Text.unit '\r' := by decide
      rw [hs, Text.normalizeLineEnds_cons hbracket, Text.normalizeLineEnds_cons hbracket,
        Text.normalizeLineEnds_cons hangle, List.map_cons, map_extend hangle, ← ih]
      rfl
    · have ih := sections_normalizeLineEnds t
      rw [← hp] at hn
      rw [hs]
      by_cases hu : u = Text.unit '\r'
      · subst hu
        obtain ⟨first, ss, hts, hhead⟩ := exists_sections_eq_cons t
        by_cases hh : t.head? = some (Text.unit '\n')
        · rw [Text.normalizeLineEnds_return_of_feed hh, ih, hts, extend, List.map_cons,
            List.map_cons, Text.normalizeLineEnds_return_of_feed (hhead.trans hh)]
        · rw [Text.normalizeLineEnds_return hh] at hn ⊢
          have hne : first.head? ≠ some (Text.unit '\n') := hhead ▸ hh
          rw [sections_cons_eq_extend hn, ih, hts, extend, List.map_cons, List.map_cons, extend,
            Text.normalizeLineEnds_return hne]
      · rw [Text.normalizeLineEnds_cons hu] at hn ⊢
        rw [sections_cons_eq_extend hn, ih, map_extend hu]
termination_by t.length

/-- Sections have their line ends normalized one by one, and so does what follows them. -/
theorem normalizeLineEnds_flatMap_wrap_append (ss : List Text) (t : Text) :
    Text.normalizeLineEnds (ss.flatMap wrap ++ t) =
      (ss.map Text.normalizeLineEnds).flatMap wrap ++ Text.normalizeLineEnds t := by
  induction ss with
  | nil => rfl
  | cons s ss ih =>
    have ho : Text.unit '\r' ∉ opening := by decide
    have hc : Text.unit '\r' ∉ closing := by decide
    have hborder : (closing ++ (ss.flatMap wrap ++ t)).head? ≠ some (Text.unit '\n') := by
      rw [closing_eq]
      exact fun h => absurd (Option.some.inj h) (by decide)
    rw [List.map_cons, List.flatMap_cons, List.flatMap_cons, wrap, wrap]
    simp only [List.append_assoc]
    rw [Text.normalizeLineEnds_append ho, Text.normalizeLineEnds_append_of fun _ => hborder,
      Text.normalizeLineEnds_append hc, ih]

/-- Line ends in CDATA sections may be normalized before or after. -/
theorem normalizeLineEnds_encode_append (s t : Text) :
    Text.normalizeLineEnds (encode s ++ t) =
      encode s.normalizeLineEnds ++ Text.normalizeLineEnds t := by
  rw [encode, normalizeLineEnds_flatMap_wrap_append, ← sections_normalizeLineEnds, encode]

end CDSect

namespace Comment

/-- Line ends in a comment may be normalized before or after. -/
theorem normalizeLineEnds_encode_append (s t : Text) :
    Text.normalizeLineEnds (encode s ++ t) =
      encode s.normalizeLineEnds ++ Text.normalizeLineEnds t := by
  have ho : Text.unit '\r' ∉ Text.ofString "<!--" := by decide
  have hc : Text.unit '\r' ∉ Text.ofString "-->" := by decide
  have hborder : (Text.ofString "-->" ++ t).head? ≠ some (Text.unit '\n') := fun h =>
    absurd (Option.some.inj h) (by decide)
  simp only [encode, List.append_assoc]
  rw [Text.normalizeLineEnds_append ho, Text.normalizeLineEnds_append_of fun _ => hborder,
    Text.normalizeLineEnds_append hc, CharData.normalizeLineEnds_encode]

/-- A comment passes its check also with its line ends normalized. -/
theorem flaw?_normalizeLineEnds {t : Text} (h : flaw? t = none) :
    flaw? t.normalizeLineEnds = none := by
  have hd : Text.contains (Text.ofString "--") t.normalizeLineEnds =
      Text.contains (Text.ofString "--") t := by
    rw [Bool.eq_iff_iff, Text.contains_iff, Text.contains_iff]
    exact Text.infix_normalizeLineEnds_iff (by decide) (by decide)
  have he : (Text.ofString "-").isSuffixOf t.normalizeLineEnds =
      (Text.ofString "-").isSuffixOf t := by
    rw [Bool.eq_iff_iff, List.isSuffixOf_iff_suffix, List.isSuffixOf_iff_suffix]
    exact Text.suffix_normalizeLineEnds_iff (by decide) (by decide)
  unfold flaw? at h ⊢
  rw [hd, he]
  split at h
  · cases h
  · split at h
    · cases h
    · rw [if_neg ‹_›, if_neg ‹_›, ← Text.normalizeBefore_false]
      exact charFlaw?_normalizeBefore false h

end Comment

/-! ## Trees -/

/-- The text, section or comment that an event is. -/
def Event.data? : Event → Option Text
  | .text t | .cdata t | .comment t => some t
  | _ => none

/-- The pieces of a start tag that are plain hold no carriage return. -/
theorem OpenElement.Started.not_mem_of_isPlain {enforce : Bool} {scope : Scope} {name : Name}
    {attributes : List Attribute} {childless : Bool} {n n' : Counter} {ps : List Piece}
    {e : OpenElement} (h : Started enforce scope name attributes childless n ps e n')
    (hp : ∀ p ∈ ps, p.IsPlain) : Text.unit '\r' ∉ ps.flatMap Piece.render := by
  intro hu
  obtain ⟨p, hm, hu⟩ := List.mem_flatMap.1 hu
  have hplain := hp p hm
  have hin := h.isInTag p hm
  cases p with
  | text | cdata | comment => cases hin
  | _ => exact hplain hu

namespace Node

/-- Whether the text that nodes begin with begins with a line feed. -/
def beginsFeed : List Node → Bool
  | .text [] :: rest => beginsFeed rest
  | .text (u :: _) :: _ => u = Text.unit '\n'
  | _ => false

mutual

/-- A node with its line ends normalized, where a line feed follows or does not. -/
def normalizeLineEnds (feed : Bool) : Node → Node
  | .element name attributes children => .element name attributes (normalizeAll children)
  | .text t => .text (t.normalizeBefore feed)
  | .cdata t => .cdata t.normalizeLineEnds
  | .comment t => .comment t.normalizeLineEnds
  | .instruction target data => .instruction target data
  | .doctype t => .doctype t

/-- Nodes with their line ends normalized. Where a text ends with a carriage return and the next one
begins with a line feed, they have one line end in common. -/
def normalizeAll : List Node → List Node
  | [] => []
  | n :: rest => n.normalizeLineEnds (beginsFeed rest) :: normalizeAll rest

end

/-- Content that may be written may be written with its line ends normalized, and this gives what
was written before with its line ends normalized, as long as they are where a line feed follows or
does not. -/
theorem exists_content?_normalizeLineEnds {node : Node} {flaw? : Option Flaw} {p : Piece}
    (feed : Bool) (hc : node.content? = some (flaw?, p)) (hv : vet true flaw? = .ok ())
    (hp : p.IsPlain) :
    ∃ flaw?' p', (node.normalizeLineEnds feed).content? = some (flaw?', p') ∧
      vet true flaw?' = .ok () ∧ ∀ t : Text, (feed = true ↔ t.head? = some (Text.unit '\n')) →
        Text.normalizeLineEnds (p.render ++ t) = p'.render ++ Text.normalizeLineEnds t := by
  rw [vet_true_eq_ok_iff] at hv
  cases node with
  | element => cases hc
  | text s =>
    cases hc
    refine ⟨_, _, by rw [normalizeLineEnds]; rfl,
      vet_true_eq_ok_iff.2 (charFlaw?_normalizeBefore feed hv), fun t ht => ?_⟩
    rw [Text.normalizeLineEnds_append_eq ht, Piece.render, CharData.normalizeBefore_encode]
    rfl
  | cdata s =>
    cases hc
    have hv' : CDSect.flaw? s.normalizeLineEnds = none :=
      s.normalizeBefore_false ▸ charFlaw?_normalizeBefore false hv
    refine ⟨_, _, by rw [normalizeLineEnds]; rfl, vet_true_eq_ok_iff.2 hv', fun t _ => ?_⟩
    exact CDSect.normalizeLineEnds_encode_append s t
  | comment s =>
    cases hc
    refine ⟨_, _, by rw [normalizeLineEnds]; rfl,
      vet_true_eq_ok_iff.2 (Comment.flaw?_normalizeLineEnds hv), fun t _ => ?_⟩
    exact Comment.normalizeLineEnds_encode_append s t
  | instruction target data =>
    cases hc
    exact ⟨_, _, by rw [normalizeLineEnds]; rfl, vet_true_eq_ok_iff.2 hv,
      fun t _ => Text.normalizeLineEnds_append hp⟩
  | doctype s =>
    cases hc
    exact ⟨_, _, by rw [normalizeLineEnds]; rfl, vet_true_eq_ok_iff.2 hv,
      fun t _ => Text.normalizeLineEnds_append hp⟩

section
variable {scope : Scope} {n n' : Counter} {ns : List Node} {ps : List Piece} {t : Text}

/-- What is written for nodes begins with a line feed exactly if they begin with a text that does,
as long as none comes behind them. -/
theorem WrittenAll.head?_eq_feed_iff (h : WrittenAll true scope n ns ps n')
    (ht : t.head? ≠ some (Text.unit '\n')) :
    beginsFeed ns = true ↔
      (ps.flatMap Piece.render ++ t).head? = some (Text.unit '\n') := by
  -- markup begins with an angle bracket
  have markup : ∀ (s : Text), ¬ (Text.unit '<' :: s).head? = some (Text.unit '\n') := fun s h =>
    absurd (Option.some.inj h) (by decide)
  have tag : ∀ {scope n name attributes childless tag el n₁ s},
      OpenElement.Started true scope name attributes childless n tag el n₁ →
      ¬ (tag.flatMap Piece.render ++ s).head? = some (Text.unit '\n') := by
    intro scope n name attributes childless tag el n₁ s ht
    rw [ht.flatMap_render]
    exact markup _
  induction h with
  | nil => exact iff_of_false Bool.false_ne_true ht
  | @content _ _ _ node rest _ p ps hc _ _ ih =>
    cases node with
    | element => cases hc
    | text s =>
      cases hc
      cases s with
      | nil => exact ih
      | cons u s =>
        rw [beginsFeed, decide_eq_true_eq, List.flatMap_cons, List.append_assoc, Piece.render,
          List.head?_append_of_ne_nil _ (CharData.encode_cons_ne_nil u s),
          CharData.head?_encode_eq_lineFeed_iff, List.head?_cons, Option.some_inj]
    | cdata s =>
      cases hc
      obtain ⟨first, rest, hs⟩ := List.exists_cons_of_ne_nil (CDSect.sections_ne_nil s)
      rw [List.flatMap_cons, Piece.render, CDSect.encode, hs]
      exact iff_of_false Bool.false_ne_true (markup _)
    | comment | instruction | doctype =>
      cases hc
      exact iff_of_false Bool.false_ne_true (markup _)
  | @childless _ _ _ _ name attributes rest ts ps el hs _ ih =>
    rw [List.flatMap_append, List.append_assoc]
    exact iff_of_false Bool.false_ne_true (tag hs)
  | @element _ _ _ _ _ name attributes children rest ts inner ps el _ hs _ _ _ _ =>
    rw [List.flatMap_append, List.append_assoc]
    exact iff_of_false Bool.false_ne_true (tag hs)

/-- Nodes that have been written may be written with their line ends normalized, and this gives what
was written before with its line ends normalized. -/
theorem WrittenAll.normalizeAll (h : WrittenAll true scope n ns ps n')
    (hp : ∀ p ∈ ps, p.IsPlain) :
    ∃ ps', WrittenAll true scope n (Node.normalizeAll ns) ps' n' ∧
      Piece.madeUp ps' = Piece.madeUp ps ∧
      ∀ t : Text, t.head? ≠ some (Text.unit '\n') →
        Text.normalizeLineEnds (ps.flatMap Piece.render ++ t) =
          ps'.flatMap Piece.render ++ Text.normalizeLineEnds t := by
  have hend : Text.unit '\r' ∉ Piece.render .tagEnd := by decide
  induction h with
  | nil => exact ⟨[], .nil, rfl, fun _ _ => rfl⟩
  | @content _ _ _ node rest _ p ps hc hv hr ih =>
    obtain ⟨hp, hps⟩ := List.forall_mem_cons.1 hp
    obtain ⟨ps', hw, hm, ht'⟩ := ih hps
    obtain ⟨_, p', hc', hv', hn⟩ :=
      exists_content?_normalizeLineEnds (beginsFeed rest) hc hv hp
    refine ⟨p' :: ps', .content hc' hv' hw, ?_, fun t ht => ?_⟩
    · rw [madeUp_content hc, madeUp_content hc', hm]
    · rw [List.flatMap_cons, List.append_assoc, hn _ (hr.head?_eq_feed_iff ht), ht' t ht,
        List.flatMap_cons, List.append_assoc]
  | @childless _ _ _ _ name attributes rest tag ps el hs _ ih =>
    obtain ⟨hp, hps⟩ := List.forall_mem_append.1 hp
    obtain ⟨ps', hw, hm, ht'⟩ := ih (List.forall_mem_cons.1 hps).2
    refine ⟨tag ++ .tagEnd :: ps', .childless hs hw, ?_, fun t ht => ?_⟩
    · rw [Piece.madeUp_append, Piece.madeUp_append, Piece.madeUp_tagEnd, Piece.madeUp_tagEnd, hm]
    · simp only [List.flatMap_append, List.flatMap_cons, List.append_assoc]
      rw [Text.normalizeLineEnds_append (hs.not_mem_of_isPlain hp),
        Text.normalizeLineEnds_append hend, ht' t ht]
  | @element _ _ _ _ _ name attributes children rest tag inner ps el hne hs _ _ ihi ihr =>
    obtain ⟨hp, hps⟩ := List.forall_mem_append.1 hp
    obtain ⟨hpi, hps⟩ := List.forall_mem_append.1 (List.forall_mem_cons.1 hps).2
    obtain ⟨hq, hps⟩ := List.forall_mem_cons.1 hps
    have hq : Text.unit '\r' ∉ Piece.render (.endTag el.name) := hq
    obtain ⟨inner', hwi, hmi, hti⟩ := ihi hpi
    obtain ⟨ps', hw, hm, ht'⟩ := ihr hps
    have hne' : Node.normalizeAll children ≠ [] := by
      cases children with
      | nil => exact absurd rfl hne
      | cons => exact List.cons_ne_nil _ _
    refine ⟨tag ++ .tagEnd :: (inner' ++ .endTag el.name :: ps'), .element hne' hs hwi hw, ?_,
      fun t ht => ?_⟩
    · simp only [Piece.madeUp_append, Piece.madeUp_tagEnd, Piece.madeUp_endTag, hmi, hm]
    · have hborder : (Piece.render (.endTag el.name) ++ (ps.flatMap Piece.render ++ t)).head? ≠
          some (Text.unit '\n') := fun h => absurd (Option.some.inj h) (by decide)
      simp only [List.flatMap_append, List.flatMap_cons, List.append_assoc]
      rw [Text.normalizeLineEnds_append (hs.not_mem_of_isPlain hp),
        Text.normalizeLineEnds_append hend, hti _ hborder, Text.normalizeLineEnds_append hq,
        ht' t ht]

example : normalizeAll [.text (Text.ofString "a\r"), .text (Text.ofString "\nb\r"),
      .cdata (Text.ofString "\nc")] =
    [.text (Text.ofString "a"), .text (Text.ofString "\nb\n"), .cdata (Text.ofString "\nc")] := by
  rfl

end

/-- Nodes with their line ends normalized use prefixes as they did before. -/
theorem agrees_normalizeAll {f : Text → Text} {ns : List Node}
    (h : ∀ e ∈ eventsOfAll ns, e.Agrees f) : ∀ e ∈ eventsOfAll (normalizeAll ns), e.Agrees f := by
  match ns with
  | [] => exact nofun
  | node :: rest =>
    obtain ⟨hnode, hrest⟩ := List.forall_mem_append.1 h
    refine List.forall_mem_append.2 ⟨?_, agrees_normalizeAll hrest⟩
    cases node with
    | element name attributes children =>
      obtain ⟨hstart, hinner⟩ := List.forall_mem_cons.1 hnode
      obtain ⟨hchildren, hclose⟩ := List.forall_mem_append.1 hinner
      exact List.forall_mem_cons.2 ⟨hstart,
        List.forall_mem_append.2 ⟨agrees_normalizeAll hchildren, hclose⟩⟩
    | text | cdata | comment => exact List.forall_mem_singleton.2 trivial
    | instruction | doctype => exact hnode

/-- Nodes without carriage returns in their texts, sections and comments stay as they are. -/
theorem normalizeAll_eq_self {ns : List Node}
    (h : ∀ e ∈ eventsOfAll ns, ∀ t ∈ e.data?, Text.unit '\r' ∉ t) : normalizeAll ns = ns := by
  match ns with
  | [] => rfl
  | node :: rest =>
    obtain ⟨hnode, hrest⟩ := List.forall_mem_append.1 h
    rw [normalizeAll, normalizeAll_eq_self hrest]
    congr 1
    cases node with
    | element name attributes children =>
      obtain ⟨-, hinner⟩ := List.forall_mem_cons.1 hnode
      rw [normalizeLineEnds, normalizeAll_eq_self (List.forall_mem_append.1 hinner).1]
    | text t =>
      rw [normalizeLineEnds, Text.normalizeBefore_eq_self _ (hnode _ (.head _) t rfl)]
    | cdata t | comment t =>
      rw [normalizeLineEnds, Text.normalizeLineEnds_eq_self_iff.2 (hnode _ (.head _) t rfl)]
    | instruction | doctype => rfl

end Node

/-- A reader that normalizes line ends before it reads makes of a node, under the conditions of
`Source.read_of_render`, what the node with its line ends normalized should give. -/
theorem Source.read_normalizeLineEnds_of_render {f : Text → Text} (hf : IsMeaning f)
    (context : NamePart) (node : Node) (ha : ∀ e ∈ node.events, e.Agrees f)
    (hk : Piece.madeUp ((Writer.new { context }).pieces node.events) < Binary64.exactLimit)
    {t : Text} (ht : (Source.node node).render { context } = .ok t) :
    read context.value? t.normalizeLineEnds =
      some (Item.addAll [] [node.normalizeLineEnds false]) := by
  obtain ⟨⟨n', hw⟩, rfl⟩ := writtenAll_of_render ht
  have hev : Node.eventsOfAll [node] = node.events := List.append_nil _
  rw [← hev] at ha
  obtain ⟨ps, hw', hm, hn⟩ := hw.normalizeAll (hw.read hf ha hk).1
  have hn := hn [] nofun
  rw [List.append_nil, Text.normalizeLineEnds_nil, List.append_nil] at hn
  rw [hn]
  exact (hw'.read hf (Node.agrees_normalizeAll ha) (hm ▸ hk)).2

end XmlWriter
