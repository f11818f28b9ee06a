import LiveDiagram.Proofs.Connector.Merging
import LiveDiagram.Proofs.Document.Brought
import LiveDiagram.Proofs.Props.Verbatim

/-! Elements whose text is read as exactly what it was written for, and elements that have the same text. -/
namespace LiveDiagram

variable {α : Type} {config : Config α}

namespace Props
variable {p q : Props} {excluded : List String}

/-- The line for metadata tells only what is not excluded. -/
theorem writeMetadata_without (p : Props) (excluded : List String) :
    p.writeMetadata excluded = (p.without excluded).writeMetadata [] := by
  unfold writeMetadata
  congr 1
  induction p using byFirst with
  | nil => rfl
  | cons key value rest _ ih =>
    rw [without_cons, toList_cons]
    cases out : excluded.contains key with
    | true => simp only [List.filterMap_cons, out, if_true, ih]
    | false => simp only [toList_cons, List.filterMap_cons, out, Bool.false_eq_true, if_false, List.contains_nil, ih]

end Props

namespace Element
variable {e : Element α} {echo : Option Props} {children : Outline α}

/-! Elements that are read as they were written -/

/-- An element whose styles are words, and whose props and metadata come back from their lines. -/
structure Verbatim (config : Config α) (e : Element α) : Prop where
  style : ∀ s ∈ e.style? config, Styled s
  textStyle : ∀ s ∈ e.textStyle? config, Styled s
  props : e.bodyProps.Flush ∧ e.bodyProps.Exact
  metadata : e.metadata.Flush ∧ e.metadata.Exact

instance {style : String} : Decidable (Styled style) :=
  haveI : Decidable (Token.Plain style.toList) :=
    decidable_of_iff (style.toList ≠ [] ∧ (∀ c ∈ style.toList, Token.isIdChar c = true) ∧ Connector.read? style.toList = none)
      ⟨fun ⟨nonempty, own, unread⟩ => ⟨nonempty, own, unread⟩, fun plain => ⟨plain.nonempty, plain.own, plain.unread⟩⟩
  inferInstanceAs (Decidable (_ ∧ _))

instance : Decidable (e.Verbatim config) :=
  decidable_of_iff ((∀ s ∈ e.style? config, Styled s) ∧ (∀ s ∈ e.textStyle? config, Styled s) ∧
      (e.bodyProps.Flush ∧ e.bodyProps.Exact) ∧ e.metadata.Flush ∧ e.metadata.Exact)
    ⟨fun ⟨style, textStyle, props, metadata⟩ => ⟨style, textStyle, props, metadata⟩,
      fun verbatim => ⟨verbatim.style, verbatim.textStyle, verbatim.props, verbatim.metadata⟩⟩

theorem Styled.lined {style : String} (styled : Styled style) : '\n' ∉ style.toList := fun broken => by
  have own := styled.1.own '\n' broken
  cases own

theorem Verbatim.lined (verbatim : e.Verbatim config) : e.Lined config :=
  ⟨fun s written => (verbatim.style s written).lined, fun s written => (verbatim.textStyle s written).lined⟩

theorem stylesEcho_eq (style : ∀ s ∈ e.style? config, Styled s) (textStyle : ∀ s ∈ e.textStyle? config, Styled s) :
    e.stylesEcho config = (e.style? config, e.textStyle? config) := by
  unfold stylesEcho styleLine?
  split
  · next absent =>
    simp only [Bool.and_eq_true, Option.isNone_iff_eq_none] at absent
    rw [absent.1, absent.2]
    rfl
  · rw [Option.elim_some, ← (spells_stylesheet style textStyle).eq_wordsOf]
    exact Reader.stylesOf_styled _ _

theorem Verbatim.restated_eq (verbatim : e.Verbatim config) (spoken : e.Spoken) (echoes : e.bodyProps.echo? = .ok echo)
    (line : Nat) : e.restated config children echo line = e.declaration config children line := by
  obtain ⟨heard, tidy⟩ := heard_bodyProps spoken.props
  obtain rfl := Props.echo_eq heard tidy verbatim.props.1 verbatim.props.2 echoes
  have metadata := Props.echoMetadata_eq Writer.styleKeys spoken.metadata.1 spoken.metadata.2 verbatim.metadata.1
    verbatim.metadata.2
  unfold restated declaration
  rw [stylesEcho_eq verbatim.style verbatim.textStyle, metadata, Props.getD_filled?]
  rfl

/-! Elements with the same text -/

/-- The props that the text of an element declares, its own being read as `echo`. -/
def echoed (echo : Option Props) (e : Element α) : Option Props :=
  match e.symbol? with
  | some c => some (c.props.merge true (echo.getD .nil))
  | none => echo

/-- An element with the props that its text declares. -/
def redrawn (echo : Option Props) (e : Element α) : Element α :=
  { e with props := (e.echoed echo).getD .nil }

/-- An element whose line and body say the same when they are drawn with the props that its text declares. -/
def Steady (echo : Option Props) (e : Element α) : Prop :=
  Connector.ofProps? (e.redrawn echo).props = Connector.ofProps? e.props ∧
    (e.redrawn echo).bodyProps.write = e.bodyProps.write

/-- An element whose styles are words, whose metadata come back from their line, and whose props are steady as they are
read. -/
structure Stable (config : Config α) (e : Element α) : Prop where
  style : ∀ s ∈ e.style? config, Styled s
  textStyle : ∀ s ∈ e.textStyle? config, Styled s
  metadata : e.metadata.Flush ∧ e.metadata.Exact
  steady : ∀ echo, e.bodyProps.echo? = .ok echo → e.Steady echo

/-- What the text of a stable element declares. -/
theorem Stable.restated_eq (stable : e.Stable config) (spoken : e.Spoken) (echo : Option Props) (line : Nat) :
    e.restated config children echo line = { e.declaration config children line with props := e.echoed echo } := by
  have metadata := Props.echoMetadata_eq Writer.styleKeys spoken.metadata.1 spoken.metadata.2 stable.metadata.1
    stable.metadata.2
  unfold restated declaration
  rw [stylesEcho_eq stable.style stable.textStyle, metadata]
  rfl

theorem Stable.lined (stable : e.Stable config) : e.Lined config :=
  ⟨fun s written => (stable.style s written).lined, fun s written => (stable.textStyle s written).lined⟩

theorem connector?_redrawn (same : Connector.ofProps? (e.redrawn echo).props = Connector.ofProps? e.props) :
    (e.redrawn echo).connector? = e.connector? ∧ (e.redrawn echo).isJoined = e.isJoined := by
  have drawn : (e.redrawn echo).connector? = e.connector? := by rw [connector?, same, connector?]
  refine ⟨drawn, ?_⟩
  unfold isJoined
  rw [drawn]
  rfl

/-- Elements whose props come back are steady unless their body has props under the keys of the connector on their
line. -/
theorem steady_of_unlined (tidy : e.bodyProps.Tidy) (unlined : e.isJoined = true → e.bodyProps.Unlined) :
    e.Steady e.bodyProps.filled? := by
  cases joined : e.isJoined with
  | false =>
    have own : e.redrawn e.bodyProps.filled? = e := by
      unfold redrawn echoed symbol?
      rw [joined, if_neg Bool.false_ne_true, Props.getD_filled?, bodyProps, joined]
      rfl
    unfold Steady
    rw [own]
    exact ⟨rfl, rfl⟩
  | true =>
    have unlined := unlined joined
    cases drawn : e.connector? with
    | none =>
      have own : e.bodyProps = e.props := by
        rw [bodyProps, drawn, Option.isSome_none, Bool.and_false, if_neg Bool.false_ne_true]
      rw [own] at unlined
      rw [connector?, Connector.ofProps?_unlined unlined] at drawn
      cases drawn
    | some c =>
      have props : (e.redrawn e.bodyProps.filled?).props = c.props.merge true e.bodyProps := by
        unfold redrawn echoed symbol?
        rw [joined, if_pos rfl, drawn, Props.getD_filled?]
        rfl
      have same : Connector.ofProps? (e.redrawn e.bodyProps.filled?).props = Connector.ofProps? e.props := by
        rw [props, Connector.ofProps?_merge c tidy unlined]
        unfold connector? at drawn
        cases given : Connector.ofProps? e.props with
        | error fault => rw [given] at drawn; cases drawn
        | ok c' =>
          rw [given] at drawn
          cases drawn
          rfl
      obtain ⟨drawn', joined'⟩ := connector?_redrawn same
      refine ⟨same, congrArg Props.write ?_⟩
      rw [bodyProps, drawn', joined', drawn, joined, props]
      exact Connector.residue_merge c tidy unlined

/-- Elements that are read as they were written are stable, unless their body has props under the keys of the connector
on their line. -/
theorem Verbatim.stable (verbatim : e.Verbatim config) (spoken : e.Spoken)
    (unlined : e.isJoined = true → e.bodyProps.Unlined) : e.Stable config where
  style := verbatim.style
  textStyle := verbatim.textStyle
  metadata := verbatim.metadata
  steady echo echoes := by
    obtain ⟨heard, tidy⟩ := heard_bodyProps spoken.props
    obtain rfl := Props.echo_eq heard tidy verbatim.props.1 verbatim.props.2 echoes
    exact steady_of_unlined tidy unlined

end Element

/-- Contents that say the same on a line: shapes and texts of nodes, and nodes at the ends of edges. -/
def Content.Alike : Content α → Content α → Prop
  | .node c, .node c' => c'.type = c.type ∧ c'.text = c.text
  | .edge start stop, .edge start' stop' => start'.node? = start.node? ∧ stop'.node? = stop.node?
  | _, _ => False

/-- Contents that say the same are both of nodes or both of edges. -/
theorem Content.Alike.cases {content content' : Content α} (alike : content.Alike content') :
    (∃ c c', content = .node c ∧ content' = .node c' ∧ c'.type = c.type ∧ c'.text = c.text) ∨
      ∃ start stop start' stop', content = .edge start stop ∧ content' = .edge start' stop' ∧
        start'.node? = start.node? ∧ stop'.node? = stop.node? := by
  cases content with
  | node c =>
    cases content' with
    | node c' => exact .inl ⟨c, c', rfl, rfl, alike.1, alike.2⟩
    | edge start' stop' => exact alike.elim
  | edge start stop =>
    cases content' with
    | node c' => exact alike.elim
    | edge start' stop' => exact .inr ⟨start, stop, start', stop', rfl, rfl, alike.1, alike.2⟩

theorem Content.Alike.kind {content content' : Content α} (alike : content.Alike content') :
    content'.kind = content.kind := by
  rcases alike.cases with ⟨_, _, rfl, rfl, _⟩ | ⟨_, _, _, _, rfl, rfl, _⟩ <;> rfl

namespace Element
variable {e e' : Element α} {children children' : Outline α} {echo : Option Props}

/-- Elements that say the same, as far as their own line and the lines of their body go. -/
structure Alike (config : Config α) (echo : Option Props) (e e' : Element α) : Prop where
  id : e'.id = e.id
  content : e.content.Alike e'.content
  props : e'.props = (e.redrawn echo).props
  style : e'.style? config = e.style? config
  textStyle : e'.textStyle? config = e.textStyle? config
  metadata : e'.bodyMetadata = e.bodyMetadata

namespace Alike

theorem connector?_eq (alike : e.Alike config echo e') (steady : e.Steady echo) : e'.connector? = e.connector? := by
  rw [connector?, alike.props, steady.1, connector?]

theorem isJoined_eq (alike : e.Alike config echo e') (steady : e.Steady echo) : e'.isJoined = e.isJoined := by
  unfold isJoined
  rw [alike.connector?_eq steady]
  rcases alike.content.cases with ⟨c, c', same, same', _⟩ | ⟨start, stop, start', stop', same, same', starts, stops⟩
  · rw [same, same']
  · rw [same, same']
    simp only [isConnected_eq, starts, stops]

theorem symbol?_eq (alike : e.Alike config echo e') (steady : e.Steady echo) : e'.symbol? = e.symbol? := by
  rw [symbol?, alike.isJoined_eq steady, alike.connector?_eq steady, symbol?]

theorem write_bodyProps (alike : e.Alike config echo e') (steady : e.Steady echo) :
    e'.bodyProps.write = e.bodyProps.write := by
  obtain ⟨redrawn, joined⟩ := connector?_redrawn steady.1
  rw [← steady.2, bodyProps, alike.isJoined_eq steady, alike.connector?_eq steady, alike.props, bodyProps, joined,
    redrawn]

/-- The same lines stand in the bodies of elements that say the same. -/
theorem entries_eq (alike : e.Alike config echo e') (steady : e.Steady echo) (texts : e.metadata.Texts ∧ e'.metadata.Texts) :
    Writer.entries config e' e'.bodyProps = Writer.entries config e e.bodyProps := by
  have metadata : e'.metadata.writeMetadata Writer.styleKeys = e.metadata.writeMetadata Writer.styleKeys := by
    rw [Props.writeMetadata_without, ← bodyMetadata, alike.metadata, bodyMetadata, ← Props.writeMetadata_without]
  unfold Writer.entries
  rw [styleEntry_eq texts.1, styleEntry_eq texts.2, styleLine?, alike.style, alike.textStyle, ← styleLine?,
    alike.write_bodyProps steady, metadata]

/-- They have the same line where the same label stands on it. -/
theorem headText_eq (alike : e.Alike config echo e') (steady : e.Steady echo)
    (label : (e'.inlined? children').map Writer.nodeText = (e.inlined? children).map Writer.nodeText) :
    e'.headText children' = e.headText children := by
  unfold headText
  rw [alike.id, alike.symbol?_eq steady, label]
  rcases alike.content.cases with
    ⟨c, c', same, same', type, text⟩ | ⟨start, stop, start', stop', same, same', starts, stops⟩
  · rw [same, same']
    simp only [type, NodeContent.name?, text]
  · rw [same, same']
    simp only [endsText, nameText, starts, stops]

end Alike

/-- An element that says the same as another one, with the same label on its line. -/
structure Doubles (config : Config α) (echo : Option Props) (e : Element α) (children : Outline α) (e' : Element α)
    (children' : Outline α) : Prop where
  alike : e.Alike config echo e'
  steady : e.Steady echo
  texts : e.metadata.Texts ∧ e'.metadata.Texts
  label : (e'.inlined? children').map Writer.nodeText = (e.inlined? children).map Writer.nodeText

theorem Doubles.plan {plan : Writer.Plan} (doubles : e.Doubles config echo children e' children')
    (planned : Writer.plan config e children = .ok plan) :
    Writer.plan config e' children' = .ok ⟨plan.head, plan.entries, e'.inlinedId? children'⟩ := by
  obtain ⟨alike, steady, texts, label⟩ := doubles
  obtain ⟨drawn, lines, entered, rfl⟩ := exists_of_plan planned
  have drawn' (start stop : Endpoint α) (same' : e'.content = .edge start stop) :
      ∃ c, Connector.ofProps? e'.props = .ok c := by
    rcases alike.content.cases with ⟨_, _, _, node, _⟩ | ⟨start, stop, _, _, same, _⟩
    · cases same'.symm.trans node
    · rw [alike.props, steady.1]
      exact drawn start stop same
  rw [plan_eq drawn' ((alike.entries_eq steady texts).trans entered), alike.headText_eq steady label]

end Element
end LiveDiagram
