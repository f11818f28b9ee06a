import LiveDiagram.Proofs.Document.Restated
import LiveDiagram.Proofs.Source.Spoiling
import LiveDiagram.Proofs.Source.Spoken

/-! What can be misread in the text of elements. A shape or the name of an end may be taken for a connector, and a line of
props may hold a number that is too long. Each of them leaves an error or stops the reading, so that a text that is
read without errors is read as what its elements restate. -/
namespace LiveDiagram

open Token (Spells Plain Parted Word IsWord parted_space)
open Reader (Conveys Ruins Spoils)

variable {α : Type} {config : Config α}

section Spelling
variable {word : String} {rest : List Char} {words : List Word} {c : Connector}

theorem Token.plain_iff : Plain word.toList ↔ IsWord word ∧ Connector.read? word.toList = none := by
  constructor
  · intro plain
    exact ⟨⟨fun empty => plain.nonempty (by rw [empty]; rfl), plain.own⟩, plain.unread⟩
  · intro ⟨⟨nonempty, own⟩, unread⟩
    exact ⟨fun empty => nonempty (String.toList_eq_nil_iff.1 empty), own, unread⟩

/-- A word that is taken for a connector. -/
theorem Token.Spells.mistaken (read : Connector.read? word.toList = some c) (parted : Parted rest) (spells : Spells rest words) :
    Spells (word.toList ++ rest) ((.connector, word) :: words) := by
  have spelled := Spells.connector c parted spells
  rw [Connector.text_of_read? read, String.ofList_toList] at spelled
  exact spelled

/-- The id of an end that has no good name. -/
theorem Element.mistaken_of_not_named {endpoint : Endpoint α} (bad : ¬Element.Named endpoint) :
    ∃ id c, endpoint.node? = some id ∧ Quoted.isPlain id = true ∧ Connector.read? id.toList = some c := by
  unfold Element.Named at bad
  push Not at bad
  obtain ⟨id, connected, plain, read⟩ := bad
  obtain ⟨c, read⟩ := Option.ne_none_iff_exists'.1 read
  exact ⟨id, c, connected, plain, read⟩

theorem spells_mistaken {endpoint : Endpoint α} {id : String} (connected : endpoint.node? = some id)
    (plain : Quoted.isPlain id = true) (read : Connector.read? id.toList = some c) (parted : Parted rest)
    (spells : Spells rest words) : Spells ((nameText endpoint).toList ++ rest) ((.connector, id) :: words) := by
  rw [nameText, connected, Option.elim_some, String.toList_append, List.append_assoc, Quoted.writeId, plain, if_pos rfl]
  exact (Spells.mistaken read parted spells).space

end Spelling

namespace Element
variable {e : Element α} {children : Outline α} {first : Nat} {texts below : List String} {indent : String}
  {start stop : Endpoint α}

/-- What is known of elements that a text may have brought about: shapes are words, and metadata are texts. Styles, of
which this is not known, are written on one line. -/
structure Sayable (config : Config α) (e : Element α) : Prop where
  shape : ∀ content, e.content = .node content → IsWord content.type ∧ content.type ≠ "edge"
  metadata : e.metadata.Texts
  unbroken : ∀ text ∈ e.styleLine? config, '\n' ∉ text.toList

/-- The header of an edge with an end whose name is taken for a connector. -/
theorem spells_edge_mistaken (id : String) (c : Connector) (label : Option String) (opens : Bool)
    (bad : ¬(Named start ∧ Named stop)) :
    ∃ source x y words, Spells ((Quoted.writeId id ++ ": edge" ++ endsText start stop (some c) label) ++ suffix opens).toList
      ((Token.nameKind id, id) :: (.colon, ":") :: (.keyword, "edge") ::
        (Reader.names source ++ (.connector, x) :: (.connector, y) :: words)) := by
  have whole {ends : List Word} (spells : Spells ((nameText start).toList ++ ' ' :: (c.text ++ ((nameText stop).toList ++
      ((quotedText label).toList ++ (suffix opens).toList)))) ends) :
      Spells ((Quoted.writeId id ++ ": edge" ++ endsText start stop (some c) label) ++ suffix opens).toList
        ((Token.nameKind id, id) :: (.colon, ":") :: (.keyword, "edge") :: ends) := by
    have header := Spells.edge id (parted_nameText start parted_space) spells
    simpa [String.toList_append, List.append_assoc, endsText] using header
  have labelled := spells_quotedText label (spells_suffix opens)
  have parted := parted_quotedText label (parted_suffix opens)
  have parted' := parted_nameText stop parted
  by_cases named : Named start
  · obtain ⟨target, d, connected, plain, read⟩ := mistaken_of_not_named fun named' => bad ⟨named, named'⟩
    have stopped := spells_mistaken connected plain read parted labelled
    have started := spells_nameText named parted_space (Spells.connector c parted' stopped).space
    exact ⟨start.node?, _, _, _, whole started⟩
  · obtain ⟨source, d, connected, plain, read⟩ := mistaken_of_not_named named
    obtain ⟨words, stopped⟩ : ∃ words, Spells ((nameText stop).toList ++
        ((quotedText label).toList ++ (suffix opens).toList)) words := by
      by_cases named' : Named stop
      · exact ⟨_, spells_nameText named' parted labelled⟩
      · obtain ⟨target, d, connected, plain, read⟩ := mistaken_of_not_named named'
        exact ⟨_, spells_mistaken connected plain read parted labelled⟩
    have started := spells_mistaken connected plain read parted_space (Spells.connector c parted' stopped).space
    exact ⟨none, _, _, _, whole started⟩

/-- What is written for an element, if anything is. -/
theorem exists_of_plan {plan : Writer.Plan} (planned : Writer.plan config e children = .ok plan) :
    (∀ start stop, e.content = .edge start stop → ∃ c, Connector.ofProps? e.props = .ok c) ∧
      ∃ texts, Writer.entries config e e.bodyProps = .ok texts ∧ plan = ⟨e.headText children, texts, e.inlinedId? children⟩ := by
  have drawn (start stop : Endpoint α) (same : e.content = .edge start stop) :
      ∃ c, Connector.ofProps? e.props = .ok c := by
    cases found : Connector.ofProps? e.props with
    | ok c => exact ⟨c, rfl⟩
    | error fault =>
      rw [Writer.plan, same] at planned
      simp [Writer.planEdge, found, bind, Except.bind] at planned
  rw [plan_eq_map drawn] at planned
  cases entered : Writer.entries config e e.bodyProps with
  | ok texts =>
    rw [entered] at planned
    exact ⟨drawn, texts, rfl, Except.ok.inj planned.symm⟩
  | error fault =>
    rw [entered] at planned
    cases planned

/-- A header is read, or spoils the text. -/
theorem header_cases (sayable : e.Sayable config)
    (drawn : ∀ start stop, e.content = .edge start stop → ∃ c, Connector.ofProps? e.props = .ok c)
    (children : Outline α) (opens : Bool) :
    e.Titled ∨ ∃ words, Spells (e.headText children ++ suffix opens).toList words ∧
      ∀ first tokens, List.Forall₂ (Token.Shows first) words tokens → ∀ r, Spoils tokens r := by
  unfold Titled headText
  cases same : e.content with
  | node content =>
    obtain ⟨word, proper⟩ := sayable.shape content same
    cases read : Connector.read? content.type.toList with
    | none => exact .inl ⟨Token.plain_iff.2 ⟨word, read⟩, proper⟩
    | some c =>
      have shaped := Spells.mistaken read (parted_quotedText content.name? (parted_suffix opens))
        (spells_quotedText content.name? (spells_suffix opens))
      have spells := Spells.id_colon e.id parted_space shaped.space
      refine .inr ⟨_, by simpa [String.toList_append, List.append_assoc] using spells, fun first tokens shows r => ?_⟩
      exact Reader.spoils_node (Reader.isName_nameKind e.id) shows
  | edge start stop =>
    by_cases named : Named start ∧ Named stop
    · exact .inl ⟨drawn start stop same, named⟩
    · have marked : ∃ c, e.symbol? = some c := by
        cases symbol : e.symbol? with
        | some c => exact ⟨c, rfl⟩
        | none =>
          have loose := loose_of_unmarked same symbol
          exact (named ⟨by simp [Named, loose.1], by simp [Named, loose.2]⟩).elim
      obtain ⟨c, symbol⟩ := marked
      obtain ⟨source, x, y, words, spells⟩ := spells_edge_mistaken e.id c ((e.inlined? children).map Writer.nodeText)
        opens named
      dsimp only
      rw [symbol]
      exact .inr ⟨_, spells, fun first tokens shows r => Reader.spoils_edge (Reader.isName_nameKind e.id) shows⟩

/-- Lines that spell words, whatever they mean. -/
def Spelled (texts : List String) : Prop :=
  ∀ text ∈ texts, ∃ words, Spells text.toList words

/-- Lines that are lines of the text that they are joined to. -/
def Unbroken (texts : List String) : Prop :=
  ∀ text ∈ texts, '\n' ∉ text.toList

theorem Spelled.indented (spelled : Spelled texts) (blank : ∀ c ∈ indent.toList, Token.isBlank c = true) :
    Spelled (texts.map (indent ++ ·)) := by
  intro text member
  obtain ⟨own, listed, rfl⟩ := List.mem_map.1 member
  obtain ⟨words, spells⟩ := spelled own listed
  rw [String.toList_append]
  exact ⟨words, Spells.blanks blank spells⟩

theorem spelled_append {more : List String} : Spelled (texts ++ more) ↔ Spelled texts ∧ Spelled more :=
  List.forall_mem_append

theorem unbroken_append {more : List String} : Unbroken (texts ++ more) ↔ Unbroken texts ∧ Unbroken more :=
  List.forall_mem_append

theorem Unbroken.indented (unbroken : Unbroken texts) (blank : ∀ c ∈ indent.toList, Token.isBlank c = true) :
    Unbroken (texts.map (indent ++ ·)) := by
  intro text member
  obtain ⟨own, listed, rfl⟩ := List.mem_map.1 member
  rw [String.toList_append, List.mem_append]
  rintro (front | back)
  · cases blank _ front
  · exact unbroken own listed back

theorem Spelled.unindented (spelled : Spelled (texts.map (indent ++ ·))) (blank : ∀ c ∈ indent.toList, Token.isBlank c = true) :
    Spelled texts := by
  intro text member
  obtain ⟨words, spells⟩ := spelled _ (List.mem_map_of_mem member)
  rw [String.toList_append] at spells
  have unbroken : '\n' ∉ text.toList := fun broken => spells.unbroken (List.mem_append_right _ broken)
  exact ⟨_, Token.spells_wordsOf unbroken (spells.isClosed.of_blanks blank)⟩

/-- The lines of the body of an element before its children. -/
theorem entries_eq (metadata : e.metadata.Texts) (entered : Writer.entries config e e.bodyProps = .ok texts) :
    ∃ line, e.bodyProps.write = .ok line ∧ texts = (e.styleLine? config).toList ++
      (line.map fun p => "props: " ++ Quoted.quote p).toList ++
        ((e.metadata.writeMetadata Writer.styleKeys).map fun m => "metadata: " ++ Quoted.quote m).toList := by
  unfold Writer.entries at entered
  rw [styleEntry_eq metadata] at entered
  obtain ⟨_, styled, others⟩ := bind_eq_ok.1 entered
  cases styled
  obtain ⟨line, written, same⟩ := bind_eq_ok.1 others
  exact ⟨line, written, (Except.ok.inj same).symm⟩

theorem unbroken_entries (sayable : e.Sayable config) (entered : Writer.entries config e e.bodyProps = .ok texts) :
    Unbroken texts := by
  obtain ⟨line, _, rfl⟩ := entries_eq sayable.metadata entered
  rw [unbroken_append, unbroken_append]
  refine ⟨⟨fun text member => sayable.unbroken text (Option.mem_toList.1 member), fun text member => ?_⟩,
    fun text member => ?_⟩
  · obtain ⟨props, _, rfl⟩ := Option.map_eq_some_iff.1 (Option.mem_toList.1 member)
    exact (spells_props props).unbroken
  · obtain ⟨metadata, _, rfl⟩ := Option.map_eq_some_iff.1 (Option.mem_toList.1 member)
    exact (spells_metadata metadata).unbroken

/-- The entries of an element are read, or spoil the text. -/
theorem entries_cases (metadata : e.metadata.Texts) (spelled : Spelled texts)
    (entered : Writer.entries config e e.bodyProps = .ok texts) :
    (∃ echo, e.bodyProps.echo? = .ok echo) ∨ (texts ≠ [] ∧ ∀ (step : String) (first : Nat) (r : Reader)
      (opening : OpenElement) (outer : List OpenElement), (∀ c ∈ step.toList, Token.isBlank c = true) →
        Ruins first (texts.map (step ++ ·)) (r.inside opening outer .empty)) := by
  obtain ⟨line, written, rfl⟩ := entries_eq metadata entered
  rw [spelled_append, spelled_append] at spelled
  cases line with
  | none =>
    refine .inl ⟨none, ?_⟩
    simp [Props.echo?, written, bind, Except.bind, pure, Except.pure]
  | some text =>
    cases read : Props.read text with
    | ok q =>
      refine .inl ⟨some q, ?_⟩
      simp [Props.echo?, written, read, bind, Except.bind, pure, Except.pure]
    | error fault =>
      refine .inr ⟨by simp, fun step first r opening outer blank => ?_⟩
      have early := Tells.styles (fun text member => spelled.1.1 text (Option.mem_toList.2 member)) first step r opening outer
        blank
      have late (line : Nat) (body : Body) :
          Ruins line [step ++ ("props: " ++ Quoted.quote text)] (r.inside opening outer body) :=
        .indented blank (spells_props text) fun tokens shows => Reader.spoils_props r opening outer body read shows
      rw [List.map_append, List.map_append]
      exact (Ruins.after early (late _ _)).append (Spelled.indented spelled.2 blank)

/-- The lines of an element around those of its children are lines of the text. -/
theorem unbroken_block {plan : Writer.Plan} (sayable : e.Sayable config)
    (planned : Writer.plan config e children = .ok plan)
    (step : ∀ c ∈ config.indent.toList, Token.isBlank c = true) (blank : ∀ c ∈ indent.toList, Token.isBlank c = true)
    (unbroken : Unbroken below) : Unbroken (Writer.block config indent plan below) := by
  obtain ⟨drawn, texts, entered, rfl⟩ := exists_of_plan planned
  have header (opens : Bool) : Unbroken ([e.headText children ++ suffix opens].map (indent ++ ·)) := by
    refine Unbroken.indented (fun text member => ?_) blank
    cases List.mem_singleton.1 member
    rcases header_cases sayable drawn children opens with titled | ⟨words, spells, _⟩
    · obtain ⟨words, spells, _⟩ := exists_header titled children opens
      exact spells.unbroken
    · exact spells.unbroken
  have brace : Unbroken (["\x7d"].map (indent ++ ·)) :=
    Unbroken.indented (by simp [Unbroken]) blank
  have entries := (unbroken_entries sayable entered).indented (Outline.blank_append blank step)
  rcases block_cases config indent (e.headText children) texts below (e.inlinedId? children) with
    ⟨_, _, same⟩ | ⟨_, same⟩
  · have unopened := header false
    rw [suffix, if_neg Bool.false_ne_true, String.append_empty] at unopened
    rw [same]
    exact unopened
  · have opened := header true
    rw [List.map_singleton, ← String.append_assoc] at opened
    have whole := unbroken_append.2 ⟨unbroken_append.2 ⟨entries, unbroken⟩, brace⟩
    rw [same]
    exact List.forall_mem_cons.2 ⟨opened _ List.mem_cons_self, whole⟩

/-- A header that is not read spoils the text. -/
theorem ruins_header (sayable : e.Sayable config)
    (drawn : ∀ start stop, e.content = .edge start stop → ∃ c, Connector.ofProps? e.props = .ok c)
    (blank : ∀ c ∈ indent.toList, Token.isBlank c = true) (untitled : ¬e.Titled) (children : Outline α) (opens : Bool)
    (first : Nat) (r : Reader) : Ruins first [indent ++ e.headText children ++ suffix opens] r := by
  rcases header_cases sayable drawn children opens with titled | ⟨words, spells, spoils⟩
  · exact (untitled titled).elim
  · rw [String.append_assoc]
    exact .indented blank spells fun tokens shows => spoils first tokens shows r

/-- An element with a header that is read and nothing else to say is read. -/
theorem audible_of_bare (sayable : e.Sayable config) (titled : e.Titled)
    (entered : Writer.entries config e e.bodyProps = .ok []) : ∃ echo, e.Audible config echo := by
  obtain ⟨line, written, bare⟩ := entries_eq sayable.metadata entered
  have unstyled : e.styleLine? config = none :=
    Option.toList_eq_nil_iff.1 (List.append_eq_nil_iff.1 (List.append_eq_nil_iff.1 bare.symm).1).1
  have fashioned : e.Fashioned config := by
    refine ⟨sayable.metadata, by simp [unstyled], fun _ => ?_⟩
    rw [stylesEcho, unstyled]
    rfl
  rcases entries_cases sayable.metadata (by simp [Spelled]) entered with ⟨echo, echoes⟩ | ⟨some, _⟩
  · exact ⟨echo, titled, echoes, fashioned⟩
  · exact (some rfl).elim

/-- Under a header that is read, the body of an element is read where the lines of its children are, or it spoils the
text. -/
theorem body_cases {audible : Prop} (sayable : e.Sayable config) (titled : e.Titled)
    (entered : Writer.entries config e e.bodyProps = .ok texts) (children : Outline α)
    (step : ∀ c ∈ config.indent.toList, Token.isBlank c = true) (blank : ∀ c ∈ indent.toList, Token.isBlank c = true)
    (own : Spelled texts) (lower : Spelled (below ++ [indent ++ "\x7d"]))
    (conveys : audible → ∀ first, ∃ f, ∀ r, Conveys first below r (r.join f))
    (read : audible ∨ (below ≠ [] ∧ ∀ first r, Ruins first below r)) :
    ((∃ echo, e.Audible config echo) ∧ audible) ∨ ∀ first r,
      Ruins first ([indent ++ e.headText children ++ suffix true] ++
        (texts.map ((indent ++ config.indent) ++ ·) ++ (below ++ [indent ++ "\x7d"]))) r := by
  have deeper := Outline.blank_append blank step
  have opened (first : Nat) (r : Reader) : Conveys first [indent ++ e.headText children ++ suffix true] r
      (r.headed (e.opening children first) true) := conveys_header blank titled children true
  have styles (text : String) (member : text ∈ e.styleLine? config) : ∃ words, Spells text.toList words := by
    obtain ⟨line, _, rfl⟩ := entries_eq sayable.metadata entered
    exact own text (List.mem_append_left _ (List.mem_append_left _ (Option.mem_toList.2 member)))
  rcases entries_cases sayable.metadata own entered with ⟨echo, echoes⟩ | ⟨_, ruins⟩
  · obtain ⟨texts', entered', _, tells⟩ := exists_retold sayable.metadata styles echoes
    cases entered.symm.trans entered'
    have told (first : Nat) (r : Reader) := tells (first + 1) (indent ++ config.indent) r (e.opening children first)
      r.opened deeper
    rcases read with read | ⟨_, ruins⟩
    · by_cases unstyled : e.isEdge = true → (e.stylesEcho config).2 = none
      · exact .inl ⟨⟨echo, titled, echoes, sayable.metadata, styles, unstyled⟩, read⟩
      · -- the text style of an edge is found where its body ends
        rw [Classical.not_imp] at unstyled
        refine .inr fun first r => Ruins.after (opened first r) (Ruins.after (told first r) ?_)
        obtain ⟨f, conveyed⟩ := conveys read (first + 1 + (texts.map ((indent ++ config.indent) ++ ·)).length)
        refine Ruins.after (conveyed _) (.indented blank Spells.nil.rightBrace fun tokens shows => ?_)
        obtain ⟨source, target, label, head⟩ := exists_opening children first unstyled.1
        exact Reader.spoils_close r (e.opening children first) r.opened
          { e.retold config echo (first + 1) with children := f } head
          (by simpa [retold] using unstyled.2) shows
    · refine .inr fun first r => Ruins.after (opened first r) (Ruins.after (told first r) ?_)
      exact (ruins _ _).append (spelled_append.1 lower).2
  · refine .inr fun first r => Ruins.after (opened first r) ?_
    exact (ruins _ _ r (e.opening children first) r.opened deeper).append lower

/-- The lines of an element around those of its children are read where those are, or they spoil the text. -/
theorem block_cases_misread {plan : Writer.Plan} {audible : Prop} (sayable : e.Sayable config)
    (planned : Writer.plan config e children = .ok plan)
    (step : ∀ c ∈ config.indent.toList, Token.isBlank c = true) (blank : ∀ c ∈ indent.toList, Token.isBlank c = true)
    (spelled : Spelled (Writer.block config indent plan below))
    (conveys : audible → ∀ first, ∃ f, ∀ r, Conveys first below r (r.join f))
    (read : audible ∨ (below ≠ [] ∧ ∀ first r, Ruins first below r)) :
    ((∃ echo, e.Audible config echo) ∧ audible) ∨ ∀ first r, Ruins first (Writer.block config indent plan below) r := by
  obtain ⟨drawn, texts, entered, rfl⟩ := exists_of_plan planned
  rcases block_cases config indent (e.headText children) texts below (e.inlinedId? children) with
    ⟨rfl, rfl, same⟩ | ⟨_, same⟩
  · rw [same]
    by_cases titled : e.Titled
    · rcases read with read | ⟨some, _⟩
      · exact .inl ⟨audible_of_bare sayable titled entered, read⟩
      · exact (some rfl).elim
    · have ruins := ruins_header sayable drawn blank titled children false
      simp only [suffix, if_neg Bool.false_ne_true, String.append_empty] at ruins
      exact .inr ruins
  · rw [same] at spelled ⊢
    have inside : Spelled (texts.map ((indent ++ config.indent) ++ ·) ++ below ++ [indent ++ "\x7d"]) :=
      (List.forall_mem_cons.1 spelled).2
    rw [List.cons_append, List.append_assoc]
    rw [List.append_assoc] at inside
    obtain ⟨entries, lower⟩ := spelled_append.1 inside
    by_cases titled : e.Titled
    · exact body_cases sayable titled entered children step blank
        (Spelled.unindented entries (Outline.blank_append blank step)) lower conveys read
    · exact .inr fun first r => (ruins_header sayable drawn blank titled children true first r).append inside

end Element

namespace Outline
open Element (Spelled Unbroken)
variable {o : Outline α} {leftOut : Option String} {indent : String} {texts : List String}

/-- What the lines of an element and those after it are made of. -/
theorem exists_of_lines {e : Element α} {children : Outline α} {deeper : String} {others : Except Fault (List String)}
    {join : Writer.Plan → List String → List String → List String}
    (written : (do
      let plan ← Writer.plan config e children
      let below ← Writer.lines config deeper plan.inlined children
      return join plan below (← others)) = .ok texts) :
    ∃ plan below after, Writer.plan config e children = .ok plan ∧
      Writer.lines config deeper (e.inlinedId? children) children = .ok below ∧ others = .ok after ∧
        texts = join plan below after := by
  obtain ⟨plan, planned, others'⟩ := bind_eq_ok.1 written
  obtain ⟨below, beneath, rest⟩ := bind_eq_ok.1 others'
  obtain ⟨after, behind, same⟩ := bind_eq_ok.1 rest
  obtain ⟨_, _, _, rfl⟩ := Element.exists_of_plan planned
  exact ⟨_, below, after, planned, beneath, behind, (Except.ok.inj same).symm⟩

/-- The lines of the children of an element are among its own. -/
theorem spelled_of_block {plan : Writer.Plan} {below : List String}
    (spelled : Spelled (Writer.block config indent plan below)) : Spelled below := by
  obtain ⟨head, entries, inlined⟩ := plan
  rcases Element.block_cases config indent head entries below inlined with ⟨_, rfl, _⟩ | ⟨_, same⟩
  · simp [Spelled]
  · rw [same] at spelled
    have inside := (List.forall_mem_cons.1 spelled).2
    exact (Element.spelled_append.1 (Element.spelled_append.1 inside).1).2

/-- The lines below an element are read where all that is shown there is. -/
theorem conveys_below {children : Outline α} {below : List String} {deeper : String}
    (beneath : Writer.lines config deeper leftOut children = .ok below)
    (step : ∀ c ∈ config.indent.toList, Token.isBlank c = true) (blank : ∀ c ∈ deeper.toList, Token.isBlank c = true)
    (audible : ∀ x ∈ children.shown leftOut, ∃ echo, x.Audible config echo) (first : Nat) :
    ∃ f, ∀ r, Conveys first below r (r.join f) := by
  obtain ⟨below', written, _, conveys⟩ := exists_lines_restated deeper leftOut audible step blank
  cases beneath.symm.trans written
  obtain ⟨f, _, conveyed⟩ := conveys first
  exact ⟨f, conveyed⟩

/-- What is asked of an element with all that is shown below it. -/
abbrev AudibleWithin (config : Config α) (e : Element α) (children : Outline α) : Prop :=
  (∃ echo, e.Audible config echo) ∧ ∀ x ∈ children.shown (e.inlinedId? children), ∃ echo, x.Audible config echo

/-- The lines of an element with all below it are read as one declaration with its children. -/
theorem conveys_audible {e : Element α} {children : Outline α} {plan : Writer.Plan} {below : List String}
    {deeper : String}
    (audible : AudibleWithin config e children) (planned : Writer.plan config e children = .ok plan)
    (beneath : Writer.lines config deeper (e.inlinedId? children) children = .ok below)
    (step : ∀ c ∈ config.indent.toList, Token.isBlank c = true) (blank : ∀ c ∈ indent.toList, Token.isBlank c = true)
    (blank' : ∀ c ∈ deeper.toList, Token.isBlank c = true) (first : Nat) : ∃ f, ∀ r, Conveys first (Writer.block config indent plan below) r (r.join f) := by
  obtain ⟨⟨echo, own⟩, nested⟩ := audible
  obtain ⟨below', written, empty, conveys⟩ := exists_lines_restated deeper (e.inlinedId? children) nested step blank'
  cases beneath.symm.trans written
  obtain ⟨plan', planned', _, block⟩ := exists_block_restated children own step blank
  cases planned.symm.trans planned'
  obtain ⟨f, restates, conveyed⟩ := conveys (first + 1 + plan.entries.length)
  exact ⟨_, block below f (fun none => restates_bare restates (empty none)) first conveyed⟩

theorem block_ne_nil (config : Config α) (indent : String) (plan : Writer.Plan) (below : List String) :
    Writer.block config indent plan below ≠ [] := by
  unfold Writer.block
  dsimp only
  split <;> simp

/-- The lines of an outline are lines of the text. -/
theorem unbroken_lines (written : Writer.lines config indent leftOut o = .ok texts)
    (sayable : ∀ e ∈ o.shown leftOut, e.Sayable config) (step : ∀ c ∈ config.indent.toList, Token.isBlank c = true)
    (blank : ∀ c ∈ indent.toList, Token.isBlank c = true) : Unbroken texts := by
  induction o generalizing indent leftOut texts with
  | nil =>
    cases written
    simp [Unbroken]
  | cons e children rest inner later =>
    rw [Writer.lines] at written
    by_cases out : leftOut = some e.id
    · rw [if_pos out] at written
      rw [shown, if_pos out] at sayable
      exact later written sayable blank
    · rw [if_neg out] at written
      rw [shown_cons out] at sayable
      obtain ⟨plan, below, after, planned, beneath, behind, rfl⟩ := exists_of_lines written
      have nested := inner beneath
        (fun x member => sayable x (List.mem_cons_of_mem e (List.mem_append_left _ member))) (blank_append blank step)
      have others := later behind
        (fun x member => sayable x (List.mem_cons_of_mem e (List.mem_append_right _ member))) blank
      exact Element.unbroken_append.2
        ⟨Element.unbroken_block (sayable e List.mem_cons_self) planned step blank nested, others⟩

/-- The lines of topmost elements are lines of the text. -/
theorem unbroken_write (written : Writer.write config o = .ok texts) (sayable : ∀ e ∈ o.shown none, e.Sayable config)
    (step : ∀ c ∈ config.indent.toList, Token.isBlank c = true) : Unbroken texts := by
  induction o generalizing texts with
  | nil =>
    cases written
    simp [Unbroken]
  | cons e children rest _ later =>
    have kept : none ≠ some e.id := by simp
    rw [Writer.write] at written
    rw [shown_cons kept] at sayable
    obtain ⟨plan, below, after, planned, beneath, behind, rfl⟩ := exists_of_lines written
    have nested := unbroken_lines beneath
      (fun x member => sayable x (List.mem_cons_of_mem e (List.mem_append_left _ member))) step step
    have others := later behind (fun x member => sayable x (List.mem_cons_of_mem e (List.mem_append_right _ member)))
    exact Element.unbroken_append.2 ⟨Element.unbroken_block (sayable e List.mem_cons_self) planned step (by simp) nested,
      List.forall_mem_cons.2 ⟨by simp, others⟩⟩

/-- The lines of an element and those after it are all read, or they spoil the text. -/
theorem cons_cases {e : Element α} {children rest : Outline α} {block after : List String}
    (own : AudibleWithin config e children ∨ ∀ first r, Ruins first block r)
    (conveys : AudibleWithin config e children → ∀ first, ∃ f, ∀ r, Conveys first block r (r.join f))
    (spelled : Spelled after)
    (behind : (∀ x ∈ rest.shown leftOut, ∃ echo, x.Audible config echo) ∨ ∀ first r, Ruins first after r) :
    (∀ x ∈ e :: (children.shown (e.inlinedId? children) ++ rest.shown leftOut), ∃ echo, x.Audible config echo) ∨
      ∀ first r, Ruins first (block ++ after) r := by
  rcases own with audible | ruins
  · rcases behind with later | ruins
    · refine .inl fun x member => ?_
      rcases List.mem_cons.1 member with rfl | member
      · exact audible.1
      · exact (List.mem_append.1 member).elim (audible.2 x) (later x)
    · refine .inr fun first r => ?_
      obtain ⟨f, conveyed⟩ := conveys audible first
      exact Ruins.after (conveyed r) (ruins _ _)
  · exact .inr fun first r => (ruins first r).append spelled

/-- The lines of an outline are read, or they spoil the text. -/
theorem lines_cases (written : Writer.lines config indent leftOut o = .ok texts)
    (sayable : ∀ e ∈ o.shown leftOut, e.Sayable config) (spelled : Spelled texts)
    (step : ∀ c ∈ config.indent.toList, Token.isBlank c = true) (blank : ∀ c ∈ indent.toList, Token.isBlank c = true) :
    (∀ e ∈ o.shown leftOut, ∃ echo, e.Audible config echo) ∨ (texts ≠ [] ∧ ∀ first r, Ruins first texts r) := by
  -- That there are lines goes along, since a body without any is written without braces.
  induction o generalizing indent leftOut texts with
  | nil => exact .inl (by simp [shown])
  | cons e children rest inner later =>
    rw [Writer.lines] at written
    by_cases out : leftOut = some e.id
    · rw [if_pos out] at written
      rw [shown, if_pos out] at sayable ⊢
      exact later written sayable spelled blank
    · rw [if_neg out] at written
      rw [shown_cons out] at sayable ⊢
      obtain ⟨plan, below, after, planned, beneath, behind, rfl⟩ := exists_of_lines written
      obtain ⟨own, others⟩ := Element.spelled_append.1 spelled
      have read := inner beneath
        (fun x member => sayable x (List.mem_cons_of_mem e (List.mem_append_left _ member))) (spelled_of_block own)
        (blank_append blank step)
      have read' := later behind
        (fun x member => sayable x (List.mem_cons_of_mem e (List.mem_append_right _ member))) others blank
      have filled : Writer.block config indent plan below ++ after ≠ [] :=
        List.append_ne_nil_of_left_ne_nil (block_ne_nil _ _ _ _) _
      have block := Element.block_cases_misread (sayable e List.mem_cons_self) planned step blank own
        (conveys_below beneath step (blank_append blank step)) read
      exact (cons_cases block
        (conveys_audible · planned beneath step blank (blank_append blank step)) others
        (read'.imp_right And.right)).imp_right fun ruins => ⟨filled, ruins⟩

/-- The lines of topmost elements are read, or they spoil the text. -/
theorem write_cases (written : Writer.write config o = .ok texts) (sayable : ∀ e ∈ o.shown none, e.Sayable config)
    (spelled : Spelled texts) (step : ∀ c ∈ config.indent.toList, Token.isBlank c = true) :
    (∀ e ∈ o.shown none, ∃ echo, e.Audible config echo) ∨ (texts ≠ [] ∧ ∀ first r, Ruins first texts r) := by
  induction o generalizing texts with
  | nil => exact .inl (by simp [shown])
  | cons e children rest _ later =>
    have kept : none ≠ some e.id := by simp
    have blank : ∀ c ∈ "".toList, Token.isBlank c = true := by simp
    rw [Writer.write] at written
    rw [shown_cons kept] at sayable ⊢
    obtain ⟨plan, below, after, planned, beneath, behind, rfl⟩ := exists_of_lines written
    obtain ⟨own, gap⟩ := Element.spelled_append.1 spelled
    have read := lines_cases beneath
      (fun x member => sayable x (List.mem_cons_of_mem e (List.mem_append_left _ member))) (spelled_of_block own) step step
    have read' := later behind
      (fun x member => sayable x (List.mem_cons_of_mem e (List.mem_append_right _ member))) (List.forall_mem_cons.1 gap).2
    have filled : Writer.block config "" plan below ++ "" :: after ≠ [] :=
      List.append_ne_nil_of_left_ne_nil (block_ne_nil _ _ _ _) _
    have block := Element.block_cases_misread (sayable e List.mem_cons_self) planned step blank own
      (conveys_below beneath step step) read
    exact (cons_cases block (conveys_audible · planned beneath step blank step) gap
      (read'.imp_right fun ruins _ _ => Ruins.after Conveys.blank (ruins.2 _ _))).imp_right fun ruins => ⟨filled, ruins⟩

/-- A text of elements that is read without errors is read as what restates them. -/
theorem restates_of_clean {context context' : Context} {parsed : Parsed} (written : Writer.write config o = .ok texts)
    (sayable : ∀ e ∈ o.shown none, e.Sayable config) (step : ∀ c ∈ config.indent.toList, Token.isBlank c = true)
    (read : Parsed.ofText [] ("\n".intercalate texts) context = (.ok parsed, context'))
    (clean : parsed.errors.reports = []) :
    (∀ e ∈ o.shown none, ∃ echo, e.Audible config echo) ∧ o.Restates config none parsed.forest := by
  have spelled := Parsed.spelled_of_clean (unbroken_write written sayable step) read clean
  rcases write_cases written sayable spelled step with audible | ⟨filled, ruins⟩
  · obtain ⟨texts', written', conveys⟩ := exists_write_restated audible step
    cases written.symm.trans written'
    obtain ⟨f, restates, conveyed⟩ := conveys 0
    obtain ⟨context'', read'⟩ := Parsed.ofText_conveyed (conveyed (Reader.start context))
    cases read.symm.trans read'
    exact ⟨audible, restates⟩
  · exact (Parsed.errors_of_ruins (ruins 0 _) filled read clean).elim

end Outline
end LiveDiagram
