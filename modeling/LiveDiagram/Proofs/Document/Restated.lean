import LiveDiagram.Proofs.Document.RoundTrip
import LiveDiagram.Proofs.Props.Heard

/-! What the text of elements declares when it is read, be it what was written or not. Styles, props and metadata come
back as what their lines are read as; all else comes back as it was written. -/
namespace LiveDiagram

variable {α : Type} {config : Config α}

namespace Props
variable {p : Props} {echo : Option Props}

/-- What is read of the line that is written for props, if there is one. -/
def echo? (p : Props) : Except Fault (Option Props) := do
  match ← p.write with
  | none => return none
  | some text => return some (← read text)

/-- What is read of the line that is written for metadata, if there is one. -/
def echoMetadata (excluded : List String) (p : Props) : Option Props :=
  (p.writeMetadata excluded).map readMetadata

theorem Worded.texts (worded : p.Worded) : p.Texts := by
  intro key value found
  induction p with
  | nil => cases found
  | leaf k v rest ih =>
    rw [Props.get?] at found
    split at found
    · obtain ⟨s, rfl, _⟩ := worded.2.1
      exact ⟨s, (Option.some.inj found).symm⟩
    · exact ih worded.2.2 found
  | node => exact worded.elim

/-- The line for props, and what is read of it. -/
theorem echo?_cases (echoes : p.echo? = .ok echo) :
    ∃ line, p.write = .ok line ∧ (line = none ∧ echo = none ∨ ∃ text q, line = some text ∧ echo = some q ∧ read text = .ok q) := by
  obtain ⟨line, written, others⟩ := bind_eq_ok.1 echoes
  refine ⟨line, written, ?_⟩
  cases line with
  | none => exact .inl ⟨rfl, (Except.ok.inj others).symm⟩
  | some text =>
    obtain ⟨q, read, same⟩ := bind_eq_ok.1 others
    exact .inr ⟨text, q, rfl, (Except.ok.inj same).symm, read⟩

/-- Where there is no line for props, there is none to read. -/
theorem exists_line (echoes : p.echo? = .ok echo) : ∃ line, p.write = .ok line ∧ (line = none → echo = none) := by
  obtain ⟨line, written, ⟨rfl, rfl⟩ | ⟨text, q, rfl, rfl, _⟩⟩ := echo?_cases echoes
  · exact ⟨none, written, fun _ => rfl⟩
  · exact ⟨some text, written, fun none => by cases none⟩

end Props

namespace Element
variable {e : Element α} {children : Outline α} {first : Nat} {texts below : List String} {f : Forest}
  {echo : Option Props} {r : Reader}

/-- The style and the text style that the line for them is read as. -/
def stylesEcho (config : Config α) (e : Element α) : Option String × Option String :=
  (e.styleLine? config).elim (none, none) fun text => Reader.stylesOf ((Token.wordsOf text.toList).drop 2)

/-- What the text of an element declares, its props being read as `echo`. -/
def restated (config : Config α) (children : Outline α) (echo : Option Props) (line : Nat) (e : Element α) :
    Declaration where
  id := e.id
  line := line
  head :=
    match e.content with
    | .node content => .node content.type content.name? (e.stylesEcho config).2
    | .edge start stop => .edge start.node? stop.node? ((e.inlined? children).map Writer.nodeText)
  props :=
    match e.symbol? with
    | some c => some (c.props.merge true (echo.getD .nil))
    | none => echo
  metadata := e.metadata.echoMetadata Writer.styleKeys
  style := (e.stylesEcho config).1

theorem heard_bodyProps (heard : e.props.Heard ∧ e.props.Tidy) : e.bodyProps.Heard ∧ e.bodyProps.Tidy := by
  unfold bodyProps
  split
  · exact ⟨Connector.heard_residue heard.1, Connector.tidy_residue heard.2⟩
  · exact heard

/-- Styles whose line is read without errors. -/
structure Fashioned (config : Config α) (e : Element α) : Prop where
  metadata : e.metadata.Texts
  spelled : ∀ text ∈ e.styleLine? config, ∃ words, Token.Spells text.toList words
  unstyled : e.isEdge = true → (e.stylesEcho config).2 = none

/-- What is asked of an element for its lines to be read, its props as `echo`. -/
structure Audible (config : Config α) (e : Element α) (echo : Option Props) : Prop where
  titled : e.Titled
  echoes : e.bodyProps.echo? = .ok echo
  fashioned : e.Fashioned config

/-- What the entries of an element are read as, the first of them on the given line. -/
def retold (config : Config α) (echo : Option Props) (line : Nat) (e : Element α) : Body where
  props := echo
  metadata := e.metadata.echoMetadata Writer.styleKeys
  style := (e.stylesEcho config).1
  textStyle := (e.stylesEcho config).2.map (·, line)
  children := .nil

/-- The opened element with all that its body is read as is what is restated. -/
theorem declaration_retold (children : Outline α) (first : Nat) (f : Forest) :
    { e.opening children first with body := { e.retold config echo (first + 1) with children := f } }.declaration =
      e.restated config children echo first := by
  unfold OpenElement.declaration restated opening retold
  rw [Declaration.mk.injEq]
  refine ⟨rfl, rfl, ?_, ?_, rfl, rfl⟩
  · cases e.content with
    | node content => simp [Option.map_map, Function.comp_def]
    | edge start stop => rfl
  · cases e.symbol? <;> rfl

namespace Tells
variable {body : Body} {line : Option String}

/-- A line for props, if there is one, tells what is read of it. -/
theorem props {p : Props} (echoes : p.echo? = .ok echo) (written : p.write = .ok line) (fresh : body.props = none)
    (first : Nat) :
    Tells first (line.map fun text => "props: " ++ Quoted.quote text).toList body { body with props := echo } := by
  obtain ⟨line', written', cases⟩ := Props.echo?_cases echoes
  cases written.symm.trans written'
  rcases cases with ⟨rfl, rfl⟩ | ⟨text, q, rfl, rfl, read⟩
  · rw [← fresh]
    exact .nil
  · refine .line (spells_props text) fun r opening outer tokens shows length => ?_
    have reads := Reader.reads_props r opening outer body length read shows
    rw [fresh, Option.getD_none, Props.nil_merge (Props.heard_read read).2] at reads
    exact reads

/-- A line for styles, if there is one, tells what is read of it. -/
theorem styles (spelled : ∀ text ∈ e.styleLine? config, ∃ words, Token.Spells text.toList words) (first : Nat) :
    Tells first (e.styleLine? config).toList .empty { Body.empty with
      style := (e.stylesEcho config).1, textStyle := (e.stylesEcho config).2.map (·, first) } := by
  unfold stylesEcho
  cases line : e.styleLine? config with
  | none => exact .nil
  | some text =>
    obtain ⟨words, spells⟩ := spelled text line
    obtain ⟨words', rfl⟩ : ∃ words', words = (.keyword, "stylesheet") :: (.colon, ":") :: words' := by
      unfold styleLine? at line
      split at line
      · cases line
      · cases line
        exact exists_words_stylesheet spells
    refine .line spells fun r opening outer tokens shows length => ?_
    have proper (w : Token.Word) (member : w ∈ words') :=
      spells.proper w (List.mem_cons_of_mem _ (List.mem_cons_of_mem _ member))
    have reads := Reader.reads_stylesheet r opening outer .empty length proper shows
    simp only [Body.empty, Option.or_none] at reads
    rw [Option.elim_some, ← spells.eq_wordsOf]
    exact reads

/-- A line for metadata, if there is one, tells what is read of it. -/
theorem metadata (excluded : List String) (p : Props) (fresh : body.metadata = none) (first : Nat) :
    Tells first ((p.writeMetadata excluded).map fun text => "metadata: " ++ Quoted.quote text).toList body
      { body with metadata := p.echoMetadata excluded } := by
  unfold Props.echoMetadata
  cases p.writeMetadata excluded with
  | none =>
    rw [Option.map_none, Option.map_none, ← fresh]
    exact .nil
  | some text =>
    refine .line (spells_metadata text) fun r opening outer tokens shows length => ?_
    have reads := Reader.reads_metadata r opening outer body length shows
    rw [fresh, Option.getD_none, Props.nil_overlay (Props.worded_readMetadata text).2] at reads
    exact reads

end Tells

/-- The entries of an element are written and read where its props and its styles are. -/
theorem exists_retold (metadata : e.metadata.Texts)
    (spelled : ∀ text ∈ e.styleLine? config, ∃ words, Token.Spells text.toList words) (echoes : e.bodyProps.echo? = .ok echo) :
    ∃ texts, Writer.entries config e e.bodyProps = .ok texts ∧ (texts = [] → ∀ line, e.retold config echo line = .empty) ∧
      ∀ first, Tells first texts .empty (e.retold config echo first) := by
  obtain ⟨line, written, silent⟩ := Props.exists_line echoes
  refine ⟨(e.styleLine? config).toList ++ (line.map fun p => "props: " ++ Quoted.quote p).toList ++
    ((e.metadata.writeMetadata Writer.styleKeys).map fun m => "metadata: " ++ Quoted.quote m).toList, ?_, ?_, ?_⟩
  · unfold Writer.entries
    rw [styleEntry_eq metadata, written]
    rfl
  · intro none line
    simp only [List.append_eq_nil_iff, Option.toList_eq_nil_iff, Option.map_eq_none_iff] at none
    obtain ⟨⟨unstyled, unwritten⟩, undecorated⟩ := none
    rw [retold, stylesEcho, unstyled, silent unwritten, Props.echoMetadata, undecorated]
    rfl
  · intro first
    have early := Tells.styles spelled first
    exact (early.append (.props echoes written rfl _)).append (.metadata Writer.styleKeys e.metadata rfl _)

variable {indent : String}

theorem isEdge_of_opening {source target label : Option String}
    (edge : (e.opening children first).head = .edge source target label) : e.isEdge = true := by
  unfold opening at edge
  unfold isEdge kind
  cases same : e.content with
  | node content =>
    rw [same] at edge
    cases edge
  | edge start stop => rfl

theorem exists_opening (children : Outline α) (first : Nat) (edge : e.isEdge = true) :
    ∃ source target label, (e.opening children first).head = .edge source target label := by
  unfold isEdge kind at edge
  unfold opening
  cases same : e.content with
  | node content =>
    rw [same] at edge
    cases edge
  | edge start stop => exact ⟨_, _, _, rfl⟩

/-- The lines of an element around those of its children lead to what it restates, with its children. -/
theorem conveys_restated (titled : e.Titled) (plain : e.isEdge = true → (e.stylesEcho config).2 = none) (blank : ∀ c ∈ indent.toList, Token.isBlank c = true)
    (deeper : ∀ c ∈ (indent ++ config.indent).toList, Token.isBlank c = true)
    (silent : texts = [] → ∀ line, e.retold config echo line = .empty)
    (tells : ∀ first, Tells first texts .empty (e.retold config echo first))
    (bare : below = [] → f = .nil) (conveys : ∀ r, Reader.Conveys (first + 1 + texts.length) below r (r.join f))
    (leftOut : Option String) :
    Reader.Conveys first (Writer.block config indent ⟨e.headText children, texts, leftOut⟩ below) r
      (r.join (.cons (e.restated config children echo first) f .nil)) := by
  rw [← declaration_retold children first f]
  have header (opens : Bool) : Reader.Conveys first [indent ++ e.headText children ++ suffix opens] r
      (r.headed (e.opening children first) opens) := conveys_header blank titled children opens
  rcases block_cases config indent (e.headText children) texts below leftOut with ⟨nothing, none, same⟩ | ⟨_, same⟩
  · have unopened := header false
    rw [same, silent nothing, bare none]
    simp only [suffix, Bool.false_eq_true, if_false, String.append_empty] at unopened
    exact unopened
  · have opened := header true
    have entries := tells (first + 1) (indent ++ config.indent) r (e.opening children first) r.opened deeper
    have nested := conveys (r.inside (e.opening children first) r.opened (e.retold config echo (first + 1)))
    have brace : Token.Spells "\x7d".toList [(.rightBrace, "\x7d")] := Token.Spells.nil.rightBrace
    have closing (line : Nat) : Reader.Conveys line [indent ++ "\x7d"]
        (r.inside (e.opening children first) r.opened { e.retold config echo (first + 1) with children := f })
        (r.join (.cons { e.opening children first with
          body := { e.retold config echo (first + 1) with children := f } }.declaration f .nil)) := by
      have unstyled {source target label : Option String}
          (edge : (e.opening children first).head = .edge source target label) :
          (e.retold config echo (first + 1)).textStyle = none := by
        rw [retold, plain (isEdge_of_opening edge)]
        rfl
      exact .indented blank brace fun tokens shows length =>
        Reader.reads_close r (e.opening children first) r.opened { e.retold config echo (first + 1) with children := f }
          length (fun _ _ _ edge => unstyled edge) shows
    rw [same, List.cons_append]
    rw [← List.length_map (f := ((indent ++ config.indent) ++ ·))] at nested
    exact opened.cons ((entries.append nested).append (closing _))

end Element

/-! Outlines -/

namespace Outline
open Reader (Conveys)

/-- The elements that have a line of their own, but for topmost elements with the id that is left out. -/
def shown (leftOut : Option String) : Outline α → List (Element α)
  | nil => []
  | cons e children rest =>
    if leftOut = some e.id then rest.shown leftOut
    else e :: (children.shown (e.inlinedId? children) ++ rest.shown leftOut)

/-- A forest that restates an outline on some lines, but for topmost elements with the id that is left out. -/
inductive Restates (config : Config α) : Option String → Outline α → Forest → Prop
  | nil {leftOut : Option String} : Restates config leftOut .nil .nil
  | skip {leftOut : Option String} {e : Element α} {children rest : Outline α} {f : Forest} (out : leftOut = some e.id)
      (later : Restates config leftOut rest f) : Restates config leftOut (.cons e children rest) f
  | cons {leftOut : Option String} {e : Element α} {children rest : Outline α} {below more : Forest}
      {echo : Option Props} {line : Nat} (kept : leftOut ≠ some e.id) (echoes : e.bodyProps.echo? = .ok echo)
      (inner : Restates config (e.inlinedId? children) children below) (later : Restates config leftOut rest more) :
      Restates config leftOut (.cons e children rest) (.cons (e.restated config children echo line) below more)

variable {o : Outline α} {e : Element α} {leftOut : Option String} {indent : String} {echo : Option Props}

theorem shown_cons (kept : leftOut ≠ some e.id) {children rest : Outline α} : (cons e children rest).shown leftOut =
    e :: (children.shown (e.inlinedId? children) ++ rest.shown leftOut) :=
  if_neg kept

/-- The lines of an element are read where those of its children are. -/
theorem exists_block_restated (children : Outline α) (own : e.Audible config echo)
    (step : ∀ c ∈ config.indent.toList, Token.isBlank c = true) (blank : ∀ c ∈ indent.toList, Token.isBlank c = true) :
    ∃ plan, Writer.plan config e children = .ok plan ∧ plan.inlined = e.inlinedId? children ∧
      ∀ below : List String, ∀ f : Forest, (below = [] → f = .nil) → ∀ first,
        (∀ r, Conveys (first + 1 + plan.entries.length) below r (r.join f)) →
        ∀ r, Conveys first (Writer.block config indent plan below) r
          (r.join (.cons (e.restated config children echo first) f .nil)) := by
  obtain ⟨texts, entered, silent, tells⟩ := Element.exists_retold own.fashioned.metadata own.fashioned.spelled own.echoes
  refine ⟨_, Element.plan_eq (fun _ _ => own.titled.drawn) entered, rfl, fun below f bare first conveys r => ?_⟩
  exact Element.conveys_restated own.titled own.fashioned.unstyled blank (blank_append blank step) silent tells bare conveys _

theorem restates_bare {f : Forest} (restates : o.Restates config leftOut f) (none : o.shown leftOut = []) : f = .nil := by
  induction restates with
  | nil => rfl
  | skip out _ ih => exact ih (by rwa [shown, if_pos out] at none)
  | cons kept => rw [shown_cons kept] at none; cases none

/-- The lines of an outline are read as what restates it, whatever they stand in. -/
theorem exists_lines_restated (indent : String) (leftOut : Option String)
    (audible : ∀ e ∈ o.shown leftOut, ∃ echo, e.Audible config echo)
    (step : ∀ c ∈ config.indent.toList, Token.isBlank c = true) (blank : ∀ c ∈ indent.toList, Token.isBlank c = true) :
    ∃ texts, Writer.lines config indent leftOut o = .ok texts ∧ (texts = [] → o.shown leftOut = []) ∧
      ∀ first, ∃ f, o.Restates config leftOut f ∧ ∀ r, Conveys first texts r (r.join f) := by
  -- For every indent and every label that is left out, as both are others inside a body.
  induction o generalizing indent leftOut with
  | nil =>
    refine ⟨[], rfl, fun _ => rfl, fun first => ⟨.nil, .nil, fun r => ?_⟩⟩
    rw [Reader.join_nil]
    exact .nil
  | cons e children rest inner later =>
    rw [Writer.lines, shown]
    by_cases out : leftOut = some e.id
    · rw [shown, if_pos out] at audible
      obtain ⟨after, written, empty, conveys⟩ := later indent leftOut audible blank
      rw [if_pos out, if_pos out]
      refine ⟨after, written, empty, fun first => ?_⟩
      obtain ⟨f, restates, conveyed⟩ := conveys first
      exact ⟨f, .skip out restates, conveyed⟩
    · rw [shown_cons out] at audible
      obtain ⟨echo, own⟩ := audible e List.mem_cons_self
      obtain ⟨below, written, empty, conveys⟩ := inner (indent ++ config.indent) (e.inlinedId? children)
        (fun x member => audible x (List.mem_cons_of_mem e (List.mem_append_left _ member))) (blank_append blank step)
      obtain ⟨after, written', _, conveys'⟩ := later indent leftOut
        (fun x member => audible x (List.mem_cons_of_mem e (List.mem_append_right _ member))) blank
      obtain ⟨plan, planned, inlined, block⟩ := exists_block_restated children own step blank
      rw [if_neg out, if_neg out]
      refine ⟨Writer.block config indent plan below ++ after, ?_, fun none => ?_, fun first => ?_⟩
      · simp only [planned, bind, Except.bind, inlined, written, written']
        rfl
      · obtain ⟨head, texts, leftOut⟩ := plan
        have blocked := (List.append_eq_nil_iff.1 none).1
        rcases Element.block_cases config indent head texts below leftOut with ⟨_, _, same⟩ | ⟨_, same⟩
        · rw [same] at blocked
          cases blocked
        · rw [same] at blocked
          cases blocked
      · obtain ⟨f, restates, conveyed⟩ := conveys (first + 1 + plan.entries.length)
        obtain ⟨g, restates', conveyed'⟩ := conveys' (first + (Writer.block config indent plan below).length)
        refine ⟨.cons (e.restated config children echo first) f g, .cons out own.echoes restates restates', fun r => ?_⟩
        have late := conveyed' (r.join (.cons (e.restated config children echo first) f .nil))
        rw [Reader.join_join] at late
        exact (block below f (fun none => restates_bare restates (empty none)) first conveyed r).append late

/-- The lines of topmost elements are read as what restates them. -/
theorem exists_write_restated (audible : ∀ e ∈ o.shown none, ∃ echo, e.Audible config echo)
    (step : ∀ c ∈ config.indent.toList, Token.isBlank c = true) :
    ∃ texts, Writer.write config o = .ok texts ∧
      ∀ first, ∃ f, o.Restates config none f ∧ ∀ r, Conveys first texts r (r.join f) := by
  induction o with
  | nil =>
    refine ⟨[], rfl, fun first => ⟨.nil, .nil, fun r => ?_⟩⟩
    rw [Reader.join_nil]
    exact .nil
  | cons e children rest _ later =>
    have kept : none ≠ some e.id := by simp
    have blank : ∀ c ∈ "".toList, Token.isBlank c = true := by simp
    rw [shown_cons kept] at audible
    obtain ⟨echo, own⟩ := audible e List.mem_cons_self
    obtain ⟨below, written, empty, conveys⟩ := exists_lines_restated config.indent (e.inlinedId? children)
      (fun x member => audible x (List.mem_cons_of_mem e (List.mem_append_left _ member))) step step
    obtain ⟨after, written', conveys'⟩ := later
      (fun x member => audible x (List.mem_cons_of_mem e (List.mem_append_right _ member)))
    obtain ⟨plan, planned, inlined, block⟩ := exists_block_restated children own step blank
    refine ⟨Writer.block config "" plan below ++ "" :: after, ?_, fun first => ?_⟩
    · rw [Writer.write]
      simp only [planned, bind, Except.bind, inlined, written, written']
      rfl
    · obtain ⟨f, restates, conveyed⟩ := conveys (first + 1 + plan.entries.length)
      obtain ⟨g, restates', conveyed'⟩ := conveys' (first + (Writer.block config "" plan below).length + 1)
      refine ⟨.cons (e.restated config children echo first) f g, .cons kept own.echoes restates restates', fun r => ?_⟩
      have late := conveyed' (r.join (.cons (e.restated config children echo first) f .nil))
      rw [Reader.join_join] at late
      exact (block below f (fun none => restates_bare restates (empty none)) first conveyed r).append (Conveys.blank.cons late)

end Outline
end LiveDiagram
