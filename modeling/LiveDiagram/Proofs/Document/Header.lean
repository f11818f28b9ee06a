import LiveDiagram.Proofs.Document.Declared
import LiveDiagram.Proofs.Source.Lines

/-! Headers of elements read back: the line that is written for an element opens it, or adds it at once where its body
is empty. -/
namespace LiveDiagram

open Token (Plain Spells Parted Word parted_space)

variable {α : Type}

/-! What may end a header -/

/-- The end of a line that opens a body. -/
def suffix (opens : Bool) : String :=
  if opens then " \x7b" else ""

theorem parted_suffix (opens : Bool) : Parted (suffix opens).toList := by
  cases opens with
  | true => exact parted_space
  | false => exact Token.parted_nil

theorem spells_suffix (opens : Bool) : Spells (suffix opens).toList (Reader.brace opens) := by
  cases opens with
  | true => exact Spells.nil.leftBrace.space
  | false => exact Spells.nil

/-- A quoted text behind a blank, if there is one. -/
def quotedText (text : Option String) : String :=
  text.elim "" fun text => " " ++ Quoted.quote text

variable {rest : List Char} {words : List Word}

theorem parted_quotedText (text : Option String) (parted : Parted rest) : Parted ((quotedText text).toList ++ rest) := by
  cases text with
  | none => exact parted
  | some text =>
    rw [quotedText, Option.elim_some, String.toList_append]
    exact parted_space

theorem spells_quotedText (text : Option String) (spells : Spells rest words) :
    Spells ((quotedText text).toList ++ rest) (Reader.quoted text ++ words) := by
  cases text with
  | none => exact spells
  | some text =>
    rw [quotedText, Option.elim_some, String.toList_append, List.append_assoc]
    exact (spells.quote text).space

/-- The name of an end behind a blank, if there is one. -/
def nameText (endpoint : Endpoint α) : String :=
  endpoint.node?.elim "" fun id => " " ++ Quoted.writeId id

variable {endpoint : Endpoint α}

theorem parted_nameText (endpoint : Endpoint α) (parted : Parted rest) :
    Parted ((nameText endpoint).toList ++ rest) := by
  unfold nameText
  cases endpoint.node? with
  | none => exact parted
  | some id =>
    rw [Option.elim_some, String.toList_append]
    exact parted_space

theorem spells_nameText (named : Element.Named endpoint) (parted : Parted rest) (spells : Spells rest words) :
    Spells ((nameText endpoint).toList ++ rest) (Reader.names endpoint.node? ++ words) := by
  unfold nameText
  cases connected : endpoint.node? with
  | none => exact spells
  | some id =>
    rw [Option.elim_some, String.toList_append, List.append_assoc]
    exact (Spells.id id (named id connected) parted spells).space

/-! Headers -/

theorem spells_node (id : String) {shape : String} (name : Option String) (opens : Bool) (plain : Plain shape.toList) :
    Spells ((Quoted.writeId id ++ ": " ++ shape ++ quotedText name) ++ suffix opens).toList
      ((Token.nameKind id, id) :: (.colon, ":") :: (Spells.kindOf shape.toList, shape) ::
        (Reader.quoted name ++ Reader.brace opens)) := by
  have named := Spells.plain plain (parted_quotedText name (parted_suffix opens))
    (spells_quotedText name (spells_suffix opens))
  have spells := Spells.id_colon id parted_space named.space
  rw [String.ofList_toList] at spells
  simpa [String.toList_append, List.append_assoc] using spells

/-- The line of an edge behind its keyword: the names and the connector between them, and the label. -/
def endsText (start stop : Endpoint α) (connector : Option Connector) (label : Option String) : String :=
  connector.elim "" (fun c => nameText start ++ " " ++ String.ofList c.text ++ nameText stop) ++ quotedText label

theorem spells_edge (id : String) {start stop : Endpoint α} (connector : Option Connector) (label : Option String)
    (opens : Bool) (named : Element.Named start ∧ Element.Named stop)
    (free : connector = none → start.node? = none ∧ stop.node? = none)
    (bare : connector.isSome → stop.node? = none → label = none) :
    ∃ ends, Reader.Ends start.node? connector stop.node? label ends ∧
      Spells ((Quoted.writeId id ++ ": edge" ++ endsText start stop connector label) ++ suffix opens).toList
        ((Token.nameKind id, id) :: (.colon, ":") :: (.keyword, "edge") :: (ends ++ Reader.brace opens)) := by
  have whole {ends : List Word} (parted : Parted ((endsText start stop connector label ++ suffix opens).toList))
      (spells : Spells (endsText start stop connector label ++ suffix opens).toList (ends ++ Reader.brace opens)) :
      Spells ((Quoted.writeId id ++ ": edge" ++ endsText start stop connector label) ++ suffix opens).toList
        ((Token.nameKind id, id) :: (.colon, ":") :: (.keyword, "edge") :: (ends ++ Reader.brace opens)) := by
    have header := Spells.edge id parted spells
    simpa [String.toList_append, List.append_assoc] using header
  have labelled := spells_quotedText label (spells_suffix opens)
  have parted := parted_quotedText label (parted_suffix opens)
  cases connector with
  | none =>
    rw [(free rfl).1, (free rfl).2]
    refine ⟨_, .apart label, whole ?_ ?_⟩
    · simpa [endsText] using parted
    · simpa [endsText] using labelled
  | some c =>
    have stopped := spells_nameText named.2 parted labelled
    have parted' := parted_nameText stop parted
    have started := spells_nameText named.1 parted_space (Spells.connector c parted' stopped).space
    have apart : Parted ((nameText start).toList ++ ' ' :: (c.text ++ ((nameText stop).toList ++
        ((quotedText label).toList ++ (suffix opens).toList)))) := parted_nameText start parted_space
    cases target : stop.node? with
    | none =>
      obtain rfl := bare rfl target
      rw [target] at started
      refine ⟨_, .loose start.node? c, whole ?_ ?_⟩
      · simpa [endsText, String.toList_append, List.append_assoc] using apart
      · simpa [endsText, String.toList_append, List.append_assoc, Reader.names, Reader.quoted] using started
    | some id' =>
      rw [target] at started
      refine ⟨_, .joined start.node? c id' label, whole ?_ ?_⟩
      · simpa [endsText, String.toList_append, List.append_assoc] using apart
      · simpa [endsText, String.toList_append, List.append_assoc, Reader.names, Reader.quoted] using started

namespace Element
variable {config : Config α} {e : Element α} {children : Outline α} {first : Nat} {r : Reader}

/-- The header of an element. -/
def headText (children : Outline α) (e : Element α) : String :=
  match e.content with
  | .node content => Quoted.writeId e.id ++ ": " ++ content.type ++ quotedText content.name?
  | .edge start stop =>
    Quoted.writeId e.id ++ ": edge" ++ endsText start stop e.symbol? ((e.inlined? children).map Writer.nodeText)

/-- What the header says. -/
def opening (children : Outline α) (line : Nat) (e : Element α) : OpenElement where
  id := e.id
  line := line
  head :=
    match e.content with
    | .node content => .node content.type content.name? none
    | .edge start stop => .edge start.node? stop.node? ((e.inlined? children).map Writer.nodeText)
  connector := e.symbol?
  body := .empty

theorem isConnected_eq (endpoint : Endpoint α) : endpoint.isConnected = endpoint.node?.isSome := by
  simp [Endpoint.isConnected, Endpoint.node?]

theorem isJoined_eq : e.isJoined = e.symbol?.isSome := by
  unfold symbol?
  cases e.isJoined <;> rfl

theorem symbol?_node {content : NodeContent α} (same : e.content = .node content) : e.symbol? = none := by
  rw [symbol?, isJoined, same]
  rfl

variable {start stop : Endpoint α}

/-- Without a connector on its line, no end of an edge is connected. -/
theorem loose_of_unmarked (same : e.content = .edge start stop) (unmarked : e.symbol? = none) :
    start.node? = none ∧ stop.node? = none := by
  have apart : e.isJoined = false := by
    rw [isJoined_eq, unmarked]
    rfl
  rw [isJoined, same] at apart
  simp only [isConnected_eq, Bool.or_eq_false_iff, Option.isSome_eq_false_iff, Option.isNone_iff_eq_none] at apart
  exact apart.1

/-- Behind a connector there is no label where the end is not connected. -/
theorem inlined?_of_loose (same : e.content = .edge start stop) (marked : e.symbol?.isSome) (loose : stop.node? = none) :
    e.inlined? children = none := by
  rw [inlined?, same]
  simp [isJoined_eq, isConnected_eq, marked, loose]

/-- The line of a header opens its element, or adds it at once. -/
theorem exists_header (titled : e.Titled) (children : Outline α) (opens : Bool) :
    ∃ words, Spells (e.headText children ++ suffix opens).toList words ∧
      ∀ first tokens, List.Forall₂ (Token.Shows first) words tokens →
        ∀ r length, Reader.Reads (tokens ++ [Reader.lineEnd first length]) r
          (r.headed (e.opening children first) opens) := by
  unfold Titled at titled
  unfold headText opening
  cases same : e.content with
  | node content =>
    rw [same] at titled
    have shaped : Spells.kindOf content.type.toList = .id ∨ Spells.kindOf content.type.toList = .keyword := by
      unfold Spells.kindOf
      split
      · exact .inr rfl
      · exact .inl rfl
    refine ⟨_, spells_node e.id content.name? opens titled.1, fun first tokens shows r length context more =>
      ⟨context, ?_⟩⟩
    rw [symbol?_node same, ← Reader.headed_before, List.append_assoc]
    exact Reader.run_node (Reader.isName_nameKind e.id) shaped titled.2 shows
  | edge start stop =>
    rw [same] at titled
    have bare (marked : e.symbol?.isSome) (loose : stop.node? = none) :
        (e.inlined? children).map Writer.nodeText = none := by
      rw [inlined?_of_loose same marked loose]
      rfl
    obtain ⟨ends, stands, spells⟩ := spells_edge e.id e.symbol? ((e.inlined? children).map Writer.nodeText) opens
      titled.2 (loose_of_unmarked same) bare
    refine ⟨_, spells, fun first tokens shows r length context more => ⟨context, ?_⟩⟩
    rw [← Reader.headed_before, List.append_assoc]
    exact Reader.run_edge (Reader.isName_nameKind e.id) stands shows

theorem conveys_header {indent : String} (blank : ∀ c ∈ indent.toList, Token.isBlank c = true) (titled : e.Titled)
    (children : Outline α) (opens : Bool) :
    Reader.Conveys first [indent ++ e.headText children ++ suffix opens] r
      (r.headed (e.opening children first) opens) := by
  obtain ⟨words, spells, reads⟩ := exists_header titled children opens
  rw [String.append_assoc]
  exact .indented blank spells fun tokens shows length => reads first tokens shows r length

end Element
end LiveDiagram
