import LiveDiagram.Text.Word

/-! Lines of diagram text as markup fragments, with strings, body keywords and braces in spans. -/
namespace LiveDiagram.Highlight

inductive SpanKind
  | string
  | keyword
  | bracket
deriving DecidableEq, Repr

/-- A stretch of a line, marked or plain. -/
structure Stretch where
  kind : Option SpanKind
  text : List Char
deriving DecidableEq, Repr

/-- How many characters a quoted string takes behind its opening quote. A backslash takes the next character
with it; one before a newline or at the end of the line ends the string. -/
def quotedLength : List Char → Nat
  | [] => 0
  | '"' :: _ => 1
  | '\\' :: c :: rest => if c = '\n' then 0 else quotedLength rest + 2
  | ['\\'] => 0
  | _ :: rest => quotedLength rest + 1

def keywords : List (List Char) :=
  ["props:".toList, "metadata:".toList, "stylesheet:".toList, "label:".toList]

/-- The body keyword with its colon that a text starts with. -/
def keyword? (text : List Char) : Option (List Char) :=
  keywords.find? (·.isPrefixOf text)

/-- The stretch that starts with `c`; a keyword does not start inside a word. -/
def stretch (before : Option Char) (c : Char) (rest : List Char) : Option SpanKind × Nat :=
  if c = '"' then (some .string, quotedLength rest)
  else if c = '\x7b' || c = '\x7d' then (some .bracket, 0)
  else if before.any Text.isWord then (none, 0)
  else match keyword? (c :: rest) with
    | some word => (some .keyword, word.length - 1)
    | none => (none, 0)

def stretches (before : Option Char) : List Char → List Stretch
  | [] => []
  | c :: rest =>
    let (kind, more) := stretch before c rest
    let text := c :: rest.take more
    ⟨kind, text⟩ :: stretches text.getLast? (rest.drop more)
termination_by text => text.length
decreasing_by simp only [List.length_drop, List.length_cons]; omega

/-- A character as markup content. -/
def escapeChar (c : Char) : List Char :=
  if c = '&' then "&amp;".toList
  else if c = '<' then "&lt;".toList
  else if c = '>' then "&gt;".toList
  else [c]

/-- A character as part of a quoted attribute. -/
def escapeAttributeChar (c : Char) : List Char :=
  if c = '"' then "&quot;".toList
  else if c = '\'' then "&#x27;".toList
  else escapeChar c

def SpanKind.className : SpanKind → String
  | .string => "syntax-string"
  | .keyword => "syntax-keyword"
  | .bracket => "syntax-bracket"

def Stretch.render (s : Stretch) : List Char :=
  let content := s.text.flatMap escapeChar
  match s.kind with
  | none => content
  | some kind => "<span class=\"".toList ++ kind.className.toList ++ "\">".toList ++ content ++ "</span>".toList

def renderLine (line : List Char) : List Char :=
  (stretches none line).flatMap Stretch.render

/-- A fragment wrapped as an error that carries its message as a title. -/
def renderError (message : String) (fragment : List Char) : List Char :=
  "<span class=\"syntax-error\" title=\"".toList ++ message.toList.flatMap escapeAttributeChar ++ "\">".toList ++
    fragment ++ "</span>".toList

/-- One fragment for each line; lines count from `first`. -/
def renderLines (error? : Int → Option String) (first : Nat) : List String → List String
  | [] => []
  | line :: rest =>
    let fragment := renderLine line.toList
    let fragment := match error? first with
      | some message => renderError message fragment
      | none => fragment
    String.ofList fragment :: renderLines error? (first + 1) rest

def render (error? : Int → Option String) (lines : List String) : List String :=
  renderLines error? 0 lines

end LiveDiagram.Highlight
