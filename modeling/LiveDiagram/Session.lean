import LiveDiagram.Reconcile
import LiveDiagram.Document.History
import LiveDiagram.TextFormat

/-! Editing sessions: the text view of one document, with its errors, and what copying and pasting remember. -/
namespace LiveDiagram

structure Session (α : Type) where
  format : TextFormat α
  config : Config α
  lines : List String
  errors : Errors
  /-- What was pasted last, and where to. -/
  pasted : Option (String × Point α)
  copiedStyle : Option Props

/-- Brings a text into a document if it has no errors, and gives the errors. -/
def Work.applyText {α : Type} [Coordinate α] (text : String) : Work α Errors := do
  let parsed ← Work.pass (Parsed.ofText Parsed.standardRules text)
  if parsed.errors.isEmpty then discard (Work.reconcile .standard parsed.forest)
  return parsed.errors

namespace Session
variable {α : Type} [Coordinate α]

/-- The lines of a text. -/
def split (text : String) : List String :=
  (Token.lines text.toList).map String.ofList

def text (s : Session α) : String :=
  "\n".intercalate s.lines

/-- Shows the document as it is, without errors. -/
def refresh (s : Session α) (d : Document α) : Except Fault (Session α) := do
  return { s with lines := ← s.format.write d d.top, errors := .none }

/-- Starts a session that shows the document. -/
def start (format : TextFormat α) (config : Config α) (d : Document α) : Except Fault (Session α) :=
  refresh ⟨format, config, [], .none, none, none⟩ d

/-- Takes up a text and its errors. The lines are taken up even if reading stops with a fault. -/
def check (s : Session α) (text : String) : Work α (Session α × Except Fault Parsed) := fun w =>
  let s := { s with lines := split text }
  let (result, context) := (s.format.read text).run w.context
  let s := match result with
    | .ok parsed => { s with errors := parsed.errors }
    | .error _ => s
  (.ok (s, result), { w with context := context })

/-- Brings a forest without errors into the document. -/
def apply (s : Session α) (parsed : Parsed) : Work α (Option Outcome) := do
  if parsed.errors.isEmpty then return some (← Work.reconcile s.config parsed.forest)
  else return none

def display (s : Session α) : List String :=
  s.format.display s.errors s.lines

/-- Where pasted content goes: to the given point, or past the last place if the same content was pasted just
before. -/
def paste (s : Session α) (content : String) (point : Point α) : Session α × Point α :=
  let place := match s.pasted with
    | some (last, previous) =>
      if last = content then ⟨previous.x + s.config.pasteOffset, previous.y + s.config.pasteOffset⟩ else point
    | none => point
  ({ s with pasted := some (content, place) }, place)

/-- The entries of metadata that make up a style. -/
def styleOf (metadata : Props) : Props :=
  Writer.styleKeys.foldl (fun style key => (metadata.get? key).elim style (style.set key)) .nil

def copyStyleOf (s : Session α) (e : Element α) : Session α :=
  { s with copiedStyle := some (styleOf e.metadata) }

/-- Gives elements the copied style in one step, edges without the text style, and says whether any changed. -/
def pasteStyleOn (s : Session α) (ids : List String) : Work α Bool := do
  match filled s.copiedStyle with
  | none => return false
  | some style =>
    let diff ← Work.transact true do
      ids.forM fun id => do
        let e ← Edit.element id
        Edit.editMetadata id (·.overlay (if e.isNode then style else style.erase "textStyle"))
      Edit.commit
    if diff.updated.isEmpty then return false
    Work.change (·.record (.single ⟨.update, diff.updated⟩))
    return true

end Session
end LiveDiagram
