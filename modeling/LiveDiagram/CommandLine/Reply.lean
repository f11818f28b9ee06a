import LiveDiagram.CommandLine.Arguments
import LiveDiagram.CommandLine.Folder
import LiveDiagram.Session
import LiveDiagram.Text.ControlSequence

/-! What the command line answers to a request: an exit code, what it prints, and the file that it writes. -/
namespace LiveDiagram.CommandLine

structure Reply where
  code : Nat
  out : String
  /-- What goes to standard error in front of the errors. -/
  log : String
  err : String
  /-- The file to write, by path and content. -/
  file : Option (String × String)
deriving DecidableEq, Repr

/-- Line ends of all kinds as newlines. -/
def unifyNewlines : List Char → List Char
  | [] => []
  | '\r' :: '\n' :: rest => '\n' :: unifyNewlines rest
  | c :: rest => (if c = '\r' then '\n' else c) :: unifyNewlines rest

/-- The notes that are shown: warnings, or all of them. -/
def log (verbose : Bool) (notes : List Note) : String :=
  String.join ((notes.filter fun n => verbose || n.level = .warning).map fun n => n.line ++ "\n")

/-- Errors with their lines, counted from one. -/
def errorLines (e : Errors) : String :=
  String.join (e.toList.map fun (line, error) => "line " ++ toString (line + 1) ++ ": " ++ error ++ "\n")

def cannotRead (path : String) (e : FileError) : Reply :=
  ⟨1, "", "", "error: cannot read '" ++ path ++ "': " ++ e.message path ++ "\n", none⟩

/-- The reply when its file cannot be written. -/
def Reply.cannotWrite (r : Reply) (path : String) (e : FileError) : Reply :=
  ⟨1, r.out, r.log, r.err ++ "error: cannot write '" ++ path ++ "': " ++ e.message path ++ "\n", none⟩

/-- The reply where no terminal shows it. The log and the file keep their control sequences. -/
def Reply.plain (r : Reply) : Reply :=
  { r with out := Text.plain r.out, err := Text.plain r.err }

/-- Writes the file of a reply. -/
def Reply.deliver (r : Reply) (folder : Folder) : Reply × Folder :=
  match r.file with
  | none => (r, folder)
  | some (path, text) =>
    match folder.write path text with
    | .ok folder => (r, folder)
    | .error e => (r.cannotWrite path e, folder)

variable {α : Type} [Coordinate α]

/-- The canonical form of a forest: the text of a new document that it is brought into. -/
def canonical (format : TextFormat α) (f : Forest) : Work α String := do
  discard (Work.reconcile .standard f)
  let d ← Work.document
  return "\n".intercalate (← format.write d d.top)

def reply (format : TextFormat α) (r : Request) (text : String) : Work α Reply := do
  let parsed ← Work.pass (format.read text)
  match r.command with
  | .check =>
    if parsed.errors.isEmpty then
      return ⟨0, "ok: " ++ toString parsed.forest.roots.length ++ " top-level element(s)\n", "", "", none⟩
    else return ⟨1, "", "", errorLines parsed.errors, none⟩
  | .format =>
    if parsed.errors.isEmpty then
      let text ← canonical format parsed.forest
      match spoken r.output with
      | some path => return ⟨0, "", "", "", some (path, text)⟩
      | none => return ⟨0, text, "", "", none⟩
    else return ⟨1, "", "", errorLines parsed.errors, none⟩
  | .highlight =>
    return ⟨0, "\n".intercalate (format.display parsed.errors (Session.split text)) ++ "\n", "", "", none⟩

/-- Answers a request for a text. -/
def respond (formats : Formats α) (ids : IdSupply) (r : Request) (text : String) : Except Fault Reply := do
  let format ← formats.get r.format
  let text := String.ofList (unifyNewlines text.toList)
  let (result, w) := (reply format r text).run ⟨.empty Document.page, ⟨ids, []⟩⟩
  let reply ← result
  reply.file.forM fun (path, _) => requirePath path
  return { reply with log := log r.verbose w.context.notes }

/-- Answers a request with the files of a folder; `input` is what standard input holds. -/
def respondIn (formats : Formats α) (ids : IdSupply) (folder : Folder) (input : String) (r : Request) :
    Except Fault (Reply × Folder) := do
  let reply ← match r.file?.elim (.ok input) fun path => (folder.read path).mapError (cannotRead path) with
    | .error reply => pure reply
    | .ok text => respond formats ids r text
  let (reply, folder) := reply.deliver folder
  return (reply.plain, folder)

end LiveDiagram.CommandLine
