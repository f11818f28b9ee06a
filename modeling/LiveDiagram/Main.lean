import LiveDiagram.CommandLine.Reply

/-! The program: reads arguments and files, and writes what the command line answers. -/
namespace LiveDiagram.Main

/-- How many ids of seven hexadecimal digits there are. -/
def idCount : Nat := 0x10000000

/-- Ids of seven hexadecimal digits, spread by an odd multiplier from a seed. -/
def idsFrom (seed : Nat) : IdSupply where
  name n := String.ofList (Text.hex 7 ((seed + n * 0x5deece7) % idCount))
  used := 0

def fileError (e : IO.Error) : CommandLine.FileError :=
  match e with
  | .noFileOrDirectory .. => .missing
  | .inappropriateType _ code _ => if code = 21 then .isADirectory else .notADirectory
  | .permissionDenied _ code reason | .invalidArgument _ code reason => ⟨code.toNat, reason⟩
  | other => ⟨0, toString other⟩

def inputOf (r : CommandLine.Request) : IO (Except CommandLine.Reply String) := do
  match r.file? with
  | none => return .ok (← (← IO.getStdin).readToEnd)
  | some name =>
    try return .ok (← IO.FS.readFile name)
    catch e => return .error (CommandLine.cannotRead name (fileError e))

def writeFile (reply : CommandLine.Reply) : IO CommandLine.Reply := do
  match reply.file with
  | none => return reply
  | some (name, text) =>
    try
      IO.FS.writeFile name text
      return reply
    catch e => return reply.cannotWrite name (fileError e)

/-- A text as a stream shows it. -/
def shown (stream : IO.FS.Stream) (text : String) : IO String := do
  return if ← stream.isTty then text else Text.plain text

def finish (reply : CommandLine.Reply) : IO UInt32 := do
  let reply ← writeFile reply
  IO.print (← shown (← IO.getStdout) reply.out)
  IO.eprint (reply.log ++ (← shown (← IO.getStderr) reply.err))
  return reply.code.toUInt32

def usage : String :=
  "usage: [-v] (check | format | highlight) [-f FORMAT] [-o OUTPUT] [INPUT]"

def run (arguments : List String) : IO UInt32 := do
  let formats : Formats Quantity := .standard
  match CommandLine.request formats.names arguments with
  | .error .help =>
    IO.println usage
    return 0
  | .error .usage =>
    IO.eprintln usage
    return 2
  | .error (.fault fault) =>
    IO.eprintln fault.message
    return 1
  | .ok request =>
    match ← inputOf request with
    | .error reply => finish reply
    | .ok text =>
      match CommandLine.respond formats (idsFrom (← IO.rand 0 idCount)) request text with
      | .error fault =>
        IO.eprintln fault.message
        return 1
      | .ok reply => finish reply

end LiveDiagram.Main

def main (arguments : List String) : IO UInt32 :=
  LiveDiagram.Main.run arguments
