import LiveDiagram.Assoc
import LiveDiagram.Text.Literal

/-! Folders: files by name, and what stands in the way of reading or writing one. A path starts in the folder,
or at the root with a slash; outside the folder there are directories and the empty device. -/
namespace LiveDiagram.CommandLine

/-- Why a file cannot be read or written. -/
structure FileError where
  code : Nat
  reason : String
deriving DecidableEq, Repr

namespace FileError

def missing : FileError := ⟨2, "No such file or directory"⟩

def notADirectory : FileError := ⟨20, "Not a directory"⟩

def isADirectory : FileError := ⟨21, "Is a directory"⟩

def tooLong : FileError := ⟨36, "File name too long"⟩

def message (e : FileError) (path : String) : String :=
  "[Errno " ++ toString e.code ++ "] " ++ e.reason ++ ": " ++ Text.literal path

end FileError

/-- Files with their names and contents, side by side. -/
structure Folder where
  files : List (String × String)
deriving DecidableEq, Repr

namespace Folder

/-- Directories by their places: the folder itself, the root, or one that stands at the root. -/
inductive Directory
  | folder
  | root
  | named (name : String)
deriving DecidableEq, Repr

/-- Where a path leads: to a directory, to a file, to the empty device, or to a name that is still free. -/
inductive Place
  | directory (d : Directory)
  | file (name : String)
  | device
  | vacant (name : String)
deriving DecidableEq, Repr

/-- The most bytes that a name may have. -/
def nameLimit : Nat := 255

/-- The most bytes that a path may have. -/
def pathLimit : Nat := 4095

/-- The directories at the root. -/
def rootNames : List String :=
  ["bin", "boot", "dev", "etc", "home", "lib", "media", "mnt", "opt", "proc", "root", "run", "sbin", "srv", "sys",
   "tmp", "usr", "var"]

/-- The directory around a directory; folders stand among temporary files. -/
def parent : Directory → Directory
  | .folder => .named "tmp"
  | .root | .named _ => .root

/-- What a directory has under a name. -/
def entry (f : Folder) (d : Directory) (name : String) : Except FileError Place :=
  match d with
  | .folder => .ok (if Assoc.contains f.files name then .file name else .vacant name)
  | .root => if rootNames.contains name then .ok (.directory (.named name)) else .error .missing
  | .named directory => if directory = "dev" && name = "null" then .ok .device else .error .missing

/-- One step of a path. Only a directory leads on. -/
def step (f : Folder) (place : Place) (segment : String) : Except FileError Place :=
  match place with
  | .file _ | .device => .error .notADirectory
  | .vacant _ => .error .missing
  | .directory d =>
    if segment = "" || segment = "." then .ok place
    else if segment = ".." then .ok (.directory (parent d))
    else if nameLimit < segment.utf8ByteSize then .error .tooLong
    else f.entry d segment

/-- Follows the segments of a path; the first is empty if the path starts with a slash. -/
def follow (f : Folder) (segments : List String) : Except FileError Place :=
  segments.foldlM (step f) (.directory (if segments.head? = some "" then .root else .folder))

/-- The segments of a path that is not too long. -/
def segments (path : String) : Except FileError (List String) :=
  if pathLimit < path.utf8ByteSize then .error .tooLong else .ok (path.splitOn "/")

def read (f : Folder) (path : String) : Except FileError String := do
  match ← f.follow (← segments path) with
  | .file name => return (Assoc.get? f.files name).getD ""
  | .device => return ""
  | .vacant _ => throw .missing
  | .directory _ => throw .isADirectory

/-- Writes a file, a new one where the name is free. A path that ends in a slash asks for a directory, of which
the last name is not looked up. -/
def write (f : Folder) (path text : String) : Except FileError Folder := do
  let segments ← segments path
  if segments.getLast? = some "" then
    match ← f.follow (segments.reverse.dropWhile (· = "")).reverse.dropLast with
    | .directory _ => throw .isADirectory
    | .file _ | .device => throw .notADirectory
    | .vacant _ => throw .missing
  else
    match ← f.follow segments with
    | .directory _ => throw .isADirectory
    | .file name | .vacant name => return ⟨Assoc.put f.files name text⟩
    | .device => return f

end Folder
end LiveDiagram.CommandLine
