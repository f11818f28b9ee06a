import LiveDiagram.TextFormat

/-! What the command line asks for: to `check`, `format` or `highlight` a diagram text. General options stand
before the command and options of the command behind it. -/
namespace LiveDiagram.CommandLine

inductive Command
  | check
  | format
  | highlight
deriving DecidableEq, Repr

structure Request where
  verbose : Bool
  command : Command
  /-- The file to read; none and the empty name and a hyphen stand for standard input. -/
  input : Option String
  output : Option String
  format : String
deriving DecidableEq, Repr

/-- Why no command is run. -/
inductive Refusal
  | usage
  | help
  | fault (f : Fault)
deriving DecidableEq, Repr

/-- An option that takes no value, or one that does. -/
inductive OptionName
  | verbose
  | help
  | output
  | format
deriving DecidableEq, Repr

def OptionName.takesValue : OptionName → Bool
  | .output | .format => true
  | .verbose | .help => false

def longOption? (name : List Char) : Option OptionName :=
  if name = "--verbose".toList then some .verbose
  else if name = "--help".toList then some .help
  else if name = "--output".toList then some .output
  else if name = "--format".toList then some .format
  else none

def shortOption? (c : Char) : Option OptionName :=
  if c = 'v' then some .verbose
  else if c = 'o' then some .output
  else if c = 'f' then some .format
  else none

/-- Arguments as options with their values and as plain words. -/
structure Arguments where
  options : List (OptionName × String)
  words : List String
deriving DecidableEq, Repr

/-- A group of one-letter options; one that takes a value takes the rest of the group or the next argument. -/
def shortOptions (allowed : OptionName → Bool) (next : List String) :
    List Char → Option (List (OptionName × String) × List String)
  | [] => some ([], next)
  | c :: rest => do
    let option ← (shortOption? c).filter allowed
    if option.takesValue then
      match rest, next with
      | [], value :: next => return ([(option, value)], next)
      | [], [] => none
      | attached, next => return ([(option, String.ofList attached)], next)
    else
      let (more, next) ← shortOptions allowed next rest
      return ((option, "") :: more, next)

/-- An option with two hyphens, with a value after an equals sign or as the next argument. -/
def longOption (allowed : OptionName → Bool) (argument : List Char) (next : List String) :
    Option (List (OptionName × String) × List String) := do
  let name := argument.takeWhile (· ≠ '=')
  let option ← (longOption? name).filter allowed
  match option.takesValue, argument.dropWhile (· ≠ '='), next with
  | true, _ :: value, next => return ([(option, String.ofList value)], next)
  | true, [], value :: next => return ([(option, value)], next)
  | true, [], [] => none
  | false, [], next => return ([(option, "")], next)
  | false, _ :: _, _ => none

/-- Reads arguments; where options and words may not be mixed, the first word ends the options. Each of `fuel`
steps takes one argument at least. -/
def readArguments (allowed : OptionName → Bool) (mixed : Bool) : Nat → List String → Option Arguments
  | 0, words => some ⟨[], words⟩
  | _, [] => some ⟨[], []⟩
  | fuel + 1, argument :: rest =>
    match argument.toList with
    | '-' :: '-' :: [] => some ⟨[], rest⟩
    | '-' :: '-' :: name => do
      let (options, rest) ← longOption allowed ('-' :: '-' :: name) rest
      let more ← readArguments allowed mixed fuel rest
      return { more with options := options ++ more.options }
    | '-' :: c :: name => do
      let (options, rest) ← shortOptions allowed rest (c :: name)
      let more ← readArguments allowed mixed fuel rest
      return { more with options := options ++ more.options }
    | _ =>
      if mixed then do
        let more ← readArguments allowed mixed fuel rest
        return { more with words := argument :: more.words }
      else some ⟨[], argument :: rest⟩

def Arguments.value? (a : Arguments) (option : OptionName) : Option String :=
  ((a.options.filter (·.1 = option)).getLast?).map Prod.snd

def command? (name : String) : Option Command :=
  if name = "check" then some .check
  else if name = "format" then some .format
  else if name = "highlight" then some .highlight
  else none

/-- The options of a command. -/
def allows : Command → OptionName → Bool
  | _, .help | _, .format => true
  | .format, .output => true
  | _, _ => false

def Arguments.asksHelp (a : Arguments) : Bool :=
  (a.value? .help).isSome

/-- Whether a path can name a file at all. -/
def requirePath (path : String) : Except Fault Unit :=
  if path.contains '\x00' then .error .nullInPath else .ok ()

/-- The request that the arguments make, given the names of the formats. -/
def request (formats arguments : List String) : Except Refusal Request := do
  let some general := readArguments (fun option => option = .verbose || option = .help) false
    (arguments.length + 1) arguments | throw .usage
  if general.asksHelp then throw .help
  let name :: rest := general.words | throw .usage
  let some command := command? name | throw .usage
  let some special := readArguments (allows command) true (rest.length + 1) rest | throw .usage
  if special.asksHelp then throw .help
  let format := (special.value? .format).getD TextFormat.standardName
  if !formats.contains format then throw .usage
  special.words.head?.forM fun input => (requirePath input).mapError .fault
  let verbose := (general.value? .verbose).isSome
  match special.words with
  | [] => return ⟨verbose, command, none, special.value? .output, format⟩
  | [input] => return ⟨verbose, command, some input, special.value? .output, format⟩
  | _ => throw .usage

/-- The file to read, if it is not standard input. -/
def Request.file? (r : Request) : Option String :=
  r.input.filter fun name => !name.isEmpty && name ≠ "-"

end LiveDiagram.CommandLine
