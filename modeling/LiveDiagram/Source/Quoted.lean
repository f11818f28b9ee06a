import LiveDiagram.Source.Token

/-! How ids and texts are written so that the tokens of the line give them back. -/
namespace LiveDiagram.Quoted

/-- A character between quotes. -/
def encodeChar (c : Char) : List Char :=
  if c = '\\' then ['\\', '\\']
  else if c = '"' then ['\\', '"']
  else if c = '\n' then ['\\', 'n']
  else [c]

def quote (text : String) : String :=
  String.ofList ('"' :: text.toList.flatMap encodeChar ++ ['"'])

/-- Whether an id may stand without quotes. -/
def isPlain (id : String) : Bool :=
  !id.isEmpty && id.toList.all Token.isIdChar && !Token.keywords.contains id

def writeId (id : String) : String :=
  if isPlain id then id else quote id

end LiveDiagram.Quoted
