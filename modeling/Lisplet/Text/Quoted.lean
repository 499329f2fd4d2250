/-
# Lisplet.Text.Quoted -- the inside of a string literal

Between its double quotes a string is written with five escapes: `\n`, `\t`, `\r`, `\\` and `\"`.
`escape` writes a content and `decoded` says what a backslash followed by a character stands for; a
backslash before any other character stands for itself.
-/

namespace Lisplet.Text

/-- The written form of one character. -/
def escapeChar (c : Char) : List Char :=
  if c = '\n' then ['\\', 'n']
  else if c = '\t' then ['\\', 't']
  else if c = '\r' then ['\\', 'r']
  else if c = '\\' then ['\\', '\\']
  else if c = '"' then ['\\', '"']
  else [c]

/-- The written form of a content. -/
def escape (content : List Char) : List Char := content.flatMap escapeChar

/-- A content between double quotes, as a text. -/
def quoted (content : String) : String :=
  String.ofList ('"' :: (escape content.toList ++ ['"']))

/-- What a backslash followed by `c` stands for. -/
def decoded (c : Char) : List Char :=
  if c = 'n' then ['\n']
  else if c = 't' then ['\t']
  else if c = 'r' then ['\r']
  else if c = '\\' then ['\\']
  else if c = '"' then ['"']
  else ['\\', c]

end Lisplet.Text
