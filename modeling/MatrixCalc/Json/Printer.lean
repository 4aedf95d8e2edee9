import MatrixCalc.Json.Basic

/-!
# Writing documents

`Json.pretty` writes a document with one value or name on a line, two spaces for each level, and
nothing behind the end.  An empty array or object stays on its line.
-/

namespace MatrixCalc

namespace Json

/-- A hexadecimal digit. -/
def hexDigit (n : Nat) : Char := if n < 10 then Char.ofNat (48 + n) else Char.ofNat (87 + n)

/-- A character inside of quotes.  Quote, backslash and the characters below the space are
escaped. -/
def escape (c : Char) : List Char :=
  if c = '"' then ['\\', '"']
  else if c = '\\' then ['\\', '\\']
  else if c = '\x08' then ['\\', 'b']
  else if c = '\t' then ['\\', 't']
  else if c = '\n' then ['\\', 'n']
  else if c = '\x0c' then ['\\', 'f']
  else if c = '\r' then ['\\', 'r']
  else if c < ' ' then ['\\', 'u', '0', '0', hexDigit (c.toNat / 16), hexDigit (c.toNat % 16)]
  else [c]

/-- A text in quotes. -/
def quote (text : String) : String :=
  String.ofList ('"' :: text.toList.flatMap escape ++ ['"'])

/-- The start of a line. -/
def indent (level : Nat) : String := "\n" ++ String.ofList (List.replicate (2 * level) ' ')

/-- Lines between brackets; `level` is the level of the line on which the opening bracket stands. -/
def block (opening closing : String) (level : Nat) : List String → String
  | [] => opening ++ closing
  | lines =>
    opening ++ indent (level + 1) ++ (("," ++ indent (level + 1)).intercalate lines) ++
      indent level ++ closing

mutual

/-- The text of a document on a line of the given level. -/
def prettyAt (level : Nat) : Json → String
  | null => "null"
  | garbled => "null"
  | bool true => "true"
  | bool false => "false"
  | number numeral => numeral
  | string text => quote text
  | array items => block "[" "]" level (prettyItems (level + 1) items)
  | object fields => block "\x7b" "\x7d" level (prettyFields (level + 1) fields)

/-- The texts of values. -/
def prettyItems (level : Nat) : List Json → List String
  | [] => []
  | item :: items => prettyAt level item :: prettyItems level items

/-- The texts of named values. -/
def prettyFields (level : Nat) : List (String × Json) → List String
  | [] => []
  | (name, value) :: fields =>
    (quote name ++ ": " ++ prettyAt level value) :: prettyFields level fields

end

/-- The text of a document. -/
def pretty (document : Json) : String := prettyAt 0 document

end Json

end MatrixCalc
