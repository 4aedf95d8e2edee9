import MatrixCalc.Json.Numeral

/-!
# Documents

`Json` is a document as a tree.  Numbers keep the text of their numeral, because the same numeral
can be wanted as an integer or as a double.
-/

namespace MatrixCalc

/-- A document. -/
inductive Json where
  /-- Nothing. -/
  | null
  /-- A truth value. -/
  | bool (value : Bool)
  /-- A number, by its numeral. -/
  | number (numeral : String)
  /-- A text. -/
  | string (text : String)
  /-- Values in order. -/
  | array (items : List Json)
  /-- Named values in order; a name may occur again. -/
  | object (fields : List (String × Json))
  /-- A string with half of a surrogate pair, or an object with such a name.  It is well formed, but
  it spells no text. -/
  | garbled

namespace Json

/-- The text of a string. -/
def text? : Json → Option String
  | string text => some text
  | _ => none

/-- The values of an array. -/
def items? : Json → Option (List Json)
  | array items => some items
  | _ => none

/-- The named values of an object. -/
def fields? : Json → Option (List (String × Json))
  | object fields => some fields
  | _ => none

/-- A number as a double, as `read` reads its numeral. -/
def float? (read : Numeral → Option Float) : Json → Option Float
  | number numeral => (Numeral.ofString? numeral).bind read
  | _ => none

/-- A number as an integer of 64 bits. -/
def int64? : Json → Option Int64
  | number numeral => (Numeral.ofString? numeral).bind Numeral.toInt64?
  | _ => none

end Json

end MatrixCalc
