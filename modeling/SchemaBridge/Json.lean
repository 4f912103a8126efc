/-!
# JSON text

JSON values without fractions, and their text on many lines: each member and element stands on a line
of its own, indented by two spaces for every level. Of the characters in a text only quotes,
backslashes and control characters are escaped.
-/

namespace SchemaBridge

inductive Json where
  | text (s : String)
  | number (n : Int)
  | array (items : List Json)
  | object (members : List (String × Json))
deriving Inhabited

namespace Json

/-! ## Texts -/

/-- A digit of a hexadecimal number, in lower case. -/
def hexDigit (n : Nat) : Char := Nat.digitChar (n % 16)

def escape (c : Char) : List Char :=
  match c with
  | '"' => ['\\', '"']
  | '\\' => ['\\', '\\']
  | '\x08' => ['\\', 'b']
  | '\x0c' => ['\\', 'f']
  | '\n' => ['\\', 'n']
  | '\r' => ['\\', 'r']
  | '\t' => ['\\', 't']
  | c =>
    if c.toNat < 0x20 then ['\\', 'u', '0', '0', hexDigit (c.toNat / 16), hexDigit c.toNat] else [c]

def quote (s : String) : String := "\"" ++ String.ofList (s.toList.flatMap escape) ++ "\""

/-! ## Values -/

/-- The lines of a list in brackets, a comma after each part but the last. -/
def bracket (opening closing : String) : List (List String) → List String
  | [] => [opening ++ closing]
  | parts =>
    let separated := parts.dropLast.map fun lines =>
      lines.dropLast ++ [lines.getLastD "" ++ ","]
    [opening] ++ (separated.flatten ++ parts.getLastD []).map ("  " ++ ·) ++ [closing]

/-- Some lines with a key in front of the first. -/
def withKey (key : String) : List String → List String
  | [] => []
  | first :: rest => (quote key ++ ": " ++ first) :: rest

mutual

def lines : Json → List String
  | .text s => [quote s]
  | .number n => [toString n]
  | .array items => bracket "[" "]" (itemLines items)
  | .object members => bracket "\x7b" "\x7d" (memberLines members)

def itemLines : List Json → List (List String)
  | [] => []
  | item :: items => lines item :: itemLines items

def memberLines : List (String × Json) → List (List String)
  | [] => []
  | (key, value) :: members => withKey key (lines value) :: memberLines members

end

def render (j : Json) : String := "\n".intercalate j.lines

end Json

end SchemaBridge
