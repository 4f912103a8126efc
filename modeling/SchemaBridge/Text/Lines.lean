/-!
# Lines of a text

`lines` cuts a text at its line feeds; a carriage return just before a line feed belongs to the
line's end, and a last line is counted only if it is not empty. `unlines` writes each line with a
line feed after it. `byteLength` is the measure in which columns are counted, and `commentLine` writes
a line of a comment after its mark.
-/

namespace SchemaBridge.Text

/-- A line without the one carriage return that may end it. -/
def dropReturn (line : List Char) : List Char :=
  if line.getLast? = some '\r' then line.dropLast else line

/-- The lines of a text, without their ends. -/
def lines (cs : List Char) : List (List Char) :=
  let pieces := cs.splitOn '\n'
  let last := pieces.getLastD []
  pieces.dropLast.map dropReturn ++ if last.isEmpty then [] else [last]

/-- The lines one after the other, each with a line feed after it. -/
def unlines : List String → String
  | [] => ""
  | line :: rest => line ++ "\n" ++ unlines rest

def byteLength (cs : List Char) : Nat := cs.foldr (fun c n => c.utf8Size + n) 0

/-- A comment line: the mark, and the text after a space unless it is empty. -/
def commentLine (mark text : String) : String := if text.isEmpty then mark else mark ++ " " ++ text

end SchemaBridge.Text
