import SchemaBridge.Descriptor.Basic
import SchemaBridge.Text.Blank
import SchemaBridge.Text.Lines

/-!
# Comments of a descriptor

Comments are kept apart from the declarations: a location names a declaration by its path, which leads
from the file down by the kind of each part and its position (`childPath`). `commentsAt` finds the
comment lines of a declaration, and `commentLocation` writes a location for them.
-/

namespace SchemaBridge

open Text

/-! ## Paths -/

/-- The kinds of the parts of a path. -/
inductive PathKind where
  | fileMessage | fileEnum | messageField | messageNested | messageEnum | enumValue
deriving DecidableEq, Inhabited

def PathKind.number : PathKind → Int32
  | fileMessage => 4
  | fileEnum => 5
  | messageField => 2
  | messageNested => 3
  | messageEnum => 4
  | enumValue => 2

/-- The path of a part of the declaration at `path`. -/
def childPath (path : List Int32) (kind : PathKind) (index : Nat) : List Int32 :=
  path ++ [kind.number, Int32.ofNat index]

/-! ## Reading -/

/-- A line without the space that follows the comment mark, and without blanks at its end. -/
def commentLineText (line : List Char) : List Char :=
  match line with
  | ' ' :: rest => trimEnd rest
  | line => trimEnd line

def dropEmptyEnd (lines : List String) : List String := (lines.reverse.dropWhile (·.isEmpty)).reverse

def commentTextLines (text : String) : List String :=
  dropEmptyEnd ((lines text.toList).map fun line => String.ofList (commentLineText line))

/-- The comment lines of a location: those before the declaration, and then those after it. -/
def Location.comments (l : Location) : List String :=
  (l.leading.toList ++ l.trailing.toList).flatMap commentTextLines

/-- The comment lines of the declaration at a path: those of its last location that has any. -/
def commentsAt (locations : List Location) (path : List Int32) : List String :=
  (((locations.filter (·.path = path)).map Location.comments).filter (¬ ·.isEmpty)).getLastD []

/-! ## Writing -/

/-- A location with the given comment lines before the declaration at a path. -/
def commentLocation (path : List Int32) (comments : List String) : Location :=
  { path, span := [0, 0, 0], leading := some (unlines (comments.map (" " ++ ·))) }

/-- The locations of a declaration: none if it has no comments. -/
def commentLocations (path : List Int32) (comments : List String) : List Location :=
  if comments.isEmpty then [] else [commentLocation path comments]

end SchemaBridge
