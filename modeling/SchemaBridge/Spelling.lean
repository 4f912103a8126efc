/-!
# Spellings of references

How a reference to a type is spelled: proto3 separates names by dots and marks an absolute name by a
dot in front, ROS separates a package from a name by a slash.
-/

namespace SchemaBridge

def withoutDots (spelling : String) : String := String.ofList (spelling.toList.dropWhile (· = '.'))

theorem withoutDots_eq_self {spelling : String} (h : spelling.toList.head? ≠ some '.') :
    withoutDots spelling = spelling := by
  have hdrop : spelling.toList.dropWhile (· = '.') = spelling.toList := by
    cases hchars : spelling.toList with
    | nil => rfl
    | cons c cs =>
      rw [hchars] at h
      exact List.dropWhile_cons_of_neg (by simpa using h)
  rw [withoutDots, hdrop, String.ofList_toList]

/-- A spelling with a dot in front of it names a type absolutely. -/
def isAbsolute (spelling : String) : Bool := spelling.toList.head? = some '.'

def dotted (spelling : String) : String :=
  String.ofList (spelling.toList.map fun c => if c = '/' then '.' else c)

def isGoogleName (name : String) : Bool := "google.protobuf.".toList.isPrefixOf name.toList

/-- The non-empty pieces of a text between the characters that satisfy `sep`. -/
def piecesBetween (sep : Char → Bool) (text : String) : List String :=
  ((text.toList.splitOnP sep).filter (¬ ·.isEmpty)).map String.ofList

def slashParts (spelling : String) : List String := piecesBetween (· = '/') spelling

/-- The segments of a package that is written with dots. -/
def packageSegments (package : String) : List String := piecesBetween (· = '.') package

end SchemaBridge
