import SchemaBridge.RosText.Line
import SchemaBridge.Schema
import SchemaBridge.Spelling

/-!
# Reading a ROS message

`parse` reads the text of a `.msg` file. The message is named after the file, its package after the
directory, where a directory `msg` counts for nothing. No name may be declared twice.

A comment line belongs to the next declaration. Comment lines before the first declaration belong to
the message if a blank line follows them, and so do those after the last declaration.
-/

namespace SchemaBridge.RosText

open Text

/-! ## The name of the file -/

/-- The parts of a path that name a directory or file. -/
def pathParts (path : String) : List String :=
  (piecesBetween (fun c => c = '/' || c = '\\') path).filter (· ≠ ".")

/-- A file's name without the ending `.msg`. -/
def fileStem (file : String) : String :=
  if ".msg".toList.isSuffixOf file.toList then
    String.ofList (file.toList.take (file.toList.length - 4))
  else file

def isMessageName (name : String) : Bool :=
  name.toList.head?.any Char.isAlpha && name.toList.all isWordChar

/-- The package of a file that lies in the given directories. -/
def packageOf (directories : List String) : List String :=
  let outer := if directories.getLast? = some "msg" then directories.dropLast else directories
  outer.getLast?.toList

/-- The package and the message that the path of a file names. -/
def namedByPath (path : String) : Except ParseFault (List String × String) :=
  let parts := pathParts path
  match parts.getLast? with
  | none => .error .emptyFileName
  | some file =>
    let stem := fileStem file
    if isMessageName stem then .ok (packageOf parts.dropLast, stem)
    else .error (.messageName stem)

theorem namedByPath_eq_ok_iff {path : String} {package : List String} {name : String} :
    namedByPath path = .ok (package, name) ↔
      ∃ file, (pathParts path).getLast? = some file ∧ fileStem file = name ∧
        isMessageName name = true ∧ packageOf (pathParts path).dropLast = package := by
  cases h : (pathParts path).getLast? with
  | none => simp [namedByPath, h]
  | some file =>
    by_cases hname : isMessageName (fileStem file) = true
    · simp only [namedByPath, h, if_pos hname, Except.ok.injEq, Prod.mk.injEq, Option.some.injEq]
      constructor
      · rintro ⟨hpackage, rfl⟩
        exact ⟨file, rfl, rfl, hname, hpackage⟩
      · rintro ⟨_, rfl, hstem, -, hpackage⟩
        exact ⟨hpackage, hstem⟩
    · simp only [namedByPath, h, if_neg hname, reduceCtorEq, false_iff]
      rintro ⟨_, hfile, rfl, hstem, -⟩
      obtain rfl := Option.some.inj hfile
      exact hname hstem

/-! ## The lines -/

/-- What the lines of a message say, the first of them being line `number` and `names` being declared
above it. -/
def readLines (file : String) : Nat → List String → List (List Char) → Except ParseError (List Line)
  | _, _, [] => .ok []
  | number, names, text :: rest =>
    match Line.read text with
    | .error e => .error ⟨file, number, e.column, String.ofList text, .line e.fault⟩
    | .ok line =>
      match line.declared? with
      | none => (readLines file (number + 1) names rest).map (line :: ·)
      | some (name, column) =>
        if name ∈ names then .error ⟨file, number, column, String.ofList text, .declaredTwice name⟩
        else (readLines file (number + 1) (name :: names) rest).map (line :: ·)

/-- A text without the byte order mark that it may begin with. -/
def withoutMark : List Char → List Char
  | '\ufeff' :: cs => cs
  | cs => cs

/-! ## The message -/

def BaseType.typeRef : BaseType → TypeRef
  | .scalar s => .scalar s
  | .named spelling => .named spelling

def ArraySuffix.bound? : ArraySuffix → Option Bound
  | .unbounded => none
  | .fixed n => some (.fixedArray n)
  | .bounded n => some (.boundedArray n)

/-- A declared field with the comments that stand above it. -/
def FieldLine.field (f : FieldLine) (above : List String) : Field :=
  { name := f.name
    type := f.type.base.typeRef
    repeated := f.type.array.isSome
    default := f.default
    bounds := (f.type.stringBound.map .boundedString).toList ++
      (f.type.array.bind ArraySuffix.bound?).toList
    comments := above ++ f.comment.toList }

/-- A declared constant with the comments that stand above it, before field number `anchor`. -/
def ConstantLine.constant (c : ConstantLine) (above : List String) (anchor : Nat) : Constant :=
  { name := c.name
    type := c.type
    value := c.value
    anchor := some anchor
    comments := above ++ c.comment.toList }

/-- A message as far as it has been read; `pending` are comments whose owner is not known yet. -/
structure Draft where
  comments : List String := []
  pending : List String := []
  fields : List Field := []
  constants : List Constant := []
deriving DecidableEq, Inhabited

def Draft.isUndeclared (d : Draft) : Bool := d.fields.isEmpty && d.constants.isEmpty

def Draft.add (d : Draft) : Line → Draft
  | .blank =>
    if d.isUndeclared then { d with comments := d.comments ++ d.pending, pending := [] } else d
  | .comment text => { d with pending := d.pending ++ [text] }
  | .constant c =>
    { d with
      pending := []
      constants := d.constants ++ [c.constant d.pending d.fields.length] }
  | .field f => { d with pending := [], fields := d.fields ++ [f.field d.pending] }

/-- A constant whose anchor is one of `count` fields, or nothing. -/
def anchoredBelow (count : Nat) (c : Constant) : Constant :=
  { c with anchor := c.anchor.filter (· < count) }

/-- The message of a draft that has all its lines. -/
def Draft.message (name : String) (d : Draft) : Message :=
  { name
    fields := d.fields
    constants := d.constants.map (anchoredBelow d.fields.length)
    comments := d.comments ++ d.pending }

def messageOfLines (name : String) (lines : List Line) : Message :=
  (lines.foldl Draft.add {}).message name

def parse (text path : String) : Except ParseError Schema :=
  match namedByPath path with
  | .error fault => .error ⟨path, 0, 0, "", fault⟩
  | .ok (package, name) =>
    match readLines path 1 [] (lines (withoutMark text.toList)) with
    | .error e => .error e
    | .ok found =>
      .ok { name := path, dialect := .ros, package, messages := [messageOfLines name found] }

end SchemaBridge.RosText
