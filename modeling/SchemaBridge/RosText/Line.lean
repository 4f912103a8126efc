import SchemaBridge.Error
import SchemaBridge.Scalar
import SchemaBridge.Text.Blank
import SchemaBridge.Text.Lines
import SchemaBridge.Text.Numeral

/-!
# Lines of a ROS message

A line is blank, a comment, a field `TYPE NAME`, or a constant `TYPE NAME=VALUE`.

* The type of a field is a scalar keyword, after which `string` and `wstring` may have a bound `<=N`,
  or one to three identifiers joined by `/`. It may end in `[]`, `[N]` or `[<=N]`.
* A field may have a default value after its name.
* The value of a `string` constant is the whole rest of the line; every other declaration may end in a
  comment.

`Line.read` classifies a line. Spaces and tabs separate the parts of a declaration (`isGap`), while
values and comments lose the blanks of any kind around them.
-/

namespace SchemaBridge.RosText

open Text

/-! ## What a line can be -/

/-- The type of a field without bound and array suffix. -/
inductive BaseType where
  | scalar (s : Scalar)
  | named (spelling : String)
deriving DecidableEq, Inhabited

inductive ArraySuffix where
  | unbounded
  | fixed (n : Nat)
  | bounded (n : Nat)
deriving DecidableEq, Inhabited

structure FieldType where
  base : BaseType
  stringBound : Option Nat := none
  array : Option ArraySuffix := none
deriving DecidableEq, Inhabited

/-- A field as it is declared; columns are counted in bytes from one. -/
structure FieldLine where
  type : FieldType
  name : String
  nameColumn : Nat
  default : Option String := none
  comment : Option String := none
deriving DecidableEq, Inhabited

/-- A constant as it is declared; columns are counted in bytes from one. -/
structure ConstantLine where
  type : Scalar
  name : String
  nameColumn : Nat
  value : String
  comment : Option String := none
deriving DecidableEq, Inhabited

inductive Line where
  | blank
  | comment (text : String)
  | constant (c : ConstantLine)
  | field (f : FieldLine)
deriving DecidableEq, Inhabited

/-! ## Words, gaps and numbers -/

def isWordStart (c : Char) : Bool := c.isAlpha || c = '_'

def isWordChar (c : Char) : Bool := c.isAlphanum || c = '_'

def isGap (c : Char) : Bool := c = ' ' || c = '\t'

/-- The identifier that a text begins with, and the text after it. -/
def identifier? : List Char → Option (List Char × List Char)
  | [] => none
  | c :: cs =>
    if isWordStart c then some (c :: cs.takeWhile isWordChar, cs.dropWhile isWordChar) else none

/-- The text after the spaces and tabs that it begins with, of which there must be one. -/
def gap? : List Char → Option (List Char)
  | [] => none
  | c :: cs => if isGap c then some (cs.dropWhile isGap) else none

/-- What `part` reads at the start of a text, or nothing; and the text after it. -/
def optionally {α : Type} (part : List Char → Option (α × List Char)) (cs : List Char) :
    Option α × List Char :=
  match part cs with
  | some (a, rest) => (some a, rest)
  | none => (none, cs)

/-- The column in `line` at which its ending `rest` begins. -/
def columnOf (line rest : List Char) : Nat := byteLength line - byteLength rest + 1

/-! ## Types -/

/-- The bound `<=N` that a text begins with. -/
def lengthBound? : List Char → Option (Nat × List Char)
  | '<' :: '=' :: cs => natural? cs
  | _ => none

/-- A suffix whose closing bracket comes next. -/
def closed? (suffix : Nat → ArraySuffix) : Option (Nat × List Char) → Option (ArraySuffix × List Char)
  | some (n, ']' :: rest) => some (suffix n, rest)
  | _ => none

def arraySuffix? : List Char → Option (ArraySuffix × List Char)
  | '[' :: ']' :: rest => some (.unbounded, rest)
  | '[' :: '<' :: '=' :: cs => closed? .bounded (natural? cs)
  | '[' :: cs => closed? .fixed (natural? cs)
  | _ => none

/-- At most `count` parts `/identifier` that a text begins with. -/
def slashWords : Nat → List Char → List Char × List Char
  | count + 1, '/' :: cs =>
    match identifier? cs with
    | some (word, rest) =>
      let (words, rest) := slashWords count rest
      ('/' :: word ++ words, rest)
    | none => ([], '/' :: cs)
  | _, cs => ([], cs)

/-- The base type that a text begins with, and the bound of a string type. -/
def baseType? (cs : List Char) : Option ((BaseType × Option Nat) × List Char) :=
  match identifier? cs with
  | none => none
  | some (word, rest) =>
    match Scalar.ofRosKeyword? (String.ofList word) with
    | some s =>
      if s.isText then
        let (bound, rest) := optionally lengthBound? rest
        some ((.scalar s, bound), rest)
      else some ((.scalar s, none), rest)
    | none =>
      let (words, rest) := slashWords 2 rest
      some ((.named (String.ofList (word ++ words)), none), rest)

def fieldType? (cs : List Char) : Option (FieldType × List Char) :=
  match baseType? cs with
  | none => none
  | some ((base, stringBound), rest) =>
    let (array, rest) := optionally arraySuffix? rest
    some ({ base, stringBound, array }, rest)

/-! ## Comments and values -/

def comment? : List Char → Option String
  | '#' :: cs => some (String.ofList (trim (cs.dropWhile (· = '#'))))
  | _ => none

/-- The text before the first comment mark, without the blanks around it. -/
def valueText (cs : List Char) : List Char := trim (cs.takeWhile (· ≠ '#'))

/-- The default value after a field's name: some text that does not begin with an equals sign. -/
def default? (cs : List Char) : Option (String × List Char) :=
  match gap? cs with
  | none => none
  | some rest =>
    let value := valueText rest
    if value.isEmpty || value.head? = some '=' then none
    else some (String.ofList value, rest.dropWhile (· ≠ '#'))

/-- The comment that ends a declaration, and what is left of the line. -/
def lastComment (cs : List Char) : Option String × List Char :=
  match comment? (cs.dropWhile isGap) with
  | some text => (some text, [])
  | none => (none, cs)

/-- The text after the equals sign that comes next. -/
def afterEquals? (cs : List Char) : Option (List Char) :=
  match cs.dropWhile isGap with
  | '=' :: rest => some rest
  | _ => none

/-! ## Declarations -/

/-- The constant that ends the line `line` from `start` on. -/
def constantLine? (line start : List Char) : Option ConstantLine := do
  let (word, rest) ← identifier? start
  let type ← Scalar.ofRosKeyword? (String.ofList word)
  let named ← gap? rest
  let (name, rest) ← identifier? named
  let literal ← afterEquals? rest
  let head : ConstantLine :=
    { type, name := String.ofList name, nameColumn := columnOf line named, value := "" }
  if type = .string then some { head with value := String.ofList (trim literal) }
  else
    let value := valueText literal
    if value.isEmpty then none
    else
      some
        { head with
          value := String.ofList value
          comment := comment? (literal.dropWhile (· ≠ '#')) }

/-- The field that the line `line` declares from `start` on, and what is left of the line; an error
is the text at which no field could be read on. -/
def fieldLine (line start : List Char) : Except (List Char) (FieldLine × List Char) :=
  match fieldType? start with
  | none => .error start
  | some (type, rest) =>
    match gap? rest with
    | none => .error rest
    | some named =>
      match identifier? named with
      | none => .error named
      | some (name, rest) =>
        let (default, rest) := optionally default? rest
        let (comment, rest) := lastComment rest
        .ok ({ type, name := String.ofList name, nameColumn := columnOf line named, default, comment },
          rest)

def leftOverFault (text : List Char) : LineFault :=
  if text.head? = some '=' then .constantType else .leftOver (String.ofList (trimEnd text))

/-- The declaration on the line `line` from `start` on. -/
def declaration (line start : List Char) : Except LineError Line :=
  match constantLine? line start with
  | some c => .ok (.constant c)
  | none =>
    match fieldLine line start with
    | .error rest => .error ⟨columnOf line rest, .noDeclaration⟩
    | .ok (f, rest) =>
      match trimStart rest with
      | [] => .ok (.field f)
      | left => .error ⟨columnOf line left, leftOverFault left⟩

def isLineEnd (c : Char) : Bool := c = '\r' || c = '\n'

/-- What a line of a ROS message says. -/
def Line.read (text : List Char) : Except LineError Line :=
  let line := dropEndWhile isLineEnd text
  let start := trimStart line
  if start.isEmpty then .ok .blank
  else
    match comment? start with
    | some text => .ok (.comment text)
    | none => declaration line start

/-- The name that a line declares, and its column. -/
def Line.declared? : Line → Option (String × Nat)
  | .constant c => some (c.name, c.nameColumn)
  | .field f => some (f.name, f.nameColumn)
  | _ => none

end SchemaBridge.RosText
