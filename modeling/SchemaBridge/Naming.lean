/-!
# Names of generated files and values

`snakeCase` writes a name in lower case with `_` between its words: `PoseStamped` is
`pose_stamped`, `HTTPServer` is `http_server`, `Pose2D` is `pose2_d`. Files are named after the
message they hold and lie in the directory of their package (`rosFileName`, `protoFileName`).
Letters and digits are those of ASCII, the only ones that identifiers have.
-/

namespace SchemaBridge

/-- Whether a word ends between `prev` and `c`; `next` is the character after `c`. -/
def endsWord (prev c : Char) (next : Option Char) : Bool :=
  c.isUpper && (prev.isLower || prev.isDigit || (prev != '_' && next.any Char.isLower))

/-- The rest of a name in snake case, `prev` being the character before it. -/
def snakeAfter (prev : Char) : List Char → List Char
  | [] => []
  | c :: cs =>
    let rest := c.toLower :: snakeAfter c cs
    if endsWord prev c cs.head? then '_' :: rest else rest

def snakeCase (name : String) : String :=
  match name.toList with
  | [] => ""
  | c :: cs => String.ofList (c.toLower :: snakeAfter c cs)

def upperSnakeCase (name : String) : String :=
  String.ofList ((snakeCase name).toList.map Char.toUpper)

/-- A file in the directory of a package. -/
def inPackage (package : List String) (file : String) : String :=
  "/".intercalate (package ++ [file])

/-- The `.msg` file that holds a message. -/
def rosFileName (package : List String) (message : String) : String :=
  inPackage package (message ++ ".msg")

/-- The `.proto` file that holds a message. -/
def protoFileName (package : List String) (message : String) : String :=
  inPackage package (snakeCase message ++ ".proto")

end SchemaBridge
