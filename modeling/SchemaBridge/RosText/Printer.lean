import SchemaBridge.Schema
import SchemaBridge.Text.Lines

/-!
# Writing a ROS message

`render` writes a message as the text of a `.msg` file: a header, the comments of the message, the
fields, and then the constants. A constant with comments starts a new block. References to types of
the message's own package are written without the package.
-/

namespace SchemaBridge.RosText

open Text

/-- The first line of every generated file. -/
def header : String := "# This file was generated. DO NOT EDIT!"

def commentLines (comments : List String) : List String := comments.map (commentLine "#")

/-- The spelling of a name in a file of package `package`. -/
def nameText (package : List String) (name : TypeName) : String :=
  if name.package = [] ∨ name.package = package then name.name
  else "/".intercalate name.package ++ "/" ++ name.name

/-- The spelling of a type in a file of package `package`. -/
def typeText (package : List String) : TypeRef → String
  | .scalar s => s.keyword
  | .wellKnown w => w.rosName
  | .message name => nameText package name
  | .enum name => nameText package name
  | .named spelling => spelling

def fieldText (package : List String) (f : Field) : String :=
  typeText package f.type ++ (if f.repeated then "[]" else "") ++ " " ++ f.name

def constantText (c : Constant) : String := c.type.keyword ++ " " ++ c.name ++ "=" ++ c.value

def fieldLines (package : List String) (f : Field) : List String :=
  commentLines f.comments ++ [fieldText package f]

def constantLines (c : Constant) : List String :=
  (if c.comments.isEmpty then [] else "" :: commentLines c.comments) ++ [constantText c]

def messageLines (package : List String) (m : Message) : List String :=
  [header, "", "# " ++ m.name] ++ commentLines m.comments ++ m.fields.flatMap (fieldLines package) ++
    m.constants.flatMap constantLines

/-- The text of a message in a file of package `package`. -/
def render (package : List String) (m : Message) : String := unlines (messageLines package m)

end SchemaBridge.RosText
