/-!
# Type names

The full name of a message or enum: the segments of its package, and its path of one segment, or of
more if it is nested in other messages. `qualified` joins all segments with dots; `flat` is the name
that is left once nesting is flattened.
-/

namespace SchemaBridge

/-- The full name of a message or enum. -/
structure TypeName where
  package : List String
  path : List String
deriving DecidableEq, Inhabited

namespace TypeName

/-- The scope of a package, in which its outermost types are named. -/
def root (package : List String) : TypeName := ⟨package, []⟩

/-- The innermost segment; empty for the scope of a package. -/
def name (t : TypeName) : String := t.path.getLastD ""

def qualified (t : TypeName) : String := ".".intercalate (t.package ++ t.path)

def dottedPath (t : TypeName) : String := ".".intercalate t.path

def parent? (t : TypeName) : Option TypeName :=
  if t.path.length < 2 then none else some ⟨t.package, t.path.dropLast⟩

/-- The name of a type declared in the scope `t`. -/
def child (t : TypeName) (name : String) : TypeName := ⟨t.package, t.path ++ [name]⟩

/-- The name of the type as an outermost type of its package. -/
def flat (t : TypeName) : TypeName := ⟨t.package, [t.name]⟩

end TypeName

end SchemaBridge
