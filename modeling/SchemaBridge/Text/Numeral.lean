import SchemaBridge.Text.Blank

/-!
# Integer literals

Reading the literals of integer constants. `digits?` reads an unsigned number in a base, `signed?`
one with at most one sign in front, and `integerLiteral?` a whole literal: blanks around it, a sign,
and then a decimal number or, after `0x` or `0X`, a hexadecimal one. `natural?` reads the longest run
of decimal digits at the start of a text.
-/

namespace SchemaBridge.Text

/-- The value of a digit in bases up to sixteen. -/
def digitValue? (c : Char) : Option Nat :=
  if c.isDigit then some (c.toNat - '0'.toNat)
  else if 'a' ≤ c ∧ c ≤ 'f' then some (c.toNat - 'a'.toNat + 10)
  else if 'A' ≤ c ∧ c ≤ 'F' then some (c.toNat - 'A'.toNat + 10)
  else none

def digitIn? (base : Nat) (c : Char) : Option Nat :=
  (digitValue? c).filter (· < base)

/-- The number that a run of digits adds to the number read so far. -/
def digitsFrom? (base : Nat) : Nat → List Char → Option Nat
  | value, [] => some value
  | value, c :: cs => (digitIn? base c).bind fun d => digitsFrom? base (value * base + d) cs

/-- A number of at least one digit and nothing else. -/
def digits? (base : Nat) (cs : List Char) : Option Nat :=
  if cs.isEmpty then none else digitsFrom? base 0 cs

/-- A number with at most one sign in front of it. -/
def signed? (base : Nat) : List Char → Option Int
  | '-' :: cs => (digits? base cs).map fun n => -(n : Int)
  | '+' :: cs => (digits? base cs).map Int.ofNat
  | cs => (digits? base cs).map Int.ofNat

/-- A number in decimal, or in hexadecimal after `0x` or `0X`; a sign stands before the digits. -/
def based? : List Char → Option Int
  | '0' :: 'x' :: cs => signed? 16 cs
  | '0' :: 'X' :: cs => signed? 16 cs
  | cs => signed? 10 cs

/-- An integer literal: blanks around it are ignored, and a sign may stand before the number. -/
def integerLiteral? (cs : List Char) : Option Int :=
  match trim cs with
  | '-' :: rest => (based? rest).map fun n => -n
  | '+' :: rest => based? rest
  | rest => based? rest

/-- The 32-bit integer that a literal denotes. -/
def int32Literal? (cs : List Char) : Option Int32 :=
  (integerLiteral? cs).bind fun n =>
    if Int32.minValue.toInt ≤ n ∧ n ≤ Int32.maxValue.toInt then some (Int32.ofInt n) else none

/-- The longest run of decimal digits at the start of a text, read as a number below `2 ^ 64`, and
the text after it. -/
def natural? (cs : List Char) : Option (Nat × List Char) :=
  match digits? 10 (cs.takeWhile Char.isDigit) with
  | some n => if n < UInt64.size then some (n, cs.dropWhile Char.isDigit) else none
  | none => none

end SchemaBridge.Text
