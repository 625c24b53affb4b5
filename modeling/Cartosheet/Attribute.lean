import Cartosheet.Decimal.Shortest

namespace Cartosheet

inductive Operator where
  | less
  | atMost
  | equal
  | unequal
  | atLeast
  | greater
  deriving DecidableEq, Repr

namespace Operator

def symbol : Operator → String
  | less => "<"
  | atMost => "<="
  | equal => "="
  | unequal => "!="
  | atLeast => ">="
  | greater => ">"

def all : List Operator := [less, atMost, equal, unequal, atLeast, greater]

def ofSymbol? (symbol : String) : Option Operator :=
  all.find? (·.symbol = symbol)

/-- The ordering comparisons, as opposed to the two on equality. -/
def isRanged : Operator → Bool
  | equal | unequal => false
  | _ => true

/-- Whether two things that compare as `o` stand in the relation. Only `!=` holds of things that
cannot be compared. -/
def holds : Operator → Option Ordering → Bool
  | less, o => o = some .lt
  | atMost, o => o = some .lt || o = some .eq
  | equal, o => o = some .eq
  | unequal, o => o ≠ some .eq
  | atLeast, o => o = some .gt || o = some .eq
  | greater, o => o = some .gt

/-- `x op y` on numbers. -/
def evaluate (op : Operator) (x y : Binary64) : Bool :=
  op.holds (x.compare? y)

theorem ofSymbol?_symbol (op : Operator) : ofSymbol? op.symbol = some op := by
  cases op <;> decide

end Operator

/-- The right side of a test. -/
inductive Scalar where
  | number (value : Binary64)
  | string (value : String)
  deriving DecidableEq, Repr

namespace Scalar

def number? : Scalar → Option Binary64
  | number x => some x
  | string _ => none

/-- Numbers compare by value and strings by code points; a number and a string do not compare. -/
def compare? : Scalar → Scalar → Option Ordering
  | number x, number y => x.compare? y
  | string s, string t => some (compare s t)
  | _, _ => none

/-- Whole numbers below 10^15 are written as integers, so a negative zero loses its sign. -/
def text : Scalar → String
  | number x =>
    match x.whole? with
    | some z => if z.natAbs < 1000000000000000 then toString z else x.text
    | none => x.text
  | string s => "\"" ++ s ++ "\""

end Scalar

/-- A single `[property operator value]` predicate. -/
structure Test where
  property : String
  operator : Operator
  value : Scalar
  deriving DecidableEq, Repr

namespace Test

/-- The scale that a renderer draws at. -/
def scaleDenominator : String := "scale-denominator"

def isRanged (t : Test) : Bool := t.operator.isRanged

def isSimple (t : Test) : Bool := !t.operator.isRanged

def isMapScaled (t : Test) : Bool := t.property = scaleDenominator

def isNumeric (t : Test) : Bool := t.value.number?.isSome

/-- The opposite test; a ranged test has none. -/
def inverse? (t : Test) : Option Test :=
  match t.operator with
  | .equal => some { t with operator := .unequal }
  | .unequal => some { t with operator := .equal }
  | _ => none

/-- Whether a test admits a scale. A test that is not ranged admits all, a ranged test on a string
none. -/
def inRange (t : Test) (scale : Binary64) : Bool :=
  if t.isRanged then
    match t.value.number? with
    | some x => t.operator.evaluate scale x
    | none => false
  else true

def text (t : Test) : String :=
  "[" ++ t.property ++ t.operator.symbol ++ t.value.text ++ "]"

end Test

end Cartosheet
