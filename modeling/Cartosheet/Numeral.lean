import Cartosheet.Decimal.Shortest

namespace Cartosheet

def leastInteger : Int := -9223372036854775808

def greatestInteger : Int := 9223372036854775807

/-- An integer of 64 bits with an optional sign. -/
def integerOfText? (text : String) : Option Int :=
  let (negative, cs) := Decimal.splitSign text.toList
  match Decimal.digits? cs with
  | none => none
  | some n =>
    let z : Int := if negative then -(n : Int) else n
    if leastInteger ≤ z ∧ z ≤ greatestInteger then some z else none

/-- An integer of 64 bits where the text is one, otherwise a finite binary number. -/
inductive Numeral where
  | integer (value : Int)
  | float (value : Binary64)
  deriving DecidableEq, Repr

namespace Numeral

def ofText? (text : String) : Option Numeral :=
  match integerOfText? text with
  | some z => some (integer z)
  | none =>
    match Binary64.ofText? text with
    | some x => if x.isFinite then some (float x) else none
    | none => none

def toBinary64 : Numeral → Binary64
  | integer z => .ofInt z
  | float x => x

def text : Numeral → String
  | integer z => toString z
  | float x => x.text

end Numeral

end Cartosheet
