import Cartosheet.Binary64

namespace Cartosheet

/-- The number `digits · 10^exponent`. -/
structure Decimal where
  digits : Nat
  exponent : Int
  deriving DecidableEq, Repr

namespace Decimal

/-- The number that a run of digits spells. -/
def number (cs : List Char) : Nat :=
  cs.foldl (fun n c => 10 * n + (c.toNat - 48)) 0

/-- How many digits it takes to write a number. -/
def width (n : Nat) : Nat := (Nat.toDigits 10 n).length

/-- The nearest binary number. A magnitude beyond 10^400 is infinite and one below 10^-400 is zero,
whatever the digits, so no larger power is ever computed. -/
def toBinary64 (negative : Bool) (d : Decimal) : Binary64 :=
  let magnitude : Int := width d.digits + d.exponent
  if d.digits = 0 ∨ magnitude < -400 then .finite negative 0
  else if 400 < magnitude then .infinite negative
  else if 0 ≤ d.exponent then .ofRatio negative (d.digits * Nat.pow 10 d.exponent.toNat) 1
  else .ofRatio negative d.digits (Nat.pow 10 (-d.exponent).toNat)

/-- An optional sign, and what follows it. -/
def splitSign : List Char → Bool × List Char
  | [] => (false, [])
  | c :: cs => if c = '-' then (true, cs) else if c = '+' then (false, cs) else (false, c :: cs)

/-- At least one digit and nothing else. -/
def digits? (cs : List Char) : Option Nat :=
  if !cs.isEmpty && cs.all Char.isDigit then some (number cs) else none

/-- A power of ten after its mark: an optional sign and digits. -/
def exponent? : List Char → Option Int
  | [] => some 0
  | c :: cs =>
    if c = 'e' || c = 'E' then
      let (negative, ds) := splitSign cs
      (digits? ds).map fun n => if negative then -(n : Int) else n
    else none

/-- Digits with an optional point among or around them, then an optional power of ten. -/
def ofUnsigned? (cs : List Char) : Option Decimal :=
  let whole := cs.takeWhile Char.isDigit
  let rest := cs.dropWhile Char.isDigit
  let afterPoint := if rest.head? = some '.' then rest.tail else []
  let fraction := afterPoint.takeWhile Char.isDigit
  let power := if rest.head? = some '.' then afterPoint.dropWhile Char.isDigit else rest
  if whole.isEmpty && fraction.isEmpty then none
  else (exponent? power).map fun e => ⟨number (whole ++ fraction), e - fraction.length⟩

end Decimal

/-- The number that a text names: a decimal, or `inf`, `infinity` or `nan` in any case, with an
optional sign. -/
def Binary64.ofText? (text : String) : Option Binary64 :=
  let (negative, cs) := Decimal.splitSign text.toList
  let word := String.ofList (cs.map Char.toLower)
  if word = "inf" || word = "infinity" then some (.infinite negative)
  else if word = "nan" then some .nan
  else (Decimal.ofUnsigned? cs).map (·.toBinary64 negative)

end Cartosheet
