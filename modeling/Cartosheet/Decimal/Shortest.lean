import Cartosheet.Decimal

namespace Cartosheet

namespace Decimal

/-- Powers of ten are counted from 10^-400, below every digit that is ever written. -/
def floorPlace : Nat := 400

/-- The reals that round to a count of steps, times `4 · unit · 10^400`, a scale on which both they
and the decimals are whole. The ends count if the number has an even last digit. -/
structure Neighbourhood where
  low : Nat
  centre : Nat
  high : Nat
  closed : Bool

def Neighbourhood.ofSteps (steps : Nat) : Neighbourhood :=
  let gap := Binary64.spacing steps
  -- just above a power of two the lower neighbour is only half as far
  let below := if steps = Nat.pow 2 steps.log2 ∧ 1 < gap then gap else 2 * gap
  let scale := Nat.pow 10 floorPlace
  ⟨(4 * steps - below) * scale, 4 * steps * scale, (4 * steps + 2 * gap) * scale,
    steps / gap % 2 = 0⟩

def Neighbourhood.contains (n : Neighbourhood) (x : Nat) : Bool :=
  if n.closed then n.low ≤ x && x ≤ n.high else n.low < x && x < n.high

/-- The decimal with its last digit at `place` that reads back, if there is one. -/
def atPlace (n : Neighbourhood) (place : Nat) : Option Nat :=
  let grid := Nat.pow 10 place * (4 * Binary64.unit)
  let down := n.centre / grid
  let up := down + 1
  match n.contains (down * grid), n.contains (up * grid) with
  | true, true => some (if n.centre - down * grid < up * grid - n.centre then down else up)
  | true, false => some down
  | false, true => some up
  | false, false => none

/-- The same number without zeros at the end of its digits. -/
def trimmed (digits : Nat) (exponent : Int) : Decimal :=
  if digits ≠ 0 ∧ digits % 10 = 0 then trimmed (digits / 10) (exponent + 1) else ⟨digits, exponent⟩
termination_by digits
decreasing_by omega

/-- The shortest decimal that reads back as a positive count of steps; seventeen digits always
do. -/
def shortest (steps : Nat) : Decimal :=
  let n := Neighbourhood.ofSteps steps
  let top := width (steps * Nat.pow 10 floorPlace / Binary64.unit)
  let found := (List.range 17).findSome? fun i =>
    let place := top - 1 - i
    (atPlace n place).map fun digits => trimmed digits ((place : Int) - floorPlace)
  found.getD ⟨0, 0⟩

/-- A decimal written out without an exponent. -/
def plain (d : Decimal) : List Char :=
  let ds := Nat.toDigits 10 d.digits
  if 0 ≤ d.exponent then ds ++ List.replicate d.exponent.toNat '0'
  else
    let places := (-d.exponent).toNat
    let padded := List.replicate (places + 1 - ds.length) '0' ++ ds
    padded.take (padded.length - places) ++ '.' :: padded.drop (padded.length - places)

end Decimal

/-- The number as text. -/
def Binary64.text : Binary64 → String
  | nan => "NaN"
  | infinite negative => if negative then "-inf" else "inf"
  | finite negative steps =>
    let magnitude := if steps = 0 then ['0'] else (Decimal.shortest steps).plain
    String.ofList (if negative then '-' :: magnitude else magnitude)

end Cartosheet
