namespace Cartosheet

/-- Floating-point numbers of 64 bits, kept by value: a finite one is a count of steps of 2^-1074,
the smallest there is. The sign stands apart because there are two zeros. -/
inductive Binary64 where
  | nan
  | infinite (negative : Bool)
  | finite (negative : Bool) (steps : Nat)
  deriving DecidableEq, Repr

/-- A quotient rounded to the nearest whole number, a half to the even one. -/
def roundHalfEven (n d : Nat) : Nat :=
  let q := n / d
  let r := n % d
  if 2 * r < d then q
  else if d < 2 * r then q + 1
  else q + q % 2

namespace Binary64

/-- Steps in the number one. -/
def unit : Nat := Nat.pow 2 1074

/-- The first count of steps that is too large: 2^1024 in all. -/
def limit : Nat := Nat.pow 2 2098

/-- The distance between neighbours near a count of steps: 53 binary digits are kept. -/
def spacing (steps : Nat) : Nat := Nat.pow 2 (steps.log2 - 52)

/-- The quotient `n / d` of steps rounded to a neighbour. -/
def roundSteps (n d : Nat) : Nat :=
  let gap := spacing (n / d)
  roundHalfEven n (d * gap) * gap

/-- The number nearest to `n / d`. -/
def ofRatio (negative : Bool) (n d : Nat) : Binary64 :=
  let steps := roundSteps (n * unit) d
  if steps < limit then finite negative steps else infinite negative

def ofInt (z : Int) : Binary64 :=
  ofRatio (decide (z < 0)) z.natAbs 1

def signed (negative : Bool) (steps : Nat) : Int :=
  if negative then -(steps : Int) else steps

/-- The place on the number line, infinities at its two ends. -/
def place? : Binary64 → Option (Int × Int)
  | nan => none
  | infinite negative => some (if negative then -1 else 1, 0)
  | finite negative steps => some (0, signed negative steps)

def compare? (x y : Binary64) : Option Ordering :=
  match x.place?, y.place? with
  | some a, some b => some ((compare a.1 b.1).then (compare a.2 b.2))
  | _, _ => none

def isFinite : Binary64 → Bool
  | finite _ _ => true
  | _ => false

/-- The value, if it is a whole number. -/
def whole? : Binary64 → Option Int
  | finite negative steps =>
    if steps % unit = 0 then some (signed negative (steps / unit)) else none
  | _ => none

end Binary64

end Cartosheet
