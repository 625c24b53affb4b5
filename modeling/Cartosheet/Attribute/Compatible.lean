import Cartosheet.Attribute

namespace Cartosheet

/-- One end of an interval. -/
inductive Bound where
  | unbounded
  | closed (value : Scalar)
  | excluded (value : Scalar)
  deriving DecidableEq, Repr

namespace Bound

/-- The value at the end, and whether it is left out itself. -/
def edge? : Bound → Option (Scalar × Bool)
  | unbounded => none
  | closed v => some (v, false)
  | excluded v => some (v, true)

/-- Nothing lies both above the bound `lower` and below the bound `upper`. -/
def exceeds (lower upper : Bound) : Bool :=
  match lower.edge?, upper.edge? with
  | some (l, lowerOut), some (u, upperOut) =>
    match l.compare? u with
    | some .gt => true
    | some .eq => lowerOut || upperOut
    | _ => false
  | _, _ => false

end Bound

/-- The values that a test admits. -/
inductive Admitted where
  | interval (lower upper : Bound)
  | allBut (hole : Scalar)
  deriving DecidableEq, Repr

namespace Admitted

/-- The interval is one point, and that point is the hole. -/
def isPoint (lower upper : Bound) (hole : Scalar) : Bool :=
  match lower, upper with
  | .closed l, .closed u => l.compare? u = some .eq && l.compare? hole = some .eq
  | _, _ => false

def overlaps : Admitted → Admitted → Bool
  | allBut _, allBut _ => true
  | allBut hole, interval lower upper => !isPoint lower upper hole
  | interval lower upper, allBut hole => !isPoint lower upper hole
  | interval lower upper, interval lower' upper' => !lower.exceeds upper' && !lower'.exceeds upper

end Admitted

namespace Test

def admitted (t : Test) : Admitted :=
  match t.operator with
  | .less => .interval .unbounded (.excluded t.value)
  | .atMost => .interval .unbounded (.closed t.value)
  | .equal => .interval (.closed t.value) (.closed t.value)
  | .unequal => .allBut t.value
  | .atLeast => .interval (.closed t.value) .unbounded
  | .greater => .interval (.excluded t.value) .unbounded

/-- No test of the list on the same property contradicts `t`. -/
def isCompatible (t : Test) (others : List Test) : Bool :=
  (others.filter (·.property = t.property)).all fun u => t.admitted.overlaps u.admitted

end Test

end Cartosheet
