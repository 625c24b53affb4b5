import Cartosheet.Selector

namespace Cartosheet

namespace Zoom

/-- The property of the shorthand. -/
def property : String := "zoom"

/-- Bounds between the bands of levels 1 to 22, from the coarsest scale down: level `n` reaches from
entry `n`, which it holds, to entry `n - 1`, which it does not. -/
def bounds : List Nat :=
  [500000000, 200000000, 100000000, 50000000, 25000000, 12500000, 6500000, 3000000, 1500000,
    750000, 400000, 200000, 100000, 50000, 25000, 12500, 5000, 2500, 1000, 500, 250, 100, 50]

/-- The scale denominators of one level: from `low` up to but not including `high`. -/
structure Band where
  low : Binary64
  high : Binary64
  deriving DecidableEq, Repr

/-- The band of a level between 1 and 22. -/
def band? (level : Nat) : Option Band :=
  match level with
  | 0 => none
  | n + 1 =>
    match bounds[n + 1]?, bounds[n]? with
    | some low, some high => some ⟨.ofInt low, .ofInt high⟩
    | _, _ => none

/-- The level that a test compares with, a whole number between 1 and 22. -/
def level? (value : Scalar) : Option Nat :=
  match value.number?.bind Binary64.whole? with
  | some z => if 1 ≤ z ∧ z ≤ 22 then some z.toNat else none
  | none => none

def scaleTest (op : Operator) (bound : Binary64) : Test :=
  ⟨Test.scaleDenominator, op, .number bound⟩

/-- The test on the scale that takes the place of `zoom op level`, and the one to append to it. A
larger zoom is a smaller scale denominator, so ordered comparisons turn round. -/
def replace (op : Operator) (b : Band) : Except SelectorFault (Test × List Test) :=
  match op with
  | .equal => .ok (scaleTest .atLeast b.low, [scaleTest .less b.high])
  | .less => .ok (scaleTest .atLeast b.high, [])
  | .atMost => .ok (scaleTest .atLeast b.low, [])
  | .atLeast => .ok (scaleTest .less b.high, [])
  | .greater => .ok (scaleTest .less b.low, [])
  | .unequal => .error .zoomInequality

def isShorthand (t : Test) : Bool := t.property = property

/-- The expansion of one shorthand test. -/
def expand (mercator : Bool) (t : Test) : Except SelectorFault (Test × List Test) :=
  if mercator then
    match (level? t.value).bind band? with
    | some b => replace t.operator b
    | none => .error (.invalidZoom t.value.text)
  else .error .notMercator

/-- Tests in place after an expansion, tests to append to them, and what stopped it. -/
structure Expansion where
  inPlace : List Test
  appended : List Test
  fault : Option SelectorFault
  deriving DecidableEq, Repr

/-- Expands the shorthand tests in order. After a fault the rest stands as it was. -/
def expandAll (mercator : Bool) : List Test → Expansion
  | [] => ⟨[], [], none⟩
  | t :: ts =>
    if isShorthand t then
      match expand mercator t with
      | .error f => ⟨t :: ts, [], some f⟩
      | .ok (u, extra) =>
        let r := expandAll mercator ts
        ⟨u :: r.inPlace, extra ++ r.appended, r.fault⟩
    else
      let r := expandAll mercator ts
      ⟨t :: r.inPlace, r.appended, r.fault⟩

/-- The tests that an expansion leaves: nothing is appended after a fault. -/
def Expansion.tests (r : Expansion) : List Test :=
  if r.fault.isNone then r.inPlace ++ r.appended else r.inPlace

end Zoom

namespace Selector

/-- Expands the shorthand tests of the first element. The selector is given back also after a
fault, with the tests before the faulty one expanded. -/
def convertZoom (mercator : Bool) (s : Selector) : Selector × Option SelectorFault :=
  let r := Zoom.expandAll mercator s.tests
  ({ s with first := { s.first with tests := r.tests } }, r.fault)

end Selector

end Cartosheet
