import Cartosheet.Cascade
import Cartosheet.Selector.Matching

namespace Cartosheet

/-- A layer, and the scale it is drawn at. Without a scale the tests on it are passed over; tests on
other attributes are never evaluated here. -/
structure Situation extends Layer where
  scale : Option Binary64 := none
  deriving DecidableEq, Repr

def Situation.applies (x : Situation) (d : Declaration) : Bool :=
  d.selector.matchesLayer x.toLayer && x.scale.all d.selector.admitsScale

/-- Winners with distinct properties, in the order of their names. -/
structure Style where
  winners : List Declaration
  deriving DecidableEq, Repr

namespace Style

def empty : Style := ⟨[]⟩

/-- Puts a declaration in its place, over an earlier one for the same property. -/
def put (d : Declaration) : List Declaration → List Declaration
  | [] => [d]
  | w :: ws =>
    if d.property.name < w.property.name then d :: w :: ws
    else if d.property.name = w.property.name then d :: ws
    else w :: put d ws

def insert (s : Style) (d : Declaration) : Style := ⟨put d s.winners⟩

/-- Applies declarations in order; of those for one property the last that applies wins. -/
def resolve (ds : List Declaration) (x : Situation) : Style :=
  ds.foldl (fun s d => if x.applies d then s.insert d else s) empty

def get? (s : Style) (property : String) : Option Declaration :=
  s.winners.find? (·.property.name = property)

def size (s : Style) : Nat := s.winners.length

/-- Winners by family. -/
def byFamily (s : Style) : List (String × List Declaration) := Cascade.byFamily s.winners

end Style

end Cartosheet
