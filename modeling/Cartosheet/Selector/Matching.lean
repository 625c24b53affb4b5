import Cartosheet.Selector

namespace Cartosheet

/-- What a selector sees of a layer. -/
structure Layer where
  tag : Option String := none
  id : Option String := none
  classes : List String := []
  deriving DecidableEq, Repr

namespace Layer

/-- Whether the layer satisfies `name` where the names `before` are satisfied already. -/
def satisfies (layer : Layer) (before : List Selector.Name) (name : Selector.Name) : Bool :=
  match name with
  | .universal => true
  | .tag t => before.all (fun n => !n matches .tag _) && layer.tag = some t
  | .id i => before.all (fun n => !n matches .id _) && layer.id = some i
  | .className c => before.count name < layer.classes.count c

/-- Satisfies the names in order. -/
def satisfiesAll (layer : Layer) (before : List Selector.Name) : List Selector.Name → Bool
  | [] => true
  | n :: ns => layer.satisfies before n && layer.satisfiesAll (before ++ [n]) ns

def matchesElement (layer : Layer) (e : Selector.Element) : Bool :=
  layer.satisfiesAll [] e.names

end Layer

namespace Selector

/-- Only the first element is matched. -/
def matchesLayer (s : Selector) (layer : Layer) : Bool :=
  layer.matchesElement s.first

/-- Every ranged test admits the scale, whatever property it is on. -/
def inRange (s : Selector) (scale : Binary64) : Bool :=
  s.rangeTests.all (·.inRange scale)

/-- Every test on the scale denominator admits the scale. -/
def admitsScale (s : Selector) (scale : Binary64) : Bool :=
  s.mapScaleTests.all (·.inRange scale)

end Selector

end Cartosheet
