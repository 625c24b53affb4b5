import Cartosheet.Declaration

namespace Cartosheet.Cascade

/-- Ascending precedence, so that of two declarations for one property the later wins. The sort is
stable. -/
def sort (ds : List Declaration) : List Declaration :=
  ds.mergeSort fun a b => a.precedence.le b.precedence

/-- All declarations of the rulesets in cascade order. -/
def flatten (rs : List Ruleset) : List Declaration :=
  sort (rs.flatMap Ruleset.declarations)

/-- The declarations of each family, families in the order of their names. -/
def byFamily (ds : List Declaration) : List (String × List Declaration) :=
  let families := (ds.map (·.property.family)).eraseDups.mergeSort fun a b => a ≤ b
  families.map fun f => (f, ds.filter (·.property.family = f))

end Cartosheet.Cascade
