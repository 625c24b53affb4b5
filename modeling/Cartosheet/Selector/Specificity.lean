import Cartosheet.Selector

namespace Cartosheet

/-- How closely a selector names what it applies to. Ids count before all other names, and names
before attribute tests. -/
structure Specificity where
  ids : Nat
  names : Nat
  tests : Nat
  deriving DecidableEq, Repr

namespace Specificity

def zero : Specificity := ⟨0, 0, 0⟩

def add (a b : Specificity) : Specificity :=
  ⟨a.ids + b.ids, a.names + b.names, a.tests + b.tests⟩

def ofElement (e : Selector.Element) : Specificity :=
  ⟨e.ids, e.names.length - e.ids, e.tests.length⟩

def compare (a b : Specificity) : Ordering :=
  (Ord.compare a.ids b.ids).then
    ((Ord.compare a.names b.names).then (Ord.compare a.tests b.tests))

def text (s : Specificity) : String :=
  "(" ++ toString s.ids ++ "," ++ toString s.names ++ "," ++ toString s.tests ++ ")"

end Specificity

/-- The sum over the elements of a selector. -/
def Selector.specificity (s : Selector) : Specificity :=
  s.elements.foldl (fun total e => total.add (.ofElement e)) .zero

end Cartosheet
