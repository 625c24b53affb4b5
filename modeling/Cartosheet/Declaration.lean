import Cartosheet.Property
import Cartosheet.Selector.Specificity
import Cartosheet.Token
import Cartosheet.Value

namespace Cartosheet

/-- One `property: value` of a block, at the position of the property. -/
structure Entry where
  property : Property
  value : Value
  important : Bool
  position : Position
  deriving DecidableEq, Repr

/-- An entry under one selector. -/
structure Declaration where
  selector : Selector
  property : Property
  value : Value
  important : Bool
  position : Position
  deriving DecidableEq, Repr

/-- Compared field by field: importance, then specificity, then position. -/
structure Precedence where
  important : Bool
  specificity : Specificity
  position : Position
  deriving DecidableEq, Repr

namespace Precedence

/-- One for an important declaration, otherwise zero. -/
def importance (p : Precedence) : Nat := p.important.toNat

def compare (p q : Precedence) : Ordering :=
  (Ord.compare p.importance q.importance).then
    ((p.specificity.compare q.specificity).then (p.position.compare q.position))

def le (p q : Precedence) : Bool := (p.compare q).isLE

end Precedence

namespace Declaration

def ofEntry (selector : Selector) (e : Entry) : Declaration :=
  ⟨selector, e.property, e.value, e.important, e.position⟩

def precedence (d : Declaration) : Precedence :=
  ⟨d.important, d.selector.specificity, d.position⟩

def text (d : Declaration) : String :=
  d.selector.text ++ " \x7b " ++ d.property.name ++ ": " ++ d.value.text ++ " \x7d"

/-- Every entry under the first selector, then under the next. -/
def crossProduct (selectors : List Selector) (entries : List Entry) : List Declaration :=
  selectors.flatMap fun s => entries.map (ofEntry s)

end Declaration

/-- Selectors with one block. -/
structure Ruleset where
  selectors : List Selector
  entries : List Entry
  deriving DecidableEq, Repr

namespace Ruleset

def declarations (r : Ruleset) : List Declaration :=
  Declaration.crossProduct r.selectors r.entries

def count (r : Ruleset) : Nat := r.selectors.length * r.entries.length

end Ruleset

/-- What a reader of stylesheets goes by: the property table, and whether zoom shorthand has a
meaning. -/
structure Settings where
  registry : Registry
  mercator : Bool
  deriving DecidableEq, Repr

end Cartosheet
