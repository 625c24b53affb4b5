namespace Cartosheet

/-- What a property accepts as its value. -/
inductive Grammar where
  | integer
  | float
  | string
  | color
  | colorOrTransparent
  | boolean
  | uri
  | numberList
  /-- One of the given words. -/
  | keyword (allowed : List String)
  /-- The property is known, but no value is accepted for it. -/
  | unsupported
  deriving DecidableEq, Repr

def Grammar.describe : Grammar → String
  | integer => "integer"
  | float => "number"
  | string => "string"
  | color => "color"
  | colorOrTransparent => "color or transparent"
  | boolean => "boolean"
  | uri => "url"
  | numberList => "number list"
  | keyword _ => "keyword"
  | unsupported => "unsupported"

structure Property where
  name : String
  grammar : Grammar
  deriving DecidableEq, Repr

/-- The family that a property belongs to, its name up to the first hyphen. -/
def Property.family (p : Property) : String :=
  String.ofList (p.name.toList.takeWhile (· ≠ '-'))

/-- A table of properties with distinct names. -/
structure Registry where
  rows : List Property
  deriving DecidableEq, Repr

namespace Registry

def empty : Registry := ⟨[]⟩

def find? (r : Registry) (name : String) : Option Property :=
  r.rows.find? (·.name = name)

def contains (r : Registry) (name : String) : Bool := (r.find? name).isSome

def size (r : Registry) : Nat := r.rows.length

/-- Adds a property; an earlier one of the same name is replaced. -/
def insert (r : Registry) (p : Property) : Registry :=
  if r.contains p.name then ⟨r.rows.map fun q => if q.name = p.name then p else q⟩
  else ⟨r.rows ++ [p]⟩

def ofList (ps : List Property) : Registry := ps.foldl insert empty

/-- The properties in the order of their names. -/
def sorted (r : Registry) : List Property :=
  r.rows.mergeSort fun p q => p.name ≤ q.name

/-- What a failed look-up says. -/
def missingMessage (name : String) : String :=
  "unknown property \"" ++ name ++ "\""

end Registry

end Cartosheet
