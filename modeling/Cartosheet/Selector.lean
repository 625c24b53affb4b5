import Cartosheet.Attribute

namespace Cartosheet

/-- Why a list of elements is no selector, or why a zoom test cannot be expanded. -/
inductive SelectorFault where
  | empty
  | tooManyElements (count : Nat)
  | unrooted (found : String)
  | qualifiedDescendant
  | invalidZoom (value : String)
  | zoomInequality
  | notMercator
  deriving DecidableEq, Repr

def SelectorFault.message : SelectorFault → String
  | empty => "selector is empty"
  | tooManyElements count =>
    "selector has " ++ toString count ++ " elements, at most 2 are allowed"
  | unrooted found =>
    "selector must start with Map, Layer, an id, a class or '*', found '" ++ found ++ "'"
  | qualifiedDescendant => "descendant element may not carry ids, classes or attribute tests"
  | invalidZoom value => "zoom level " ++ value ++ " is not between 1 and 22"
  | zoomInequality => "zoom shorthand cannot be negated with \"!=\""
  | notMercator => "zoom shorthand requires a web mercator projection"

namespace Selector

/-- A name in a selector element. -/
inductive Name where
  | tag (name : String)
  | universal
  | id (name : String)
  | className (name : String)
  deriving DecidableEq, Repr

namespace Name

/-- The name that a text with its leading sign stands for. -/
def ofText (text : String) : Name :=
  match text.toList with
  | [] => tag text
  | c :: cs =>
    if c = '*' && cs.isEmpty then universal
    else if c = '#' then id (String.ofList cs)
    else if c = '.' then className (String.ofList cs)
    else tag text

def text : Name → String
  | tag name => name
  | universal => "*"
  | id name => "#" ++ name
  | className name => "." ++ name

def isTag : Name → Bool
  | tag _ => true
  | _ => false

def isId : Name → Bool
  | id _ => true
  | _ => false

def isClass : Name → Bool
  | className _ => true
  | _ => false

/-- Names that a selector may start with. -/
def isRoot : Name → Bool
  | tag name => name = "Map" || name = "Layer"
  | _ => true

end Name

/-- Names and attribute tests, each in source order. -/
structure Element where
  names : List Name := []
  tests : List Test := []
  deriving DecidableEq, Repr

namespace Element

def addName (e : Element) (n : Name) : Element := { e with names := e.names ++ [n] }

def addTest (e : Element) (t : Test) : Element := { e with tests := e.tests ++ [t] }

def ids (e : Element) : Nat := e.names.countP Name.isId

def classes (e : Element) : Nat := e.names.countP Name.isClass

/-- Ids, classes and tests are what only the first element of a selector may carry. -/
def isQualified (e : Element) : Bool :=
  0 < e.tests.length || 0 < e.ids || 0 < e.classes

/-- All names, then all tests. -/
def text (e : Element) : String :=
  String.join (e.names.map Name.text) ++ String.join (e.tests.map Test.text)

end Element

/-- Elements as they are written, divided by spaces. -/
def textOfElements (elements : List Element) : String :=
  " ".intercalate (elements.map Element.text)

end Selector

structure Selector where
  first : Selector.Element
  descendant : Option Selector.Element
  deriving DecidableEq, Repr

namespace Selector

def elements (s : Selector) : List Element := s.first :: s.descendant.toList

/-- The first element starts with a root name. -/
def checkRoot (e : Element) : Except SelectorFault Unit :=
  match e.names with
  | [] => .error (.unrooted e.text)
  | n :: _ => if n.isRoot then .ok () else .error (.unrooted n.text)

/-- A selector of one or two elements, checked for its shape. -/
def ofElements (elements : List Element) : Except SelectorFault Selector :=
  match elements with
  | [] => .error .empty
  | [e] => do
    checkRoot e
    return ⟨e, none⟩
  | [e, d] => do
    checkRoot e
    if d.isQualified then throw .qualifiedDescendant
    return ⟨e, some d⟩
  | _ => .error (.tooManyElements elements.length)

def text (s : Selector) : String := textOfElements s.elements

/-- The tests that take part in matching, those of the first element. -/
def tests (s : Selector) : List Test := s.first.tests

def rangeTests (s : Selector) : List Test := s.tests.filter Test.isRanged

def mapScaleTests (s : Selector) : List Test := s.tests.filter Test.isMapScaled

def isRanged (s : Selector) : Bool := s.tests.any Test.isRanged

def isMapScaled (s : Selector) : Bool := s.tests.any Test.isMapScaled

end Selector

end Cartosheet
