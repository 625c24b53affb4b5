import Cartosheet.Selector
import Cartosheet.Token
import Cartosheet.Value

namespace Cartosheet

/-- Where in the grammar a token was read that does not belong there, or where the tokens ended. -/
inductive Place where
  | beforeSelector
  | inSelector
  | afterDot
  | beforeName
  | attributeName
  | attributeOperator
  | afterNegation
  | attributeNumber
  | attributeValue
  | attributeEnd
  | insideAttribute
  | insideSelector
  | beforeProperty
  | insideBlock
  | insideDeclaration
  | beforeColon
  | declarationValue
  | afterBang
  | afterImportant
  /-- A place outside this grammar, in the caller's words. -/
  | worded (phrase : String)
  deriving DecidableEq, Repr

def Place.phrase : Place → String
  | beforeSelector => "while looking for a selector"
  | inSelector => "in selector"
  | afterDot => "after \".\" in selector"
  | beforeName => "before any selector name"
  | attributeName => "where an attribute name was expected"
  | attributeOperator => "where an attribute operator was expected"
  | afterNegation => "after \"!\" in attribute test"
  | attributeNumber => "in attribute test"
  | attributeValue => "where a number or string was expected"
  | attributeEnd => "where \"]\" was expected"
  | insideAttribute => "inside attribute test"
  | insideSelector => "inside a selector"
  | beforeProperty => "while looking for a property"
  | insideBlock => "inside a declaration block"
  | insideDeclaration => "inside a declaration"
  | beforeColon => "where \":\" was expected"
  | declarationValue => "in declaration value"
  | afterBang => "after \"!\""
  | afterImportant => "after \"!important\""
  | worded phrase => phrase

inductive Fault where
  | unexpected (token : Token) (place : Place)
  | unexpectedEnd (place : Place) (position : Position)
  | unknownProperty (name : String) (position : Position)
  | invalidValue (property : String) (cause : ValueFault) (position : Position)
  | invalidSelector (selector : String) (cause : SelectorFault) (position : Position)
  /-- Zoom shorthand without the projection it needs. -/
  | projection (position : Position)
  deriving DecidableEq, Repr

namespace Fault

/-- The fault of a selector written as `text`. -/
def ofSelector (text : String) (cause : SelectorFault) (position : Position) : Fault :=
  match cause with
  | .notMercator => projection position
  | cause => invalidSelector text cause position

def position : Fault → Position
  | unexpected token _ => token.position
  | unexpectedEnd _ p => p
  | unknownProperty _ p => p
  | invalidValue _ _ p => p
  | invalidSelector _ _ p => p
  | projection p => p

/-- What the fault is, without its position. -/
def description : Fault → String
  | unexpected token place => "Unexpected " ++ token.describe ++ " " ++ place.phrase
  | unexpectedEnd place _ => "Unexpected end of input " ++ place.phrase
  | unknownProperty name _ => "Unknown property \"" ++ name ++ "\""
  | invalidValue property cause _ => cause.message ++ " for property \"" ++ property ++ "\""
  | invalidSelector selector cause _ =>
    "Invalid selector \"" ++ selector ++ "\": " ++ cause.message
  | projection _ =>
    "Map projection is not web mercator, so zoom shorthand cannot be converted to scale denominators"

def message (f : Fault) : String :=
  f.description ++ " (" ++ f.position.text ++ ")"

end Fault

end Cartosheet
