import Cartosheet.Color
import Cartosheet.Numeral

namespace Cartosheet

inductive Value where
  | integer (value : Int)
  | float (value : Binary64)
  | string (contents : String)
  | color (value : Color)
  /-- Unlike every color. -/
  | transparent
  | boolean (value : Bool)
  | uri (address : String)
  | numbers (values : List Numeral)
  | keyword (word : String)
  deriving DecidableEq, Repr

def Value.text : Value → String
  | integer z => toString z
  | float x => x.text
  | string s => s
  | color c => c.text
  | transparent => "transparent"
  | boolean b => if b then "true" else "false"
  | uri a => a
  | numbers ns => ",".intercalate (ns.map Numeral.text)
  | keyword w => w

/-- Why tokens are no value of a grammar. -/
inductive ValueFault where
  | notNumberList
  | unsupported
  | notSingle
  | notNumber
  | notInteger
  | notString
  | notHash
  | notHashOrTransparent
  | notColor
  | notBoolean
  | notUri
  | malformedUri
  | notIdentifier
  | unrecognized
  deriving DecidableEq, Repr

def ValueFault.message : ValueFault → String
  | notNumberList => "Value should be a comma-delimited list of numbers"
  | unsupported => "No value is supported"
  | notSingle => "Single value only"
  | notNumber => "Number value only"
  | notInteger => "Integer value only"
  | notString => "String value only"
  | notHash => "Hash value only"
  | notHashOrTransparent => "Hash or transparent value only"
  | notColor => "Unrecognized color value"
  | notBoolean => "true/false value only"
  | notUri => "URI value only"
  | malformedUri => "Malformed URI value"
  | notIdentifier => "Identifier value only"
  | unrecognized => "Unrecognized value"

end Cartosheet
