import Cartosheet.Property
import Cartosheet.Value
import Cartosheet.Value.Quoting

namespace Cartosheet

namespace Value

/-- A color out of a hash token. -/
def readColor (t : Token) : Except ValueFault Value :=
  match Color.ofText? t.text with
  | some c => .ok (color c)
  | none => .error .notColor

/-- The tokens that take part in a number list; others are passed over. -/
def listTokens (ts : List Token) : List Token :=
  ts.filter fun t => t.kind = .number || t.isChar ','

/-- Numbers with a comma between each two of them. -/
def alternating? : List Token → Option (List Numeral)
  | [] => none
  | [t] => if t.kind = .number then (Numeral.ofText? t.text).map ([·]) else none
  | t :: comma :: ts =>
    if t.kind = .number && comma.kind = .character then
      match Numeral.ofText? t.text, alternating? ts with
      | some n, some ns => some (n :: ns)
      | _, _ => none
    else none

end Value

namespace Grammar

/-- The value of a grammar that takes one token. -/
def readSingle (g : Grammar) (t : Token) : Except ValueFault Value :=
  match g with
  | .integer =>
    if t.kind ≠ .number then .error .notNumber
    else
      match integerOfText? t.text with
      | some z => .ok (.integer z)
      | none => .error .notInteger
  | .float =>
    if t.kind ≠ .number then .error .notNumber
    else
      match Numeral.ofText? t.text with
      | some n => .ok (.float n.toBinary64)
      | none => .error .notNumber
  | .string => if t.kind ≠ .string then .error .notString else .ok (.string (unquoted t.text))
  | .color => if t.kind ≠ .hash then .error .notHash else Value.readColor t
  | .colorOrTransparent =>
    if t.isWord "transparent" then .ok .transparent
    else if t.kind = .hash then Value.readColor t
    else .error .notHashOrTransparent
  | .boolean =>
    if t.isWord "true" then .ok (.boolean true)
    else if t.isWord "false" then .ok (.boolean false)
    else .error .notBoolean
  | .uri =>
    if t.kind ≠ .uri then .error .notUri
    else
      match Address.ofWrapper? t.text with
      | some a => .ok (.uri a)
      | none => .error .malformedUri
  | .keyword allowed =>
    if t.kind ≠ .identifier then .error .notIdentifier
    else if allowed.contains t.text then .ok (.keyword t.text)
    else .error .unrecognized
  | .numberList => .error .notNumberList
  | .unsupported => .error .unsupported

/-- The value that tokens spell in a grammar. -/
def read (g : Grammar) (ts : List Token) : Except ValueFault Value :=
  match g with
  | .numberList =>
    match Value.alternating? (Value.listTokens ts) with
    | some ns => .ok (.numbers ns)
    | none => .error .notNumberList
  | .unsupported => .error .unsupported
  | g =>
    match ts with
    | [t] => g.readSingle t
    | _ => .error .notSingle

end Grammar

end Cartosheet
