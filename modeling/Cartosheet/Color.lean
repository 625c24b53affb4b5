import Cartosheet.Hex

namespace Cartosheet

structure Color where
  red : UInt8
  green : UInt8
  blue : UInt8
  deriving DecidableEq, Repr

namespace Color

/-- A channel of two digits. -/
def channel (high low : Nat) : UInt8 := UInt8.ofNat (16 * high + low)

/-- `#` and three or six digits; in the short form each digit counts twice. -/
def ofText? (text : String) : Option Color :=
  match text.toList with
  | [] => none
  | c :: cs =>
    if c = '#' then
      match cs.mapM Hex.value? with
      | some [r, g, b] => some ⟨channel r r, channel g g, channel b b⟩
      | some [r, r', g, g', b, b'] => some ⟨channel r r', channel g g', channel b b'⟩
      | _ => none
    else none

def channelText (b : UInt8) : List Char :=
  [Hex.digit (b.toNat / 16), Hex.digit (b.toNat % 16)]

/-- The six-digit form in lower case. -/
def text (c : Color) : String :=
  String.ofList ('#' :: channelText c.red ++ channelText c.green ++ channelText c.blue)

end Color

end Cartosheet
