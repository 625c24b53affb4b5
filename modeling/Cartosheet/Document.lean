import Cartosheet.Hex

namespace Cartosheet

inductive Document where
  | boolean (value : Bool)
  | number (value : Nat)
  | string (contents : String)
  | array (items : List Document)
  | object (members : List (String × Document))
  deriving Repr

namespace Document

/-- A character inside a string. Only quotes, backslashes and controls are escaped. -/
def escaped (c : Char) : List Char :=
  if c = '"' then ['\\', '"']
  else if c = '\\' then ['\\', '\\']
  else if c = '\x08' then ['\\', 'b']
  else if c = '\t' then ['\\', 't']
  else if c = '\n' then ['\\', 'n']
  else if c = '\x0c' then ['\\', 'f']
  else if c = '\r' then ['\\', 'r']
  else if c.toNat < 0x20 then
    ['\\', 'u', '0', '0', Hex.digit (c.toNat / 16), Hex.digit (c.toNat % 16)]
  else [c]

def quoted (s : String) : List Char :=
  '"' :: s.toList.flatMap escaped ++ ['"']

/-- A line break and the blanks of a level. -/
def newLine (level : Nat) : List Char :=
  '\n' :: List.replicate (2 * level) ' '

mutual

/-- A document that stands on a line of the given level. -/
def layout (level : Nat) : Document → List Char
  | boolean b => (if b then "true" else "false").toList
  | number n => Nat.toDigits 10 n
  | string s => quoted s
  | array [] => ['[', ']']
  | array (x :: xs) =>
    '[' :: newLine (level + 1) ++ layout (level + 1) x ++ layoutItems (level + 1) xs
      ++ newLine level ++ [']']
  | object [] => ['{', '}']
  | object ((key, x) :: ms) =>
    '{' :: newLine (level + 1) ++ quoted key ++ ':' :: ' ' :: layout (level + 1) x
      ++ layoutMembers (level + 1) ms ++ newLine level ++ ['}']

/-- The items after the first. -/
def layoutItems (level : Nat) : List Document → List Char
  | [] => []
  | x :: xs => ',' :: newLine level ++ layout level x ++ layoutItems level xs

/-- The members after the first. -/
def layoutMembers (level : Nat) : List (String × Document) → List Char
  | [] => []
  | (key, x) :: ms =>
    ',' :: newLine level ++ quoted key ++ ':' :: ' ' :: layout level x ++ layoutMembers level ms

end

def text (d : Document) : String := String.ofList (d.layout 0)

end Document

end Cartosheet
