import Cartosheet.Proofs.HexDigits
import Cartosheet.Proofs.Rounding
import Cartosheet.Proofs.WholeNumbers

namespace Cartosheet

inductive Json where
  | null
  | boolean (value : Bool)
  | number (value : ℚ)
  | string (contents : String)
  | array (items : List Json)
  | object (members : List (String × Json))

namespace Json

def isBlank (c : Char) : Bool := c = ' ' || c = '\t' || c = '\n' || c = '\r'

/-- Blanks and nothing else. -/
def Gap (cs : List Char) : Prop := ∀ c ∈ cs, isBlank c = true

theorem gap_nil : Gap [] := List.forall_mem_nil _

/-- The digits before the point: a zero alone, or digits of which the first is no zero. -/
def IsWhole (cs : List Char) : Prop :=
  cs = ['0'] ∨ cs ≠ [] ∧ cs.head? ≠ some '0' ∧ ∀ c ∈ cs, c.isDigit = true

/-- A number as it is written, and its value. -/
inductive Number : List Char → ℚ → Prop
  | mk {sign whole point fraction power : List Char} {exponent : ℤ} :
      sign = [] ∨ sign = ['-'] → IsWhole whole → Decimal.IsFraction point fraction →
      (point ≠ [] → fraction ≠ []) → Decimal.IsPower power exponent →
      Number (sign ++ (whole ++ (point ++ power)))
        (Decimal.signedValue (sign = ['-'])
          ⟨Decimal.number (whole ++ fraction), exponent - fraction.length⟩)

/-- The letters of the short escapes, and the characters that they stand for. -/
def shortEscapes : List (Char × Char) :=
  [('"', '"'), ('\\', '\\'), ('/', '/'), ('b', '\x08'), ('f', '\x0c'), ('n', '\n'), ('r', '\r'),
    ('t', '\t')]

/-- Four digits and the code that they spell. -/
structure IsCode (ds : List Char) (code : Nat) : Prop where
  length : ds.length = 4
  digits : ∀ d ∈ ds, Hex.IsDigit d
  number : Hex.number ds = code

/-- A character of a string as it is spelled. -/
inductive Character : List Char → Char → Prop
  | plain {c : Char} : 0x20 ≤ c.toNat → c ≠ '"' → c ≠ '\\' → Character [c] c
  | short {letter c : Char} : (letter, c) ∈ shortEscapes → Character ['\\', letter] c
  | code {ds : List Char} {c : Char} : IsCode ds c.toNat → Character ('\\' :: 'u' :: ds) c
  | pair {ds es : List Char} {high low : Nat} {c : Char} :
      IsCode ds high → 0xD800 ≤ high → high < 0xDC00 →
      IsCode es low → 0xDC00 ≤ low → low < 0xE000 →
      c.toNat = 0x10000 + 0x400 * (high - 0xD800) + (low - 0xDC00) →
      Character ('\\' :: 'u' :: (ds ++ '\\' :: 'u' :: es)) c

/-- What stands between the quotes of a string. -/
inductive Contents : List Char → List Char → Prop
  | nil : Contents [] []
  | cons {t u : List Char} {c : Char} {cs : List Char} : Character t c → Contents u cs →
      Contents (t ++ u) (c :: cs)

/-- The parts of a text. An element is a value with the blanks around it. -/
inductive Part where
  | value (v : Json)
  | element (v : Json)
  | items (vs : List Json)
  | member (key : String) (v : Json)
  | members (ms : List (String × Json))

/-- The grammar. A text is an element. -/
inductive Spells : List Char → Part → Prop
  | null : Spells ['n', 'u', 'l', 'l'] (.value .null)
  | yes : Spells ['t', 'r', 'u', 'e'] (.value (.boolean true))
  | no : Spells ['f', 'a', 'l', 's', 'e'] (.value (.boolean false))
  | number {t : List Char} {q : ℚ} : Number t q → Spells t (.value (.number q))
  | string {t : List Char} {s : String} : Contents t s.toList →
      Spells ('"' :: (t ++ ['"'])) (.value (.string s))
  | noItems {w : List Char} : Gap w → Spells ('[' :: (w ++ [']'])) (.value (.array []))
  | array {t : List Char} {vs : List Json} : Spells t (.items vs) →
      Spells ('[' :: (t ++ [']'])) (.value (.array vs))
  | noMembers {w : List Char} : Gap w → Spells ('{' :: (w ++ ['}'])) (.value (.object []))
  | object {t : List Char} {ms : List (String × Json)} : Spells t (.members ms) →
      Spells ('{' :: (t ++ ['}'])) (.value (.object ms))
  | element {w t w' : List Char} {v : Json} : Gap w → Spells t (.value v) → Gap w' →
      Spells (w ++ (t ++ w')) (.element v)
  | lastItem {t : List Char} {v : Json} : Spells t (.element v) → Spells t (.items [v])
  | items {t u : List Char} {v : Json} {vs : List Json} : Spells t (.element v) →
      Spells u (.items vs) → Spells (t ++ ',' :: u) (.items (v :: vs))
  | member {w k w' t : List Char} {key : String} {v : Json} : Gap w → Contents k key.toList →
      Gap w' → Spells t (.element v) →
      Spells (w ++ '"' :: (k ++ '"' :: (w' ++ ':' :: t))) (.member key v)
  | lastMember {t : List Char} {key : String} {v : Json} : Spells t (.member key v) →
      Spells t (.members [(key, v)])
  | members {t u : List Char} {key : String} {v : Json} {ms : List (String × Json)} :
      Spells t (.member key v) → Spells u (.members ms) →
      Spells (t ++ ',' :: u) (.members ((key, v) :: ms))

end Json

end Cartosheet
