import Cartosheet.Token.Lexeme

namespace Cartosheet

/-- The text without the quotes around it; a text not wrapped in one pair of equal quotes stays. -/
def unquoted (text : String) : String :=
  match text.toList with
  | [] => text
  | c :: cs =>
    if isQuote c && cs.getLast? = some c then String.ofList cs.dropLast else text

/-- The characters without blanks at either end. -/
def trimBlanks (cs : List Char) : List Char :=
  ((cs.dropWhile isBlank).reverse.dropWhile isBlank).reverse

namespace Address

/-- The wrapper's opening, in any case. -/
def opening : List Char := ['u', 'r', 'l', '(']

/-- An address between equal quotes, or one without quotes and blanks. -/
def ofBody? : List Char → Option (List Char)
  | [] => none
  | c :: cs =>
    if isQuote c then
      let address := cs.dropLast
      if cs.getLast? = some c && !address.contains c && !address.isEmpty then some address else none
    else if (c :: cs).any (fun d => isQuote d || isBlank d) then none
    else some (c :: cs)

/-- The address in a wrapper. Blanks just inside the parentheses do not count. -/
def ofWrapper? (raw : String) : Option String :=
  let cs := raw.toList
  let rest := cs.drop 4
  if (cs.take 4).map Char.toLower = opening && rest.getLast? = some ')' then
    (ofBody? (trimBlanks rest.dropLast)).map String.ofList
  else none

end Address

end Cartosheet
