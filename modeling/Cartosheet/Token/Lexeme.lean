import Cartosheet.Hex
import Cartosheet.Token

namespace Cartosheet

/-- Space, tab and the newlines. -/
def isBlank (c : Char) : Bool :=
  c = ' ' || c = '\t' || isNewline c

def isQuote (c : Char) : Bool :=
  c = '"' || c = '\''

/-- Letters, `_`, NUL and everything beyond ASCII. -/
def isNameStart (c : Char) : Bool :=
  c.isAlpha || c = '_' || c = '\x00' || 0x80 ≤ c.toNat

def isNameChar (c : Char) : Bool :=
  isNameStart c || c.isDigit || c = '-'

/-- What stands for a character that cannot be written. -/
def replacement : Char := '\ufffd'

/-- NUL is read as the replacement character. -/
def withoutNul (c : Char) : Char :=
  if c = '\x00' then replacement else c

def startsNewline (cs : List Char) : Bool :=
  cs.head?.any isNewline

/-- Whether a name begins here. A hyphen before a backslash begins one even where the backslash
itself cannot go on. -/
def startsName : List Char → Bool
  | [] => false
  | c :: cs =>
    if c = '\\' then !startsNewline cs
    else if c = '-' then cs.head?.any fun d => isNameStart d || d = '-' || d = '\\'
    else isNameStart c

/-- Characters read, and the characters they stand for. -/
structure Piece where
  raw : List Char
  value : List Char
  deriving DecidableEq, Repr

namespace Piece

def empty : Piece := ⟨[], []⟩

def append (p q : Piece) : Piece := ⟨p.raw ++ q.raw, p.value ++ q.value⟩

end Piece

/-- The character that an escape's number names; zero, surrogates and numbers out of range name
none. -/
def escapedChar (n : Nat) : Char :=
  if n ≠ 0 ∧ n.isValidChar then Char.ofNat n else replacement

/-- A blank that ends a hexadecimal escape and belongs to it. -/
def escapeEnd (cs : List Char) : List Char :=
  if startsNewline cs then lineBreak cs
  else if cs.head?.any isBlank then cs.take 1
  else []

/-- An escape, from after its backslash: up to six hexadecimal digits with one blank after them,
or any other character standing for itself. -/
def escape : List Char → Piece
  | [] => ⟨[], [replacement]⟩
  | c :: cs =>
    if Hex.isDigit c then
      let digits := ((c :: cs).take 6).takeWhile Hex.isDigit
      ⟨digits ++ escapeEnd ((c :: cs).drop digits.length), [escapedChar (Hex.number digits)]⟩
    else ⟨[c], [withoutNul c]⟩

/-- A name: name characters and escapes as far as they go. -/
def name : List Char → Piece
  | [] => .empty
  | c :: cs =>
    if c = '\\' then
      if startsNewline cs then .empty
      else
        let e := escape cs
        Piece.append ⟨c :: e.raw, e.value⟩ (name (cs.drop e.raw.length))
    else if isNameChar c then Piece.append ⟨[c], [withoutNul c]⟩ (name cs)
    else .empty
termination_by cs => cs.length
decreasing_by all_goals simp only [List.length_cons, List.length_drop]; omega

/-- A string from after its opening quote, with the closing quote. The flag is false if a line ends
inside the string. -/
def stringBody (quote : Char) : List Char → Piece × Bool
  | [] => (.empty, true)
  | c :: cs =>
    if c = quote then (⟨[c], []⟩, true)
    else if isNewline c then (.empty, false)
    else if c = '\\' then
      -- an escaped line break vanishes, and so does a backslash that ends the input
      let e : Piece :=
        if startsNewline cs then ⟨lineBreak cs, []⟩ else if cs.isEmpty then .empty else escape cs
      let (p, closed) := stringBody quote (cs.drop e.raw.length)
      (Piece.append ⟨c :: e.raw, e.value⟩ p, closed)
    else
      let (p, closed) := stringBody quote cs
      (Piece.append ⟨[c], [withoutNul c]⟩ p, closed)
termination_by cs => cs.length
decreasing_by all_goals simp only [List.length_cons, List.length_drop]; omega

/-- A comment from after its opening mark, to the closing mark or the end of input. -/
def commentBody : List Char → List Char
  | [] => []
  | c :: cs =>
    if c = '*' && cs.head? = some '/' then ['*', '/'] else c :: commentBody cs

def signPart (cs : List Char) : List Char :=
  (cs.take 1).filter fun c => c = '+' || c = '-'

/-- `mark` followed by at least one digit, or nothing. -/
def markedDigits (mark cs : List Char) : List Char :=
  let digits := (cs.drop mark.length).takeWhile Char.isDigit
  if digits.isEmpty then [] else mark ++ digits

def fractionPart (cs : List Char) : List Char :=
  if cs.head? = some '.' then markedDigits ['.'] cs else []

def exponentPart : List Char → List Char
  | [] => []
  | c :: cs => if c = 'e' || c = 'E' then markedDigits (c :: signPart cs) (c :: cs) else []

/-- The longest start of the form sign, digits, fraction, exponent, each part only if complete. -/
def numberPart (cs : List Char) : List Char :=
  let sign := signPart cs
  let digits := (cs.drop sign.length).takeWhile Char.isDigit
  let whole := sign ++ digits
  let fraction := fractionPart (cs.drop whole.length)
  let mantissa := whole ++ fraction
  mantissa ++ exponentPart (cs.drop mantissa.length)

/-- Whether a number begins here: a digit after an optional sign and an optional point. -/
def startsNumber (cs : List Char) : Bool :=
  let cs := cs.drop (signPart cs).length
  let cs := if cs.head? = some '.' then cs.tail else cs
  cs.head?.any Char.isDigit

/-- Characters that no unquoted address may hold. -/
def breaksAddress (c : Char) : Bool :=
  isQuote c || c = '(' || c = '\x7f' || c = '\x0b'
    || (0x01 ≤ c.toNat && c.toNat ≤ 0x08) || (0x0e ≤ c.toNat && c.toNat ≤ 0x1f)

/-- What is left of a broken address: all to the next `)` that no backslash stands before. -/
def brokenAddress : List Char → List Char
  | [] => []
  | [c] => [c]
  | c :: d :: cs =>
    if c = ')' then [c]
    else if c = '\\' && (d = ')' || d = '\\') then c :: d :: brokenAddress cs
    else c :: brokenAddress (d :: cs)

/-- The end of an address after its first blank: blanks and the closing parenthesis only. -/
def addressEnd (cs : List Char) : List Char × Bool :=
  let blanks := cs.takeWhile isBlank
  match cs.drop blanks.length with
  | [] => (blanks, true)
  | c :: cs => if c = ')' then (blanks ++ [c], true) else (blanks ++ c :: brokenAddress cs, false)

/-- An unquoted address with its closing parenthesis. The flag is false if it is broken. -/
def addressBody : List Char → List Char × Bool
  | [] => ([], true)
  | c :: cs =>
    if c = ')' then ([c], true)
    else if isBlank c then addressEnd (c :: cs)
    else if breaksAddress c || (c = '\\' && startsNewline cs) then (c :: brokenAddress cs, false)
    else
      let e := if c = '\\' then (escape cs).raw else []
      let (rest, whole) := addressBody (cs.drop e.length)
      (c :: e ++ rest, whole)
termination_by cs => cs.length
decreasing_by all_goals simp only [List.length_cons, List.length_drop]; omega

/-- A lexeme. A call is only its name and opening parenthesis. -/
structure Lexeme where
  kind : TokenKind
  raw : List Char
  text : List Char
  isCall : Bool
  deriving DecidableEq, Repr

namespace Lexeme

/-- A lexeme whose text is what was read. -/
def plain (kind : TokenKind) (raw : List Char) : Lexeme := ⟨kind, raw, raw, false⟩

def ofString (quote : Char) (cs : List Char) : Lexeme :=
  let (body, closed) := stringBody quote cs
  if closed then ⟨.string, quote :: body.raw, '"' :: body.value ++ ['"'], false⟩
  else plain .other (quote :: body.raw)

def ofHash (cs : List Char) : Lexeme :=
  if startsName cs || cs.head?.any (fun c => c.isDigit || c = '-') then
    let n := name cs
    ⟨.hash, '#' :: n.raw, '#' :: n.value, false⟩
  else plain .character ['#']

def ofAt (cs : List Char) : Lexeme :=
  if startsName cs then plain .other ('@' :: (name cs).raw) else plain .character ['@']

/-- A number; with a percent sign or a unit after it, it is no token of the language. -/
def ofNumber (cs : List Char) : Lexeme :=
  let number := numberPart cs
  let rest := cs.drop number.length
  if rest.head? = some '%' then plain .other (number ++ ['%'])
  else if startsName rest then plain .other (number ++ (name rest).raw)
  else plain .number number

/-- An address after the opening parenthesis of `url(`, or none if it is quoted. -/
def unquotedAddress? (cs : List Char) : Option (List Char × Bool) :=
  let blanks := cs.takeWhile isBlank
  let body := cs.drop blanks.length
  if body.head?.any isQuote then none
  else
    let (raw, whole) := addressBody body
    some (blanks ++ raw, whole)

/-- An identifier, an address or the start of a call. -/
def ofName (cs : List Char) : Lexeme :=
  let n := name cs
  let rest := cs.drop n.raw.length
  if rest.head? = some '(' then
    let opened := n.raw ++ ['(']
    let isUrl := n.value.map Char.toLower = ['u', 'r', 'l']
    let call : Lexeme := ⟨if isUrl then .uri else .other, opened, opened, true⟩
    if isUrl then
      match unquotedAddress? rest.tail with
      | some (raw, whole) => plain (if whole then .uri else .other) (opened ++ raw)
      | none => call
    else call
  else ⟨.identifier, n.raw, n.value, false⟩

/-- Marks of more than one character, none of which the language uses. -/
def markPart (cs : List Char) : List Char :=
  if cs.take 3 = ['-', '-', '>'] then cs.take 3
  else if cs.take 4 = ['<', '!', '-', '-'] then cs.take 4
  else if cs.head?.any (fun c => c = '$' || c = '*' || c = '^' || c = '|' || c = '~')
      && cs.tail.head? = some '=' then cs.take 2
  else []

/-- The lexeme at the start of `c :: cs`. -/
def first (c : Char) (cs : List Char) : Lexeme :=
  if isBlank c then plain .whitespace (c :: cs.takeWhile isBlank)
  else if c = '/' && cs.head? = some '*' then plain .comment ('/' :: '*' :: commentBody cs.tail)
  else if isQuote c then ofString c cs
  else if c = '#' then ofHash cs
  else if c = '@' then ofAt cs
  else if startsNumber (c :: cs) then ofNumber (c :: cs)
  else if !(markPart (c :: cs)).isEmpty then plain .other (markPart (c :: cs))
  else if startsName (c :: cs) then ofName (c :: cs)
  else plain .character [c]

end Lexeme

theorem name_raw_ne_nil {cs : List Char} (h : startsName cs) : (name cs).raw ≠ [] := by
  cases cs with
  | nil => cases h
  | cons c cs =>
    unfold name
    unfold startsName at h
    by_cases hb : c = '\\'
    · simp_all [Piece.append]
    · have hc : isNameChar c := by
        by_cases hm : c = '-'
        · simp [isNameChar, hm]
        · simp_all [isNameChar]
      simp [hb, hc, Piece.append]

theorem numberPart_ne_nil {cs : List Char} (h : startsNumber cs) : numberPart cs ≠ [] := by
  intro hn
  simp only [numberPart, List.append_eq_nil_iff] at hn
  obtain ⟨⟨⟨hs, hd⟩, hf⟩, -⟩ := hn
  simp only [startsNumber, hs, List.length_nil, List.drop_zero] at h hd hf
  cases cs with
  | nil => simp at h
  | cons c cs =>
    by_cases hp : c = '.'
    · subst hp
      cases cs with
      | nil => simp at h
      | cons d ds => simp_all [fractionPart, markedDigits]
    · simp_all

namespace Lexeme

/-- Something is always read. -/
theorem raw_first_ne_nil (c : Char) (cs : List Char) : (first c cs).raw ≠ [] := by
  unfold first
  split
  · simp [plain]
  split
  · simp [plain]
  split
  · unfold ofString
    dsimp only
    split <;> simp [plain]
  split
  · unfold ofHash
    split <;> simp [plain]
  split
  · unfold ofAt
    split <;> simp [plain]
  split
  · rename_i h
    have hn := numberPart_ne_nil h
    unfold ofNumber
    dsimp only
    split
    · simp [plain]
    split
    · simp [plain, hn]
    · simp [plain, hn]
  split
  · rename_i h
    simpa [plain] using h
  split
  · rename_i h
    have hn := name_raw_ne_nil h
    unfold ofName
    dsimp only
    split
    · split
      · split
        · simp [plain]
        · simp
      · simp
    · exact hn
  · simp [plain]

end Lexeme

end Cartosheet
