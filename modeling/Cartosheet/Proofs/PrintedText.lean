import Cartosheet.Proofs.NestedBlocks
import Cartosheet.Proofs.SelectorItems
import Cartosheet.Proofs.WholeNumbers

namespace Cartosheet

/-- Letters, digits, `_` and `-`. -/
def isWordChar (c : Char) : Bool := c.isAlphanum || c = '_' || c = '-'

/-- A name of word characters alone, with a condition on the first of them. -/
def isPlainName (starts : Char → Bool) : List Char → Bool
  | [] => false
  | c :: cs => starts c && cs.all isWordChar

theorem isPlainName_eq_true {starts : Char → Bool} {cs : List Char}
    (h : isPlainName starts cs = true) :
    ∃ d ds, cs = d :: ds ∧ starts d = true ∧ ∀ c ∈ ds, isWordChar c = true := by
  cases cs with
  | nil => cases h
  | cons d ds =>
    rw [isPlainName, Bool.and_eq_true, List.all_eq_true] at h
    exact ⟨d, ds, rfl, h.1, h.2⟩

/-- The text cannot go on with a name before it, nor make a call of it. -/
def Ends (rest : List Char) : Prop :=
  ∃ c cs, rest = c :: cs ∧ isNameChar c = false ∧ c ≠ '\\' ∧ c ≠ '('

theorem isNameChar_of_isWordChar {c : Char} (h : isWordChar c = true) : isNameChar c = true := by
  simp only [isWordChar, Char.isAlphanum, Bool.or_eq_true, decide_eq_true_eq] at h
  rcases h with ((h | h) | rfl) | rfl
  · simp [isNameChar, isNameStart, h]
  · simp [isNameChar, h]
  · decide
  · decide

theorem name_word {cs rest : List Char} (h : ∀ c ∈ cs, isWordChar c = true) (hrest : Ends rest) :
    name (cs ++ rest) = ⟨cs, cs⟩ := by
  obtain ⟨c, cs, rfl, hname, hescape, -⟩ := hrest
  refine name_append ?_ (name_eq_empty hname hescape)
  intro d hd
  exact ⟨isNameChar_of_isWordChar (h d hd), ne_of_property (h d hd) rfl⟩

namespace Lexeme

/-- Characters that tell what a lexeme is from the first one on. -/
def isSpecial (c : Char) : Bool :=
  [' ', '\t', '\n', '\r', '\x0c', '/', '"', '\'', '#', '@'].contains c

theorem first_of_isSpecial {c : Char} (h : isSpecial c = false) (cs : List Char) :
    first c cs =
      if startsNumber (c :: cs) then ofNumber (c :: cs)
      else if !(markPart (c :: cs)).isEmpty then plain .other (markPart (c :: cs))
      else if startsName (c :: cs) then ofName (c :: cs)
      else plain .character [c] := by
  simp only [isSpecial, List.contains_eq_mem, List.mem_cons, List.not_mem_nil, or_false, not_or,
    decide_eq_false_iff_not] at h
  simp [first, isBlank, isNewline, isQuote, h]

theorem markPart_eq_nil {c : Char} (h : ['-', '<', '$', '*', '^', '|', '~'].contains c = false)
    (cs : List Char) : markPart (c :: cs) = [] := by
  simp only [List.contains_eq_mem, List.mem_cons, List.not_mem_nil, or_false, not_or,
    decide_eq_false_iff_not] at h
  simp [markPart, h]

theorem startsName_of_isAlpha {c : Char} (h : c.isAlpha = true) (cs : List Char) :
    startsName (c :: cs) = true := by
  rw [startsName, if_neg (ne_of_property h rfl), if_neg (ne_of_property h rfl)]
  simp [isNameStart, h]

/-- A letter begins a name. -/
theorem first_of_isAlpha {c : Char} (hc : c.isAlpha = true) (cs : List Char) :
    first c cs = ofName (c :: cs) := by
  have hnumber : startsNumber (c :: cs) = false := by
    have hplus : c ≠ '+' := ne_of_property hc rfl
    have hminus : c ≠ '-' := ne_of_property hc rfl
    have hpoint : c ≠ '.' := ne_of_property hc rfl
    have hdigit := isDigit_eq_false_of_isAlpha hc
    simp [startsNumber, signPart, hplus, hminus, hpoint, hdigit]
  rw [first_of_isSpecial (contains_eq_false hc rfl), hnumber,
    markPart_eq_nil (contains_eq_false hc rfl), startsName_of_isAlpha hc]
  rfl

/-- A word is an identifier. -/
theorem first_word {c : Char} {cs rest : List Char} (hc : c.isAlpha = true)
    (h : ∀ d ∈ cs, isWordChar d = true) (hrest : Ends rest) :
    first c (cs ++ rest) = ⟨.identifier, c :: cs, c :: cs, false⟩ := by
  have hword : ∀ d ∈ c :: cs, isWordChar d = true := by
    rw [List.forall_mem_cons]
    exact ⟨by simp [isWordChar, Char.isAlphanum, hc], h⟩
  have hname : name (c :: (cs ++ rest)) = ⟨c :: cs, c :: cs⟩ := name_word hword hrest
  obtain ⟨d, ds, rfl, -, -, hcall⟩ := hrest
  rw [first_of_isAlpha hc]
  simp [ofName, hname, hcall]

theorem first_hash {cs rest : List Char} (hword : isPlainName Char.isAlphanum cs = true)
    (hrest : Ends rest) : first '#' (cs ++ rest) = ⟨.hash, '#' :: cs, '#' :: cs, false⟩ := by
  obtain ⟨c, cs, rfl, hc, h⟩ := isPlainName_eq_true hword
  have hname : name (c :: cs ++ rest) = ⟨c :: cs, c :: cs⟩ := by
    refine name_word ?_ hrest
    rw [List.forall_mem_cons]
    exact ⟨by simp [isWordChar, hc], h⟩
  have hstarts : (startsName (c :: (cs ++ rest)) || (c.isDigit || c = '-')) = true := by
    rw [Char.isAlphanum, Bool.or_eq_true] at hc
    rcases hc with hc | hc
    · simp [startsName_of_isAlpha hc]
    · simp [hc]
  change ofHash (c :: cs ++ rest) = _
  simp only [List.cons_append] at hname ⊢
  simp only [ofHash, List.head?_cons, Option.any_some, hstarts, if_true, hname]

theorem first_character {c : Char} {cs : List Char} (hspecial : isSpecial c = false)
    (hnumber : startsNumber (c :: cs) = false) (hmark : markPart (c :: cs) = [])
    (hname : startsName (c :: cs) = false) : first c cs = plain .character [c] := by
  rw [first_of_isSpecial hspecial, hnumber, hmark, hname]
  rfl

/-- A `*` is a token of its own unless it is the start of a mark. -/
theorem first_star {rest : List Char} (h : rest.head? ≠ some '=') :
    first '*' rest = plain .character ['*'] :=
  first_character (by decide) rfl (by simp [markPart, h]) rfl

/-- So is a `<`. -/
theorem first_less {rest : List Char} (h : rest.head? ≠ some '!') :
    first '<' rest = plain .character ['<'] := by
  refine first_character (by decide) rfl ?_ rfl
  cases rest with
  | nil => rfl
  | cons c cs =>
    have hc : c ≠ '!' := by simpa using h
    simp [markPart, hc]

/-- A point is one unless it is the start of a number. -/
theorem first_point {c : Char} (h : c.isDigit = false) (rest : List Char) :
    first '.' (c :: rest) = plain .character ['.'] :=
  first_character (by decide) (by simp [startsNumber, signPart, h])
    (markPart_eq_nil (by decide) _) rfl

theorem first_space {c : Char} (h : isBlank c = false) (rest : List Char) :
    first ' ' (c :: rest) = plain .whitespace [' '] := by
  have hblanks : (c :: rest).takeWhile isBlank = [] := List.takeWhile_cons_of_neg (by simp [h])
  rw [first, if_pos (by decide), hblanks]

theorem signPart_wholeText (negative : Bool) (n : Nat) (rest : List Char) :
    signPart (wholeText negative n ++ rest) = if negative then ['-'] else [] := by
  cases negative with
  | true => rfl
  | false =>
    obtain ⟨d, ds, hdigits, hd⟩ := toDigits_eq_cons n
    have hplus : d ≠ '+' := ne_of_property hd rfl
    have hminus : d ≠ '-' := ne_of_property hd rfl
    simp [signPart, wholeText, hdigits, hplus, hminus]

theorem drop_sign (negative : Bool) (n : Nat) (rest : List Char) :
    (wholeText negative n ++ rest).drop (if negative then ['-'] else []).length =
      Nat.toDigits 10 n ++ rest := by
  rw [wholeText, List.append_assoc, List.drop_left]

theorem numberPart_wholeText (negative : Bool) (n : Nat) (rest : List Char) :
    numberPart (wholeText negative n ++ ']' :: rest) = wholeText negative n := by
  have htake : (Nat.toDigits 10 n ++ ']' :: rest).takeWhile Char.isDigit = Nat.toDigits 10 n := by
    rw [List.takeWhile_append_of_pos (isDigit_toDigits n),
      List.takeWhile_cons_of_neg (by decide), List.append_nil]
  have hwhole : (if negative then ['-'] else []) ++ Nat.toDigits 10 n = wholeText negative n := rfl
  have hfraction : fractionPart (']' :: rest) = [] := rfl
  have hexponent : exponentPart (']' :: rest) = [] := rfl
  simp only [numberPart, signPart_wholeText, drop_sign, htake, hwhole, List.drop_left, hfraction,
    List.append_nil, hexponent]

/-- A whole number before a bracket is one number. -/
theorem first_wholeText {negative : Bool} {n : Nat} {c : Char} {cs : List Char}
    (h : wholeText negative n = c :: cs) (rest : List Char) :
    first c (cs ++ ']' :: rest) = plain .number (c :: cs) := by
  obtain ⟨d, ds, hdigits, hd⟩ := toDigits_eq_cons n
  have hspecial : isSpecial c = false := by
    cases negative with
    | true =>
      cases h
      rfl
    | false =>
      obtain ⟨rfl, -⟩ := List.cons.inj (hdigits.symm.trans h)
      exact contains_eq_false hd rfl
  have hstarts : startsNumber (wholeText negative n ++ ']' :: rest) = true := by
    have hpoint : d ≠ '.' := ne_of_property hd rfl
    simp only [startsNumber, signPart_wholeText, drop_sign]
    simp [hdigits, hpoint, hd]
  rw [h, List.cons_append] at hstarts
  rw [first_of_isSpecial hspecial, if_pos hstarts]
  have hnumber := numberPart_wholeText negative n rest
  rw [h] at hnumber
  change ofNumber (c :: cs ++ ']' :: rest) = _
  rw [ofNumber, hnumber, List.drop_left]
  rfl

/-- Up to its closing quote a string without escapes stands for itself. -/
theorem stringBody_unescaped {quote : Char} {cs : List Char}
    (h : ∀ c ∈ cs, c ≠ quote ∧ c ≠ '\\' ∧ c ≠ '\x00' ∧ isNewline c = false) (rest : List Char) :
    stringBody quote (cs ++ quote :: rest) = (⟨cs ++ [quote], cs⟩, true) := by
  induction cs with
  | nil =>
    rw [List.nil_append, stringBody, if_pos rfl]
    rfl
  | cons c cs ih =>
    obtain ⟨hquote, hescape, hnul, hnewline⟩ := h c (by simp)
    have hvalue : withoutNul c = c := if_neg hnul
    rw [List.cons_append, stringBody, if_neg hquote, if_neg (by simp [hnewline]), if_neg hescape,
      ih fun d hd => h d (by simp [hd]), hvalue]
    rfl

/-- The characters of a string that need no escape. -/
def isStringChar (c : Char) : Bool :=
  c ≠ '"' && c ≠ '\\' && c ≠ '\x00' && !isNewline c

theorem first_string {cs : List Char} (h : ∀ c ∈ cs, isStringChar c = true) (rest : List Char) :
    first '"' (cs ++ '"' :: rest) =
      ⟨.string, '"' :: (cs ++ ['"']), '"' :: (cs ++ ['"']), false⟩ := by
  change ofString '"' (cs ++ '"' :: rest) = _
  rw [ofString, stringBody_unescaped fun c hc => by simpa [isStringChar, and_assoc] using h c hc]
  rfl

end Lexeme

namespace Token

/-- The text comes apart into tokens of a kind, whatever position it begins at, and the rest is not
touched by it. -/
def Scans (cs rest : List Char) (P : List Token → Prop) : Prop :=
  ∀ p, ∃ ts q, scanFrom p (cs ++ rest) = ts ++ scanFrom q rest ∧ P ts

/-- One token of a kind and a text. -/
def One (kind : TokenKind) (text : String) (ts : List Token) : Prop :=
  ∃ p, ts = [⟨kind, text, p⟩]

theorem Scans.append {cs ds rest : List Char} {P Q R : List Token → Prop}
    (hcs : Scans cs (ds ++ rest) P) (hds : Scans ds rest Q)
    (h : ∀ ts us, P ts → Q us → R (ts ++ us)) : Scans (cs ++ ds) rest R := by
  intro p
  obtain ⟨ts, q, hts, hP⟩ := hcs p
  obtain ⟨us, q', hus, hQ⟩ := hds q
  refine ⟨ts ++ us, q', ?_, h ts us hP hQ⟩
  rw [List.append_assoc, hts, hus, List.append_assoc]

theorem Scans.mono {cs rest : List Char} {P Q : List Token → Prop} (h : Scans cs rest P)
    (hQ : ∀ ts, P ts → Q ts) : Scans cs rest Q := by
  intro p
  obtain ⟨ts, q, hts, hP⟩ := h p
  exact ⟨ts, q, hts, hQ ts hP⟩

/-- A lexeme that takes the whole text is one token. -/
theorem scans_first {c : Char} {cs rest text : List Char} {kind : TokenKind}
    (h : Lexeme.first c (cs ++ rest) = ⟨kind, c :: cs, text, false⟩) :
    Scans (c :: cs) rest (One kind (String.ofList text)) := by
  intro p
  refine ⟨[⟨kind, String.ofList text, p⟩], p.advance (c :: cs), ?_, p, rfl⟩
  have hdrop : (c :: (cs ++ rest)).drop (c :: cs).length = rest := List.drop_left
  rw [List.cons_append, scanFrom_of_first h rfl, hdrop]
  rfl

/-- One token that is a character. -/
def Mark (c : Char) (ts : List Token) : Prop := ∃ t, ts = [t] ∧ t.isChar c = true

theorem scans_character {c : Char} {rest : List Char}
    (h : Lexeme.first c rest = Lexeme.plain .character [c]) : Scans [c] rest (Mark c) := by
  refine (scans_first h).mono ?_
  rintro ts ⟨p, rfl⟩
  exact ⟨_, rfl, by simp [isChar]⟩

theorem scans_standsAlone {c : Char} (h : Lexeme.standsAlone c = true) (rest : List Char) :
    Scans [c] rest (Mark c) :=
  scans_character (Lexeme.first_standsAlone h rest)

theorem scans_word {word : String} {rest : List Char}
    (h : isPlainName Char.isAlpha word.toList = true) (hrest : Ends rest) :
    Scans word.toList rest (One .identifier word) := by
  obtain ⟨c, cs, hword, hc, hcs⟩ := isPlainName_eq_true h
  have hscan := scans_first (Lexeme.first_word hc hcs hrest)
  rwa [← hword, String.ofList_toList] at hscan

end Token

end Cartosheet
