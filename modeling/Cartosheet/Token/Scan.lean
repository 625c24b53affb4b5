import Cartosheet.Token.Lexeme

namespace Cartosheet

namespace Lexeme

/-- The closers still awaited after a lexeme inside a call, innermost first. A closer that is not
the innermost one awaited is passed over. -/
def settle (l : Lexeme) (awaited : List Char) : List Char :=
  if l.isCall then ')' :: awaited
  else if l.kind ≠ .character then awaited
  else if l.raw = ['('] then ')' :: awaited
  else if l.raw = ['['] then ']' :: awaited
  else if l.raw = ['{'] then '}' :: awaited
  else if l.raw = awaited.take 1 then awaited.drop 1
  else awaited

theorem length_drop_raw (l : Lexeme) (h : l.raw ≠ []) (c : Char) (cs : List Char) :
    ((c :: cs).drop l.raw.length).length < (c :: cs).length := by
  have := List.length_pos_iff.mpr h
  simp only [List.length_drop, List.length_cons]
  omega

/-- What a call takes in after its opening parenthesis: all lexemes until nothing is awaited. -/
def arguments (awaited : List Char) : List Char → List Char
  | [] => []
  | c :: cs =>
    if awaited.isEmpty then []
    else
      let l := first c cs
      l.raw ++ arguments (l.settle awaited) ((c :: cs).drop l.raw.length)
termination_by cs => cs.length
decreasing_by exact length_drop_raw _ (raw_first_ne_nil c cs) c cs

/-- The lexeme at the start of `c :: cs`, a call with its arguments. -/
def firstWhole (c : Char) (cs : List Char) : Lexeme :=
  let l := first c cs
  if l.isCall then plain l.kind (l.raw ++ arguments [')'] ((c :: cs).drop l.raw.length))
  else l

theorem raw_firstWhole_ne_nil (c : Char) (cs : List Char) : (firstWhole c cs).raw ≠ [] := by
  have h := raw_first_ne_nil c cs
  unfold firstWhole
  dsimp only
  split
  · simp [plain, h]
  · exact h

end Lexeme

namespace Token

/-- The tokens of `cs`, which begins at position `p`. -/
def scanFrom (p : Position) : List Char → List Token
  | [] => []
  | c :: cs =>
    let l := Lexeme.firstWhole c cs
    ⟨l.kind, String.ofList l.text, p⟩
      :: scanFrom (p.advance l.raw) ((c :: cs).drop l.raw.length)
termination_by cs => cs.length
decreasing_by exact Lexeme.length_drop_raw _ (Lexeme.raw_firstWhole_ne_nil c cs) c cs

/-- The tokens of a stylesheet. -/
def scan (source : String) : List Token :=
  scanFrom .start source.toList

end Token

end Cartosheet
