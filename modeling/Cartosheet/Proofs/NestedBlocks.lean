import Cartosheet.Proofs.LexemeText

namespace Cartosheet

namespace Lexeme

/-- Characters that are lexemes of their own, whatever follows. -/
def standsAlone (c : Char) : Bool :=
  ['(', ')', '[', ']', '{', '}', ':', ';', ',', '=', '!', '>'].contains c

theorem first_standsAlone {c : Char} (h : standsAlone c = true) (cs : List Char) :
    first c cs = plain .character [c] := by
  simp only [standsAlone, List.contains_eq_mem, List.mem_cons, List.not_mem_nil, or_false,
    decide_eq_true_eq] at h
  rcases h with rfl | rfl | rfl | rfl | rfl | rfl | rfl | rfl | rfl | rfl | rfl | rfl <;> rfl

end Lexeme

namespace Token

/-- The tokens by the lexeme that the text starts with. -/
theorem scanFrom_of_first {p : Position} {c : Char} {cs : List Char} {l : Lexeme}
    (h : Lexeme.first c cs = l) (hl : l.isCall = false) :
    scanFrom p (c :: cs) = ⟨l.kind, String.ofList l.text, p⟩ ::
      scanFrom (p.advance l.raw) ((c :: cs).drop l.raw.length) := by
  have hw : Lexeme.firstWhole c cs = l := by
    rw [Lexeme.firstWhole, h, hl]
    rfl
  rw [scanFrom, hw]

theorem scanFrom_standsAlone {c : Char} (h : Lexeme.standsAlone c = true) (p : Position)
    (cs : List Char) :
    scanFrom p (c :: cs) =
      ⟨.character, String.singleton c, p⟩ :: scanFrom (p.advance [c]) cs :=
  scanFrom_of_first (Lexeme.first_standsAlone h cs) rfl

/-- The closing bracket of a block, by its opening one. -/
def closer? : Char → Option Char
  | '(' => some ')'
  | '[' => some ']'
  | '{' => some '}'
  | _ => none

/-- Tokens read from a text of a given length, and what is left of it where they stopped. -/
structure Walk (length : Nat) where
  tokens : List Token
  stop : Position
  rest : List Char
  short : rest.length ≤ length

/-- The same with more of the text and its tokens before. -/
def Walk.after {m n : Nat} (ts : List Token) (w : Walk m) (h : m ≤ n) : Walk n :=
  ⟨ts ++ w.tokens, w.stop, w.rest, Nat.le_trans w.short h⟩

/-- Reads the inside of a block up to its closing bracket, which is left, or to the end of the text.
Outside all blocks there is no closing bracket to wait for. -/
def walk (closer : Option Char) (p : Position) : (cs : List Char) → Walk cs.length
  | [] => ⟨[], p, [], Nat.le_refl _⟩
  | c :: cs =>
    if closer = some c then ⟨[], p, c :: cs, Nat.le_refl _⟩
    else
      match closer? c with
      | none =>
        let l := Lexeme.firstWhole c cs
        have hl := Lexeme.length_drop_raw l (Lexeme.raw_firstWhole_ne_nil c cs) c cs
        (walk closer (p.advance l.raw) ((c :: cs).drop l.raw.length)).after
          [⟨l.kind, String.ofList l.text, p⟩] (Nat.le_of_lt hl)
      | some close =>
        let opening : Token := ⟨.character, String.singleton c, p⟩
        match walk (some close) (p.advance [c]) cs with
        -- the text has ended inside the block
        | ⟨inside, q, [], _⟩ => ⟨opening :: inside, q, [], Nat.zero_le _⟩
        | ⟨inside, q, d :: rest, short⟩ =>
          let closing : Token := ⟨.character, String.singleton close, q⟩
          (walk closer (q.advance [d]) rest).after (opening :: inside ++ [closing])
            (Nat.le_of_lt (Nat.lt_succ_of_lt short))
termination_by cs => cs.length
decreasing_by
  · exact hl
  · exact Nat.lt_succ_self _
  · exact Nat.lt_succ_of_lt short

/-- The tokens of a stylesheet, read block by block. -/
def walkAll (source : String) : List Token := (walk none .start source.toList).tokens

theorem standsAlone_of_closer? {c close : Char} (h : closer? c = some close) :
    Lexeme.standsAlone c = true ∧ Lexeme.standsAlone close = true := by
  unfold closer? at h
  split at h <;> cases h <;> decide

/-- A walk gives the tokens up to where it stops, and it stops at the bracket it waits for or at the
end of the text. -/
theorem scanFrom_eq_walk (closer : Option Char) (p : Position) (cs : List Char)
    (hcloser : ∀ d, closer = some d → Lexeme.standsAlone d = true) :
    scanFrom p cs = (walk closer p cs).tokens ++
        scanFrom (walk closer p cs).stop (walk closer p cs).rest ∧
      ((walk closer p cs).rest = [] ∨
        ∃ d rest, closer = some d ∧ (walk closer p cs).rest = d :: rest) := by
  fun_induction walk closer p cs with
  | case1 closer p => exact ⟨rfl, .inl rfl⟩
  | case2 p c cs => exact ⟨rfl, .inr ⟨c, cs, rfl, rfl⟩⟩
  | case3 closer p c cs _ _ l hl ih =>
    obtain ⟨hscan, hrest⟩ := ih hcloser
    refine ⟨?_, hrest⟩
    rw [scanFrom]
    exact congrArg (List.cons _) hscan
  | case4 closer p c cs _ close hopen opening inside q short hinner ih =>
    obtain ⟨hc, hclose⟩ := standsAlone_of_closer? hopen
    obtain ⟨hscan, -⟩ := ih (by rintro d ⟨⟩; exact hclose)
    rw [hinner] at hscan
    refine ⟨?_, .inl rfl⟩
    rw [scanFrom_standsAlone hc, hscan]
    rfl
  | case5 closer p c cs _ close hopen opening inside q d rest short hinner closing ih ih' =>
    obtain ⟨hc, hclose⟩ := standsAlone_of_closer? hopen
    obtain ⟨hscan, hstop⟩ := ih (by rintro d ⟨⟩; exact hclose)
    obtain ⟨hscan', hrest⟩ := ih' hcloser
    rw [hinner] at hscan hstop
    -- what the inner walk left starts with the bracket that it waited for
    have hd : d = close := by
      rcases hstop with hnil | ⟨d', rest', hd', hcons⟩
      · cases hnil
      · cases hd'
        cases hcons
        rfl
    subst hd
    refine ⟨?_, hrest⟩
    rw [scanFrom_standsAlone hc, hscan, scanFrom_standsAlone hclose, hscan']
    simp [Walk.after, opening, closing]

/-- Read block by block or without blocks, a stylesheet has the same tokens. -/
theorem walkAll_eq_scan (source : String) : walkAll source = scan source := by
  obtain ⟨hscan, hrest⟩ := scanFrom_eq_walk none .start source.toList (by rintro d ⟨⟩)
  rcases hrest with hrest | ⟨d, rest, hd, -⟩
  · rw [scan, hscan, hrest, scanFrom, List.append_nil]
    rfl
  · cases hd

end Token

end Cartosheet
