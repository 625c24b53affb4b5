import Cartosheet.Token.Scan

namespace Cartosheet

namespace Position

/-- Earlier in the text: on a line above, or further left on the same line. -/
def Before (p q : Position) : Prop :=
  p.line < q.line ∨ p.line = q.line ∧ p.column < q.column

theorem Before.trans {p q r : Position} (h : p.Before q) (h' : q.Before r) : p.Before r := by
  unfold Before at *
  omega

theorem Before.ne {p q : Position} (h : p.Before q) : p ≠ q := by
  rintro rfl
  unfold Before at h
  omega

theorem before_nextLine (p : Position) : p.Before p.nextLine :=
  .inl (Nat.lt_succ_self p.line)

theorem before_codeUnits (p : Position) (c : Char) : p.Before ⟨p.line, p.column + codeUnits c⟩ := by
  refine .inr ⟨rfl, ?_⟩
  unfold codeUnits
  split <;> simp

/-- Reading on never leads back. -/
theorem Before.advance {p q : Position} (h : p.Before q) (cs : List Char) :
    p.Before (q.advance cs) := by
  fun_induction Position.advance q cs with
  | case1 => exact h
  | case2 q c cs _ ih => exact ih h
  | case3 q c cs _ _ ih => exact ih (h.trans q.before_nextLine)
  | case4 q c cs _ _ ih => exact ih (h.trans (q.before_codeUnits c))

theorem before_advance (p : Position) {cs : List Char} (h : cs ≠ []) :
    p.Before (p.advance cs) := by
  fun_induction Position.advance p cs with
  | case1 => exact absurd rfl h
  | case2 p c cs hc ih =>
    -- the CR alone does not move the position, but its LF is still to come
    refine ih ?_
    rintro rfl
    simp at hc
  | case3 p c cs _ _ _ => exact p.before_nextLine.advance cs
  | case4 p c cs _ _ _ => exact (p.before_codeUnits c).advance cs

end Position

namespace Token

theorem before_scanFrom {p q : Position} (h : p.Before q) (cs : List Char) :
    ∀ t ∈ scanFrom q cs, p.Before t.position := by
  fun_induction scanFrom q cs with
  | case1 => simp
  | case2 q c cs l ih =>
    intro t ht
    rcases List.mem_cons.mp ht with rfl | ht
    · exact h
    · exact ih (h.advance l.raw) t ht

theorem pairwise_scanFrom (p : Position) (cs : List Char) :
    (scanFrom p cs).Pairwise (·.position.Before ·.position) := by
  fun_induction scanFrom p cs with
  | case1 => exact .nil
  | case2 p c cs l ih =>
    have hl := p.before_advance (Lexeme.raw_firstWhole_ne_nil c cs)
    exact .cons (before_scanFrom hl _) ih

/-- No two tokens of a stylesheet stand at one position. -/
theorem pairwise_scan (source : String) :
    (scan source).Pairwise (·.position.Before ·.position) :=
  pairwise_scanFrom .start source.toList

end Token

end Cartosheet
