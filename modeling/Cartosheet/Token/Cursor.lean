import Cartosheet.Token

namespace Cartosheet

structure Cursor where
  /-- Tokens not read yet, apart from the one held back. -/
  rest : List Token
  held : Option Token := none
  /-- Where the token read last began. -/
  last : Position := .start
  /-- Set once a token is put back while another is held, which is then lost. -/
  overrun : Bool := false
  deriving DecidableEq, Repr

namespace Cursor

/-- The tokens still to come. -/
def pending (c : Cursor) : List Token := c.held.toList ++ c.rest

def size (c : Cursor) : Nat := c.pending.length

def next (c : Cursor) : Option Token × Cursor :=
  match c.held with
  | some t => (some t, { c with held := none, last := t.position })
  | none =>
    match c.rest with
    | [] => (none, c)
    | t :: ts => (some t, { c with rest := ts, last := t.position })

def putBack (c : Cursor) (t : Token) : Cursor :=
  { c with held := some t, overrun := c.overrun || c.held.isSome }

theorem size_next {c d : Cursor} {t : Token} (h : c.next = (some t, d)) : d.size < c.size := by
  unfold next at h
  split at h
  next held =>
    cases h
    simp [size, pending, held]
  next held =>
    split at h
    · cases h
    next rest =>
      cases h
      simp [size, pending, held, rest]

/-- The next token that is not to be skipped. -/
def nextPast (skip : Token → Bool) (c : Cursor) : Option Token × Cursor :=
  match _h : c.next with
  | (none, d) => (none, d)
  | (some t, d) => if skip t then nextPast skip d else (some t, d)
termination_by c.size
decreasing_by exact size_next _h

/-- The next token that is neither whitespace nor a comment. -/
def nextSignificant (c : Cursor) : Option Token × Cursor := c.nextPast Token.isTransparent

/-- The next token that is no comment. -/
def nextPastComments (c : Cursor) : Option Token × Cursor := c.nextPast Token.isComment

theorem next_none {c d : Cursor} (h : c.next = (none, d)) : d = c := by
  unfold next at h
  split at h
  · cases h
  · split at h
    · cases h; rfl
    · cases h

theorem size_nextPast {skip : Token → Bool} {c d : Cursor} {t : Token}
    (h : c.nextPast skip = (some t, d)) : d.size < c.size := by
  fun_induction nextPast skip c with
  | case1 => cases h
  | case2 c t e hn _ ih => exact Nat.lt_trans (ih h) (size_next hn)
  | case3 c t e hn => cases h; exact size_next hn

theorem size_nextPast_le (skip : Token → Bool) (c : Cursor) :
    (c.nextPast skip).2.size ≤ c.size := by
  fun_induction nextPast skip c with
  | case1 c d hn =>
    obtain rfl := next_none hn
    exact Nat.le_refl _
  | case2 c t d hn _ ih => exact Nat.le_trans ih (Nat.le_of_lt (size_next hn))
  | case3 c t d hn => exact Nat.le_of_lt (size_next hn)

/-- Putting back a token just read takes the cursor no further back than it was. -/
theorem size_putBack_nextPast {skip : Token → Bool} {c d : Cursor} {t u : Token}
    (h : c.nextPast skip = (some t, d)) : (d.putBack u).size ≤ c.size := by
  have hd : d.held = none := by
    fun_induction nextPast skip c with
    | case1 => cases h
    | case2 c t e hn _ ih => exact ih h
    | case3 c t e hn =>
      cases h
      unfold next at hn
      split at hn
      · cases hn; rfl
      · split at hn
        · cases hn
        · cases hn; assumption
  have := size_nextPast h
  simp only [size, pending, putBack, hd] at this ⊢
  simp at this ⊢
  omega

end Cursor

end Cartosheet
