import Cartosheet.Token.Reader

namespace Cartosheet

namespace Token

/-- The position of the last token, or `p` if there is none. -/
def lastOr (p : Position) : List Token → Position
  | [] => p
  | t :: ts => lastOr t.position ts

/-- What is left after a skip begins with a token that is not skipped. -/
theorem not_skipped_of_dropWhile {skip : Token → Bool} {t : Token} {ts us : List Token}
    (h : ts.dropWhile skip = t :: us) : skip t = false := by
  have ht := List.head_dropWhile_not skip (l := ts) (by simp [h])
  simpa [h] using ht

theorem isTransparent_of_isComment {t : Token} (h : t.isComment = true) :
    t.isTransparent = true := by
  simp only [isComment, decide_eq_true_eq] at h
  simp [isTransparent, h]

theorem isTransparent_eq_false_of_kind {t : Token} (hw : t.kind ≠ .whitespace)
    (hc : t.kind ≠ .comment) : t.isTransparent = false := by
  simp [isTransparent, hw, hc]

theorem kind_of_isChar {t : Token} {a : Char} (h : t.isChar a = true) : t.kind = .character := by
  simp only [isChar, Bool.and_eq_true, decide_eq_true_eq] at h
  exact h.1

theorem isTransparent_of_isChar {t : Token} {a : Char} (h : t.isChar a = true) :
    t.isTransparent = false := by
  apply isTransparent_eq_false_of_kind <;> simp [kind_of_isChar h]

theorem isChar_of_kind {t : Token} {a : Char} (h : t.kind ≠ .character) : t.isChar a = false := by
  simp [isChar, h]

/-- A token is at most one character. -/
theorem isChar_eq_false {t : Token} {a b : Char} (h : t.isChar a = true) (hab : a ≠ b) :
    t.isChar b = false := by
  simp only [isChar, Bool.and_eq_true, decide_eq_true_eq] at h
  have hs : String.singleton a ≠ String.singleton b := by
    intro he
    have hl := congrArg String.toList he
    simp only [String.toList_singleton, List.cons.injEq, and_true] at hl
    exact hab hl
  simp [isChar, h.1, h.2, hs]

end Token

namespace Cursor

/-- The cursor once `t` has been read and `ts` are left. -/
def past (c : Cursor) (t : Token) (ts : List Token) : Cursor :=
  { rest := ts, held := none, last := t.position, overrun := c.overrun }

/-- The cursor once all tokens have been read. -/
def atEnd (c : Cursor) : Cursor :=
  { rest := [], held := none, last := Token.lastOr c.last c.pending, overrun := c.overrun }

@[simp] theorem pending_putBack_past (c : Cursor) (t u : Token) (ts : List Token) :
    ((c.past t ts).putBack u).pending = u :: ts := rfl

theorem next_cons {c : Cursor} {t : Token} {ts : List Token} (h : c.pending = t :: ts) :
    c.next = (some t, c.past t ts) := by
  obtain ⟨rest, held, last, overrun⟩ := c
  cases held with
  | some u =>
    simp only [pending, Option.toList_some, List.cons_append, List.nil_append,
      List.cons.injEq] at h
    obtain ⟨rfl, rfl⟩ := h
    rfl
  | none =>
    simp only [pending, Option.toList_none, List.nil_append] at h
    subst h
    rfl

theorem next_nil {c : Cursor} (h : c.pending = []) : c.next = (none, c.atEnd) := by
  obtain ⟨rest, held, last, overrun⟩ := c
  cases held with
  | some u => simp [pending] at h
  | none =>
    simp only [pending, Option.toList_none, List.nil_append] at h
    subst h
    rfl

theorem nextPast_of_pending {skip : Token → Bool} {c : Cursor} {t : Token} {ts : List Token}
    (h : c.pending = t :: ts) :
    c.nextPast skip =
      if skip t then (c.past t ts).nextPast skip else (some t, c.past t ts) := by
  rw [nextPast.eq_def]
  split
  · rename_i d hn
    rw [next_cons h] at hn
    cases hn
  · rename_i u d hn
    rw [next_cons h] at hn
    cases hn
    rfl

/-- The first token that is not skipped is the one that is read. -/
theorem nextPast_cons {skip : Token → Bool} {c : Cursor} {t : Token} {ts : List Token}
    (h : c.pending.dropWhile skip = t :: ts) : c.nextPast skip = (some t, c.past t ts) := by
  generalize hp : c.pending = us at h
  induction us generalizing c with
  | nil => simp at h
  | cons u us ih =>
    rw [nextPast_of_pending hp]
    cases hu : skip u with
    | true =>
      rw [List.dropWhile_cons_of_pos hu] at h
      exact ih rfl h
    | false =>
      rw [List.dropWhile_cons_of_neg (by simp [hu])] at h
      cases h
      rfl

theorem nextPast_nil {skip : Token → Bool} {c : Cursor} (h : c.pending.dropWhile skip = []) :
    c.nextPast skip = (none, c.atEnd) := by
  generalize hp : c.pending = us at h
  induction us generalizing c with
  | nil =>
    rw [nextPast.eq_def]
    split
    · rename_i d hn
      rw [next_nil hp] at hn
      cases hn
      rfl
    · rename_i v d hn
      rw [next_nil hp] at hn
      cases hn
  | cons u us ih =>
    cases hu : skip u with
    | false => simp [hu] at h
    | true =>
      rw [List.dropWhile_cons_of_pos hu] at h
      rw [nextPast_of_pending hp, if_pos hu, ih rfl h]
      have he : (c.past u us).atEnd = c.atEnd := by
        simp only [atEnd, hp]
        rfl
      rw [he]

end Cursor

namespace Reader

theorem expect_cons {place : Place} {c : Cursor} {t : Token} {ts : List Token}
    (h : c.pending.dropWhile Token.isTransparent = t :: ts) :
    expect place c = .ok t (c.past t ts) := by
  simp only [expect, Cursor.nextSignificant, Cursor.nextPast_cons h]

theorem expect_nil {place : Place} {c : Cursor}
    (h : c.pending.dropWhile Token.isTransparent = []) :
    expect place c = .error (.unexpectedEnd place c.atEnd.last) c.atEnd := by
  simp only [expect, Cursor.nextSignificant, Cursor.nextPast_nil h]

section

variable {α β : Type} {r : Reader α} {k : α → Reader β} {c e : Cursor}

/-- Two readers one after the other succeed when both do. -/
theorem bind_eq_ok {b : β} :
    (r >>= k) c = .ok b e ↔ ∃ a d, r c = .ok a d ∧ k a d = .ok b e := by
  change EStateM.bind r k c = .ok b e ↔ _
  unfold EStateM.bind
  cases r c <;> simp [and_assoc]

/-- They fault where the first of them does. -/
theorem bind_eq_error {f : Fault} :
    (r >>= k) c = .error f e ↔
      r c = .error f e ∨ ∃ a d, r c = .ok a d ∧ k a d = .error f e := by
  change EStateM.bind r k c = .error f e ↔ _
  unfold EStateM.bind
  cases r c <;> simp [and_assoc]

end

theorem isTransparent_of_expect {place : Place} {c d : Cursor} {t : Token}
    (h : expect place c = .ok t d) : t.isTransparent = false := by
  cases hd : c.pending.dropWhile Token.isTransparent with
  | nil => rw [expect_nil hd] at h; cases h
  | cons u us =>
    rw [expect_cons hd] at h
    cases h
    exact Token.not_skipped_of_dropWhile hd

end Reader

end Cartosheet
