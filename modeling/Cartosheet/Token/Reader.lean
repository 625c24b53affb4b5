import Cartosheet.Fault
import Cartosheet.Token.Cursor

namespace Cartosheet

/-- Takes tokens from a cursor and may fail. The cursor is kept after a fault too, so a caller can
go on from where the reading stopped. -/
abbrev Reader (α : Type) := EStateM Fault Cursor α

/-- What a reader gives at one cursor. -/
abbrev Reading (α : Type) := EStateM.Result Fault Cursor α

namespace Reading

/-- The cursor that a reading leaves. -/
def cursor {α : Type} : Reading α → Cursor
  | .ok _ c => c
  | .error _ c => c

def map {α β : Type} (f : α → β) : Reading α → Reading β
  | .ok a c => .ok (f a) c
  | .error e c => .error e c

@[simp] theorem cursor_map {α β : Type} (f : α → β) (r : Reading α) :
    cursor (map f r) = cursor r := by
  cases r <;> rfl

end Reading

namespace Reader

variable {α β : Type}

def pastComments : Reader (Option Token) := fun c =>
  .ok c.nextPastComments.1 c.nextPastComments.2

/-- The fault that the tokens ended, at the token read last. -/
def endAt (place : Place) : Reader α := fun c =>
  .error (.unexpectedEnd place c.last) c

/-- The next significant token, which has to be there. -/
def expect (place : Place) : Reader Token := fun c =>
  match c.nextSignificant with
  | (some t, d) => .ok t d
  | (none, d) => .error (.unexpectedEnd place d.last) d

/-- The next significant token, which has to be one that `accept` takes. -/
def require (accept : Token → Bool) (wrong missing : Place) : Reader Token := do
  let t ← expect missing
  if accept t then return t else throw (.unexpected t wrong)

/-- Whatever a reader does, no more is to come after it than before. -/
def Shrinks (r : Reader α) : Prop := ∀ c, (Reading.cursor (r c)).size ≤ c.size

theorem Shrinks.pure (a : α) : Shrinks (Pure.pure a : Reader α) := fun _ => Nat.le_refl _

theorem Shrinks.throw (f : Fault) : Shrinks (MonadExcept.throw f : Reader α) :=
  fun _ => Nat.le_refl _

theorem Shrinks.bind {r : Reader α} {k : α → Reader β} (hr : Shrinks r) (hk : ∀ a, Shrinks (k a)) :
    Shrinks (r >>= k) := by
  intro c
  have h := hr c
  change (Reading.cursor (EStateM.bind r k c)).size ≤ c.size
  unfold EStateM.bind
  cases hc : r c with
  | ok a d =>
    rw [hc] at h
    exact Nat.le_trans (hk a d) h
  | error e d =>
    rw [hc] at h
    exact h

theorem shrinks_pastComments : Shrinks pastComments := fun c => Cursor.size_nextPast_le _ c

theorem shrinks_endAt (place : Place) : Shrinks (endAt place : Reader α) := fun _ => Nat.le_refl _

theorem shrinks_expect (place : Place) : Shrinks (expect place) := by
  intro c
  have h := Cursor.size_nextPast_le Token.isTransparent c
  change (Cursor.nextSignificant c).2.size ≤ c.size at h
  unfold expect
  cases hn : c.nextSignificant with
  | mk found d =>
    rw [hn] at h
    cases found <;> exact h

/-- A token that is there is used up. -/
theorem size_expect {place : Place} {c d : Cursor} {t : Token} (h : expect place c = .ok t d) :
    d.size < c.size := by
  unfold expect at h
  cases hn : c.nextSignificant with
  | mk found e =>
    rw [hn] at h
    cases found with
    | none => cases h
    | some u =>
      cases h
      exact Cursor.size_nextPast hn

theorem shrinks_require (accept : Token → Bool) (wrong missing : Place) :
    Shrinks (require accept wrong missing) := by
  refine (shrinks_expect missing).bind fun t => ?_
  split
  · exact .pure t
  · exact .throw _

end Reader

end Cartosheet
