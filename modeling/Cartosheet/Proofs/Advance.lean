import Cartosheet.Proofs.Cursor
import Cartosheet.Selector.Reader

namespace Cartosheet

namespace Cursor

theorem suffix_nextPast (skip : Token → Bool) (c : Cursor) :
    (c.nextPast skip).2.pending <:+ c.pending := by
  have hs := List.dropWhile_suffix skip (l := c.pending)
  cases h : c.pending.dropWhile skip with
  | nil =>
    rw [nextPast_nil h]
    exact List.nil_suffix
  | cons t ts =>
    rw [nextPast_cons h]
    rw [h] at hs
    exact (List.suffix_cons t ts).trans hs

theorem suffix_putBack {skip : Token → Bool} {c d : Cursor} {t : Token}
    (h : c.nextPast skip = (some t, d)) : (d.putBack t).pending <:+ c.pending := by
  have hs := List.dropWhile_suffix skip (l := c.pending)
  cases hd : c.pending.dropWhile skip with
  | nil => rw [nextPast_nil hd] at h; cases h
  | cons u us =>
    rw [nextPast_cons hd] at h
    cases h
    rw [hd] at hs
    exact hs

/-- A token that was read was to come. -/
theorem mem_of_nextPast {skip : Token → Bool} {c d : Cursor} {t : Token}
    (h : c.nextPast skip = (some t, d)) : t ∈ c.pending := by
  have ht : t ∈ (d.putBack t).pending := by simp [putBack, pending]
  exact (suffix_putBack h).subset ht

end Cursor

namespace Reader

/-- A property of readers that passes from the basic readers to those made of them. -/
structure Inherited (P : ∀ {α : Type}, Reader α → Prop) : Prop where
  pure : ∀ {α : Type} (a : α), P (Pure.pure a : Reader α)
  throw : ∀ {α : Type} (f : Fault), P (MonadExcept.throw f : Reader α)
  bind : ∀ {α β : Type} {r : Reader α} {k : α → Reader β}, P r → (∀ a, P (k a)) → P (r >>= k)
  endAt : ∀ {α : Type} (place : Place), P (Reader.endAt place : Reader α)
  expect : ∀ place : Place, P (Reader.expect place)
  pastComments : P Reader.pastComments
  orEqual : ∀ strict inclusive : Operator, P (Reader.orEqual strict inclusive)

namespace Inherited

variable {P : ∀ {α : Type}, Reader α → Prop} (h : Inherited P)
include h

theorem require (accept : Token → Bool) (wrong missing : Place) :
    P (Reader.require accept wrong missing) := by
  refine h.bind (h.expect missing) fun t => ?_
  split
  · exact h.pure t
  · exact h.throw _

theorem operator : P Reader.operator := by
  refine h.bind (h.expect _) fun t => ?_
  split
  · exact h.pure _
  split
  · exact h.orEqual _ _
  split
  · exact h.orEqual _ _
  split
  · refine h.bind h.pastComments fun u => ?_
    cases u with
    | none => exact h.throw _
    | some u =>
      dsimp only
      split
      · exact h.pure _
      · exact h.throw _
  · exact h.throw _

theorem scalar : P Reader.scalar := by
  refine h.bind (h.expect _) fun t => ?_
  split
  · split
    · exact h.pure _
    · exact h.throw _
  split
  · exact h.pure _
  · exact h.throw _

theorem attributeTest : P Reader.attributeTest :=
  h.bind (h.require _ _ _) fun _ => h.bind h.operator fun _ => h.bind h.scalar fun _ =>
    h.bind (h.require _ _ _) fun _ => h.pure _

theorem className : P Selector.className := by
  refine h.bind h.pastComments fun t => ?_
  cases t with
  | none => exact h.endAt _
  | some t =>
    dsimp only
    split
    · exact h.pure _
    · exact h.throw _

/-- The basic readers are all that reading an item is made of. -/
theorem readItem (elements : List Selector.Element) (t : Token) :
    P (Selector.readItem elements t) := by
  unfold Selector.readItem
  split
  · exact h.pure _
  split
  · exact h.pure _
  split
  · exact h.pure _
  split
  · exact h.bind h.className fun _ => h.pure _
  split
  · split
    · exact h.throw _
    · exact h.bind h.attributeTest fun _ => h.pure _
  · exact h.throw _

end Inherited

/-- Whatever a reader does, it leaves a final part of the tokens it found. -/
def Advances {α : Type} (r : Reader α) : Prop :=
  ∀ c, (Reading.cursor (r c)).pending <:+ c.pending

theorem Advances.bind {α β : Type} {r : Reader α} {k : α → Reader β} (hr : Advances r)
    (hk : ∀ a, Advances (k a)) : Advances (r >>= k) := by
  intro c
  have h := hr c
  change (Reading.cursor (EStateM.bind r k c)).pending <:+ c.pending
  unfold EStateM.bind
  cases hc : r c with
  | ok a d =>
    rw [hc] at h
    exact (hk a d).trans h
  | error e d =>
    rw [hc] at h
    exact h

theorem advances_expect (place : Place) : Advances (expect place) := by
  intro c
  have h := Cursor.suffix_nextPast Token.isTransparent c
  change (Cursor.nextSignificant c).2.pending <:+ c.pending at h
  unfold expect
  cases hn : c.nextSignificant with
  | mk found d =>
    rw [hn] at h
    cases found <;> exact h

theorem advances_orEqual (strict inclusive : Operator) : Advances (orEqual strict inclusive) := by
  intro c
  have h := Cursor.suffix_nextPast Token.isComment c
  change (Cursor.nextPastComments c).2.pending <:+ c.pending at h
  unfold orEqual
  cases hn : c.nextPastComments with
  | mk found d =>
    rw [hn] at h
    cases found with
    | none => exact h
    | some t =>
      dsimp only
      split
      · exact h
      · exact Cursor.suffix_putBack hn

theorem inherited_advances : Inherited Advances where
  pure _ _ := List.suffix_rfl
  throw _ _ := List.suffix_rfl
  bind := Advances.bind
  endAt _ _ := List.suffix_rfl
  expect := advances_expect
  pastComments c := Cursor.suffix_nextPast _ c
  orEqual := advances_orEqual

end Reader

namespace Selector

/-- The terminator that ends the items is one of the tokens that were to come. -/
theorem terminator_of_readItems {elements : List Element} {start : Option Position} {c d : Cursor}
    {r : Run} {t : Token} (h : readItems elements start c = .ok r d)
    (ht : r.terminator = some t) : t ∈ c.pending ∧ isTerminator t = true := by
  fun_induction readItems elements start c with
  | case1 => cases h; cases ht
  | case2 elements start c u e hn hu =>
    cases h
    cases ht
    exact ⟨Cursor.mem_of_nextPast hn, hu⟩
  | case3 => cases h
  | case4 elements start c u e hn _ elements' e' hi ih =>
    have hs := Reader.inherited_advances.readItem elements u e
    rw [hi] at hs
    have hp := Cursor.suffix_nextPast Token.isTransparent c
    change c.nextSignificant.2.pending <:+ c.pending at hp
    rw [hn] at hp
    exact ⟨(hs.trans hp).subset (ih h).1, (ih h).2⟩

end Selector

end Cartosheet
