import Cartosheet.Declaration.Reader
import Cartosheet.Proofs.Advance

namespace Cartosheet

namespace Cursor

theorem held_nextPast (skip : Token → Bool) (c : Cursor) : (c.nextPast skip).2.held = none := by
  cases h : c.pending.dropWhile skip with
  | nil => rw [nextPast_nil h]; rfl
  | cons t ts => rw [nextPast_cons h]; rfl

theorem overrun_nextPast (skip : Token → Bool) (c : Cursor) :
    (c.nextPast skip).2.overrun = c.overrun := by
  cases h : c.pending.dropWhile skip with
  | nil => rw [nextPast_nil h]; rfl
  | cons t ts => rw [nextPast_cons h]; rfl

/-- A significant token that was put back is read again, and the cursor is where it was. -/
theorem nextSignificant_putBack {c d : Cursor} {t : Token} (h : c.nextSignificant = (some t, d)) :
    (d.putBack t).nextSignificant = (some t, d) := by
  cases hd : c.pending.dropWhile Token.isTransparent with
  | nil =>
    rw [nextSignificant, nextPast_nil hd] at h
    cases h
  | cons u us =>
    rw [nextSignificant, nextPast_cons hd] at h
    cases h
    have ht : ¬t.isTransparent = true := by simp [Token.not_skipped_of_dropWhile hd]
    rw [nextSignificant, nextPast_cons (List.dropWhile_cons_of_neg ht)]
    simp [putBack, past]

end Cursor

namespace Reader

variable {α β : Type} {R : Cursor → Cursor → Prop}

/-- Every cursor is related to the one that the reader leaves. -/
def Moves (R : Cursor → Cursor → Prop) (r : Reader α) : Prop :=
  ∀ c, R c (Reading.cursor (r c))

/-- The cursor behind the first significant token is related to the one that the reader leaves. -/
def Steps (R : Cursor → Cursor → Prop) (r : Reader α) : Prop :=
  ∀ c, R c.nextSignificant.2 (Reading.cursor (r c))

/-- A relation that reading tokens one after another keeps. -/
structure Path (R : Cursor → Cursor → Prop) : Prop where
  refl : ∀ c, R c c
  trans : ∀ {c d e}, R c d → R d e → R c e
  read : ∀ skip c, R c (c.nextPast skip).2

/-- Reading the items of a selector keeps it too. -/
structure Motion (R : Cursor → Cursor → Prop) : Prop extends Path R where
  item : ∀ elements t, Moves R (Selector.readItem elements t)

theorem cursor_expect (place : Place) (c : Cursor) :
    Reading.cursor (expect place c) = c.nextSignificant.2 := by
  unfold expect
  cases c.nextSignificant with
  | mk found d => cases found <;> rfl

namespace Path

variable (h : Path R)
include h

/-- What the first reader is related to, so is the second. -/
theorem bind {r : Reader α} {k : α → Reader β} {b c : Cursor} (hr : R b (Reading.cursor (r c)))
    (hk : ∀ a, Moves R (k a)) : R b (Reading.cursor ((r >>= k) c)) := by
  change R b (Reading.cursor (EStateM.bind r k c))
  unfold EStateM.bind
  cases hc : r c with
  | ok a d =>
    rw [hc] at hr
    exact h.trans hr (hk a d)
  | error f d =>
    rw [hc] at hr
    exact hr

theorem moves_bind {r : Reader α} {k : α → Reader β} (hr : Moves R r) (hk : ∀ a, Moves R (k a)) :
    Moves R (r >>= k) :=
  fun c => h.bind (hr c) hk

theorem steps_bind {r : Reader α} {k : α → Reader β} (hr : Steps R r) (hk : ∀ a, Moves R (k a)) :
    Steps R (r >>= k) :=
  fun c => h.bind (hr c) hk

theorem moves_pure (a : α) : Moves R (Pure.pure a : Reader α) := fun c => h.refl c

theorem moves_throw (f : Fault) : Moves R (MonadExcept.throw f : Reader α) := fun c => h.refl c

theorem moves_of_steps {r : Reader α} (hr : Steps R r) : Moves R r :=
  fun c => h.trans (h.read _ c) (hr c)

theorem steps_expect (place : Place) : Steps R (expect place) := by
  intro c
  rw [cursor_expect]
  exact h.refl _

theorem steps_require (accept : Token → Bool) (wrong missing : Place) :
    Steps R (require accept wrong missing) := by
  refine h.steps_bind (h.steps_expect missing) fun t => ?_
  split
  · exact h.moves_pure t
  · exact h.moves_throw _

/-- If reading a token again is no matter either, items keep the relation. -/
theorem motion (hreread : ∀ {skip c d t}, c.nextPast skip = (some t, d) → R c (d.putBack t)) :
    Motion R where
  toPath := h
  item := by
    have horEqual (strict inclusive : Operator) : Moves R (orEqual strict inclusive) := by
      intro c
      have hc := h.read Token.isComment c
      unfold orEqual
      cases hn : c.nextPastComments with
      | mk found d =>
        rw [← Cursor.nextPastComments, hn] at hc
        cases found with
        | none => exact hc
        | some t =>
          dsimp only
          split
          · exact hc
          · exact hreread hn
    have hbasic : Inherited (fun r => Moves R r) :=
      { pure := h.moves_pure
        throw := h.moves_throw
        bind := h.moves_bind
        endAt := fun _ c => h.refl c
        expect := fun place => h.moves_of_steps (h.steps_expect place)
        pastComments := fun c => h.read _ c
        orEqual := horEqual }
    exact hbasic.readItem

end Path

namespace Motion

variable (h : Motion R)
include h

theorem steps_readItems (elements : List Selector.Element) (start : Option Position) :
    Steps R (Selector.readItems elements start) := by
  intro c
  fun_induction Selector.readItems elements start c with
  | case1 elements start c d hn =>
    rw [hn]
    exact h.refl d
  | case2 elements start c t d hn =>
    rw [hn]
    exact h.refl d
  | case3 elements start c t d hn _ f e hi =>
    have hitem := h.item elements t d
    rw [hi] at hitem
    rw [hn]
    exact hitem
  | case4 elements start c t d hn _ elements' e hi ih =>
    have hitem := h.item elements t d
    rw [hi] at hitem
    rw [hn]
    exact h.trans hitem (h.trans (h.read _ e) ih)

theorem steps_read (mercator : Bool) : Steps R (Selector.read mercator) := by
  intro c
  have hi := h.steps_readItems [] none c
  unfold Selector.read
  cases hr : Selector.readItems [] none c with
  | error f d =>
    rw [hr] at hi
    exact hi
  | ok r d =>
    rw [hr] at hi
    dsimp only
    split <;> exact hi

theorem steps_readGroup (mercator : Bool) : Steps R (Selector.readGroup mercator) := by
  intro c
  have hs := h.steps_read mercator c
  fun_induction Selector.readGroup mercator c with
  | case1 c f d hr =>
    rw [hr] at hs
    exact hs
  | case2 c s d hr =>
    rw [hr] at hs
    exact hs
  | case3 c s t d hr _ ih =>
    rw [hr] at hs
    rw [Reading.cursor_map]
    exact h.trans hs (h.trans (h.read _ d) (ih (h.steps_read mercator d)))
  | case4 c s t d hr =>
    rw [hr] at hs
    exact hs

theorem steps_readImportant : Steps R Entry.readImportant :=
  h.steps_bind (h.steps_require _ _ _) fun _ =>
    h.moves_bind (h.moves_of_steps (h.steps_require _ _ _)) fun _ => h.moves_pure _

theorem steps_readValue : Steps R Entry.readValue := by
  intro c
  have hs := h.steps_expect .insideDeclaration c
  fun_induction Entry.readValue c with
  | case1 c f d hx =>
    rw [hx] at hs
    exact hs
  | case2 c t d hx =>
    rw [hx] at hs
    exact hs
  | case3 c t d hx =>
    rw [hx] at hs
    rw [Reading.cursor_map]
    exact h.trans hs (h.moves_of_steps h.steps_readImportant d)
  | case4 c t d hx =>
    rw [hx] at hs
    exact hs
  | case5 c t d hx _ _ _ ih =>
    rw [hx] at hs
    rw [Reading.cursor_map]
    exact h.trans hs (h.trans (h.read _ d) (ih (h.steps_expect _ d)))

theorem steps_readAfter (σ : Settings) (name : Token) : Steps R (Entry.readAfter σ name) := by
  refine h.steps_bind (h.steps_require _ _ _) fun _ => ?_
  split
  · exact h.moves_throw _
  · refine h.moves_bind (h.moves_of_steps h.steps_readValue) fun v => ?_
    dsimp only
    split
    · exact h.moves_throw _
    · exact h.moves_pure _

theorem steps_readBlock (σ : Settings) : Steps R (Entry.readBlock σ) := by
  intro c
  have hs := h.steps_expect .insideBlock c
  fun_induction Entry.readBlock σ c with
  | case1 c f d hx =>
    rw [hx] at hs
    exact hs
  | case2 c t d hx =>
    rw [hx] at hs
    exact hs
  | case3 c t d hx _ _ f e he =>
    have hafter := h.moves_of_steps (h.steps_readAfter σ t) d
    rw [hx] at hs
    rw [he] at hafter
    exact h.trans hs hafter
  | case4 c t d hx _ _ entry e he ih =>
    have hafter := h.moves_of_steps (h.steps_readAfter σ t) d
    rw [hx] at hs
    rw [he] at hafter
    rw [Reading.cursor_map]
    exact h.trans hs (h.trans hafter (h.trans (h.read _ e) (ih (h.steps_expect _ e))))
  | case5 c t d hx =>
    rw [hx] at hs
    exact hs

/-- The token that a rule puts back it reads again. -/
theorem steps_readRule (σ : Settings) : Steps R (Declaration.readRule σ) := by
  intro c
  unfold Declaration.readRule
  cases hn : c.nextSignificant with
  | mk found d =>
    cases found with
    | none => exact h.refl d
    | some t =>
      have hg := h.steps_readGroup σ.mercator (d.putBack t)
      rw [Cursor.nextSignificant_putBack hn] at hg
      dsimp only
      cases hr : Selector.readGroup σ.mercator (d.putBack t) with
      | error f e =>
        rw [hr] at hg
        exact hg
      | ok ss e =>
        rw [hr] at hg
        dsimp only
        rw [Reading.cursor_map]
        exact h.trans hg (h.moves_of_steps (h.steps_readBlock σ) e)

theorem moves_readRule (σ : Settings) : Moves R (Declaration.readRule σ) :=
  h.moves_of_steps (h.steps_readRule σ)

end Motion

end Reader

end Cartosheet
