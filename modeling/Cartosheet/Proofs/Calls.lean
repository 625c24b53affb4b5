import Cartosheet.Proofs.Motion
import Cartosheet.Proofs.SheetGrammar
import Cartosheet.Proofs.Transparency

namespace Cartosheet

namespace Cursor

/-- A cursor that holds nothing back does not begin to. -/
def StaysFree (c d : Cursor) : Prop := c.held = none → d.held = none

end Cursor

namespace Reader

open Cursor (StaysFree)

theorem path_staysFree : Path StaysFree where
  refl _ := id
  trans hc hd := hd ∘ hc
  read skip c _ := Cursor.held_nextPast skip c

/-- A reader that goes past a significant token leaves none held back, even if it found one. -/
theorem held_of_steps {α : Type} {r : Reader α} (h : Steps StaysFree r) (c : Cursor) :
    (Reading.cursor (r c)).held = none :=
  h c (Cursor.held_nextPast _ c)

section

variable {β : Type} {k : Operator → Reader β} (hk : ∀ op, Steps StaysFree (k op))
include hk

/-- A comparison may put a token back, and the reader after it takes that token. -/
theorem free_orEqual (strict inclusive : Operator) :
    Moves StaysFree (orEqual strict inclusive >>= k) := by
  intro c _
  have hok : ∃ op d, orEqual strict inclusive c = .ok op d := by
    unfold orEqual
    split
    · split <;> exact ⟨_, _, rfl⟩
    · exact ⟨_, _, rfl⟩
  obtain ⟨op, d, hd⟩ := hok
  change (Reading.cursor (EStateM.bind (orEqual strict inclusive) k c)).held = none
  simp only [EStateM.bind, hd]
  exact held_of_steps (hk op) d

theorem free_operator : Moves StaysFree (operator >>= k) := by
  have hpure (op : Operator) : Moves StaysFree (pure op >>= k) := by
    rw [pure_bind]
    exact path_staysFree.moves_of_steps (hk op)
  have hthrow (f : Fault) : Moves StaysFree (throw f >>= k) := fun _ hc => hc
  rw [operator, bind_assoc]
  refine path_staysFree.moves_bind (path_staysFree.moves_of_steps
    (path_staysFree.steps_expect _)) fun t => ?_
  split
  · exact hpure _
  split
  · exact free_orEqual hk _ _
  split
  · exact free_orEqual hk _ _
  split
  · rw [bind_assoc]
    refine path_staysFree.moves_bind (fun c => path_staysFree.read _ c) fun u => ?_
    cases u with
    | none => exact hthrow _
    | some u =>
      dsimp only
      split
      · exact hpure _
      · exact hthrow _
  · exact hthrow _

end

theorem steps_scalar : Steps StaysFree scalar := by
  refine path_staysFree.steps_bind (path_staysFree.steps_expect _) fun t => ?_
  split
  · split
    · exact path_staysFree.moves_pure _
    · exact path_staysFree.moves_throw _
  split
  · exact path_staysFree.moves_pure _
  · exact path_staysFree.moves_throw _

theorem free_attributeTest : Moves StaysFree attributeTest := by
  have hrequire (accept : Token → Bool) (wrong missing : Place) :
      Moves StaysFree (require accept wrong missing) :=
    path_staysFree.moves_of_steps (path_staysFree.steps_require accept wrong missing)
  refine path_staysFree.moves_bind (hrequire _ _ _) fun _ => free_operator fun _ => ?_
  refine path_staysFree.steps_bind steps_scalar fun _ => ?_
  exact path_staysFree.moves_bind (hrequire _ _ _) fun _ => path_staysFree.moves_pure _

theorem free_className : Moves StaysFree Selector.className := by
  refine path_staysFree.moves_bind (fun c => path_staysFree.read _ c) fun t => ?_
  cases t with
  | none => exact fun _ hc => hc
  | some t =>
    dsimp only
    split
    · exact path_staysFree.moves_pure _
    · exact path_staysFree.moves_throw _

theorem motion_staysFree : Motion StaysFree where
  toPath := path_staysFree
  item elements t := by
    unfold Selector.readItem
    split
    · exact path_staysFree.moves_pure _
    split
    · exact path_staysFree.moves_pure _
    split
    · exact path_staysFree.moves_pure _
    split
    · exact path_staysFree.moves_bind free_className fun _ => path_staysFree.moves_pure _
    split
    · split
      · exact path_staysFree.moves_throw _
      · exact path_staysFree.moves_bind free_attributeTest fun _ => path_staysFree.moves_pure _
    · exact path_staysFree.moves_throw _

theorem motion_suffix : Motion (fun c d => d.pending <:+ c.pending) where
  refl _ := List.suffix_rfl
  trans hc hd := hd.trans hc
  read := Cursor.suffix_nextPast
  item := inherited_advances.readItem

/-- No token is put back while another is held. -/
theorem motion_overrun : Motion (fun c d => d.overrun = c.overrun) := by
  have hpath : Path (fun c d => d.overrun = c.overrun) :=
    { refl := fun _ => rfl
      trans := fun hc hd => hd.trans hc
      read := Cursor.overrun_nextPast }
  refine hpath.motion ?_
  intro skip c d t h
  have hheld : d.held = none := by simpa [h] using Cursor.held_nextPast skip c
  have hover : d.overrun = c.overrun := by simpa [h] using Cursor.overrun_nextPast skip c
  simp [Cursor.putBack, hheld, hover]

end Reader

/-- What a reading gives, without the cursor that it leaves. -/
def Reading.result {α : Type} (r : Reading α) : Except Fault α :=
  r.resume fun a _ => .ok a

namespace Declaration

/-- A call gives nothing exactly if no significant token is left. -/
theorem readRule_eq_none_iff (σ : Settings) (c : Cursor) :
    (∃ d, readRule σ c = .ok none d) ↔ significant c.pending = [] := by
  cases hd : c.pending.dropWhile Token.isTransparent with
  | nil =>
    refine iff_of_true ⟨c.atEnd, ?_⟩ (significant_eq_nil hd)
    rw [readRule, Cursor.nextSignificant, Cursor.nextPast_nil hd]
  | cons t ts =>
    have hne : significant c.pending ≠ [] := by simp [significant_eq_cons hd]
    refine iff_of_false ?_ hne
    rintro ⟨d, h⟩
    rw [readRule, Cursor.nextSignificant, Cursor.nextPast_cons hd] at h
    dsimp only at h
    split at h
    · cases h
    · rename_i ss e _
      cases hb : Entry.readBlock σ e <;> rw [hb] at h <;> cases h

/-- Any other call uses up tokens, and not only whitespace and comments. -/
theorem readRule_consumes (σ : Settings) {c : Cursor} (h : significant c.pending ≠ []) :
    ∃ used, c.pending = used ++ (Reading.cursor (readRule σ c)).pending ∧
      ∃ t ∈ used, t.isTransparent = false := by
  cases hd : c.pending.dropWhile Token.isTransparent with
  | nil => exact absurd (significant_eq_nil hd) h
  | cons t ts =>
    have hs := Reader.motion_suffix.steps_readRule σ c
    rw [Cursor.nextSignificant, Cursor.nextPast_cons hd] at hs
    obtain ⟨between, hts⟩ : (Reading.cursor (readRule σ c)).pending <:+ ts := hs
    have hsplit := List.takeWhile_append_dropWhile (p := Token.isTransparent) (l := c.pending)
    refine ⟨c.pending.takeWhile Token.isTransparent ++ t :: between, ?_, t, by simp, ?_⟩
    · rw [List.append_assoc, List.cons_append, hts, ← hd, hsplit]
    · exact Token.not_skipped_of_dropWhile hd

/-- The significant tokens to come grow fewer with every such call. -/
theorem length_significant_readRule (σ : Settings) {c : Cursor} (h : significant c.pending ≠ []) :
    (significant (Reading.cursor (readRule σ c)).pending).length + 1 ≤
      (significant c.pending).length := by
  obtain ⟨used, hused, t, ht, htr⟩ := readRule_consumes σ h
  have hmem : t ∈ significant used := List.mem_filter.mpr ⟨ht, by simp [htr]⟩
  have hpos : 0 < (significant used).length := List.length_pos_of_mem hmem
  rw [hused, significant_append, List.length_append]
  omega

/-- The cursor after a number of calls. -/
def cursorAfter (σ : Settings) : Nat → Cursor → Cursor
  | 0, c => c
  | n + 1, c => cursorAfter σ n (Reading.cursor (readRule σ c))

theorem readCalls_succ (σ : Settings) (n : Nat) (c : Cursor) :
    readCalls σ (n + 1) c =
      Reading.result (readRule σ c) :: readCalls σ n (Reading.cursor (readRule σ c)) := by
  rw [readCalls]
  cases readRule σ c <;> rfl

theorem cursorAfter_succ (σ : Settings) (n : Nat) (c : Cursor) :
    cursorAfter σ (n + 1) c = Reading.cursor (readRule σ (cursorAfter σ n c)) := by
  induction n generalizing c with
  | zero => rfl
  | succ n ih => exact ih (Reading.cursor (readRule σ c))

theorem length_readCalls (σ : Settings) (n : Nat) (c : Cursor) :
    (readCalls σ n c).length = n := by
  induction n generalizing c with
  | zero => rfl
  | succ n ih => rw [readCalls_succ, List.length_cons, ih]

theorem getElem?_readCalls (σ : Settings) {i n : Nat} (h : i < n) (c : Cursor) :
    (readCalls σ n c)[i]? = some (Reading.result (readRule σ (cursorAfter σ i c))) := by
  induction n generalizing i c with
  | zero => omega
  | succ n ih =>
    rw [readCalls_succ]
    cases i with
    | zero => rfl
    | succ i => exact ih (by omega) _

theorem result_readRule_iff (σ : Settings) (c : Cursor) :
    Reading.result (readRule σ c) = .ok none ↔ significant c.pending = [] := by
  rw [← readRule_eq_none_iff σ c]
  cases readRule σ c <;> simp [Reading.result, Reading.resume]

end Declaration

/-- Where a cursor stands between two calls that read rules from `tokens`. -/
structure Cursor.Between (tokens : List Token) (c : Cursor) : Prop where
  free : c.held = none
  overrun : c.overrun = false
  suffix : c.rest <:+ tokens

namespace Cursor.Between

variable {tokens : List Token} {c : Cursor}

theorem pending (h : c.Between tokens) : c.pending = c.rest := by
  simp [Cursor.pending, h.free]

theorem start (tokens : List Token) : Between tokens { rest := tokens } :=
  ⟨rfl, rfl, List.suffix_rfl⟩

theorem readRule (h : c.Between tokens) (σ : Settings) :
    (Reading.cursor (Declaration.readRule σ c)).Between tokens := by
  have hfree := Reader.held_of_steps (Reader.motion_staysFree.steps_readRule σ) c
  have hover := Reader.motion_overrun.moves_readRule σ c
  have hsuffix := Reader.motion_suffix.moves_readRule σ c
  refine ⟨hfree, hover.trans h.overrun, ?_⟩
  rw [h.pending, Cursor.pending, hfree] at hsuffix
  exact hsuffix.trans h.suffix

theorem cursorAfter (h : c.Between tokens) (σ : Settings) (n : Nat) :
    (Declaration.cursorAfter σ n c).Between tokens := by
  induction n generalizing c with
  | zero => exact h
  | succ n ih => exact ih (h.readRule σ)

end Cursor.Between

namespace Declaration

/-- Calls that give something are no more than the significant tokens. -/
theorem countP_readCalls_le (σ : Settings) (n : Nat) (c : Cursor) :
    (readCalls σ n c).countP (· ≠ .ok none) ≤ (significant c.pending).length := by
  induction n generalizing c with
  | zero => simp [readCalls]
  | succ n ih =>
    have hi := ih (Reading.cursor (readRule σ c))
    rw [readCalls_succ, List.countP_cons]
    by_cases hs : significant c.pending = []
    · have hsuffix := Reader.motion_suffix.moves_readRule σ c
      have hle : (significant (Reading.cursor (readRule σ c)).pending).length ≤
          (significant c.pending).length := (hsuffix.sublist.filter _).length_le
      rw [(result_readRule_iff σ c).mpr hs, if_neg (by simp)]
      omega
    · have hlt := length_significant_readRule σ hs
      split <;> omega

/-- Where nothing significant is left, nothing is left to any later call. -/
theorem significant_cursorAfter (σ : Settings) {c : Cursor} (h : significant c.pending = [])
    (n : Nat) : significant (cursorAfter σ n c).pending = [] := by
  induction n generalizing c with
  | zero => exact h
  | succ n ih =>
    refine ih ?_
    have hsuffix := Reader.motion_suffix.moves_readRule σ c
    exact List.eq_nil_of_sublist_nil (h ▸ hsuffix.sublist.filter _)

theorem cursorAfter_add (σ : Settings) (m n : Nat) (c : Cursor) :
    cursorAfter σ (m + n) c = cursorAfter σ n (cursorAfter σ m c) := by
  induction m generalizing c with
  | zero => rw [Nat.zero_add]; rfl
  | succ m ih =>
    rw [Nat.succ_add]
    exact ih _

/-- Any number of calls over a token list, faults or not: no token is ever put back while another is
held, none is held between calls, and what is left is a final part of the list. A call that gives
something uses up a significant token; so there are no more such calls than significant tokens, and
after one that gives nothing there are none. -/
theorem calls_progress (σ : Settings) (tokens : List Token) (n : Nat) :
    let start : Cursor := { rest := tokens }
    let c := cursorAfter σ n start
    (c.overrun = false ∧ c.held = none ∧ c.rest <:+ tokens) ∧
    ((readCalls σ (n + 1) start)[n]? ≠ some (.ok none) →
      ∃ used, c.rest = used ++ (cursorAfter σ (n + 1) start).rest ∧
        ∃ t ∈ used, t.isTransparent = false) ∧
    (readCalls σ n start).countP (· ≠ .ok none) ≤ (significant tokens).length ∧
    ∀ i j, i ≤ j → j < n → (readCalls σ n start)[i]? = some (.ok none) →
      (readCalls σ n start)[j]? = some (.ok none) := by
  intro start c
  have hbetween := (Cursor.Between.start tokens).cursorAfter σ
  refine ⟨⟨(hbetween n).overrun, (hbetween n).free, (hbetween n).suffix⟩, ?_, ?_, ?_⟩
  · intro h
    rw [getElem?_readCalls σ (by omega), ne_eq, Option.some.injEq, result_readRule_iff] at h
    obtain ⟨used, hused, ht⟩ := readRule_consumes σ h
    rw [← cursorAfter_succ, (hbetween n).pending, (hbetween (n + 1)).pending] at hused
    exact ⟨used, hused, ht⟩
  · exact countP_readCalls_le σ n start
  · intro i j hij hj hi
    rw [getElem?_readCalls σ (by omega), Option.some.injEq, result_readRule_iff] at hi ⊢
    obtain ⟨k, rfl⟩ := Nat.le.dest hij
    rw [cursorAfter_add]
    exact significant_cursorAfter σ hi k

/-- A call that faults inside a block, one that faults at the `}` left over, a rule with a comparison
that puts a token back, and then nothing. -/
theorem calls_progress_roads :
    let σ := Settings.standard true
    let tokens := Token.scan "Map \x7b 7 \x7d Layer[zoom < 5] \x7b line-width: 2; \x7d "
    let start : Cursor := { rest := tokens }
    (∃ used, (cursorAfter σ 1 start).rest = used ++ (cursorAfter σ 2 start).rest ∧
        ∃ t ∈ used, t.isTransparent = false) ∧
      (readCalls σ 5 start).countP (· ≠ .ok none) ≤ 16 ∧
      (readCalls σ 5 start)[3]? = some (.ok none) ∧
      (readCalls σ 5 start)[4]? = some (.ok none) := by
  intro σ tokens start
  have hlength : (significant tokens).length = 16 := by decide +kernel
  have hend : (readCalls σ 5 start)[3]? = some (.ok none) := by decide +kernel
  obtain ⟨-, hused, -⟩ := calls_progress σ tokens 1
  obtain ⟨-, -, hcount, hstays⟩ := calls_progress σ tokens 5
  exact ⟨hused (by decide +kernel), hlength ▸ hcount, hend,
    hstays 3 4 (by omega) (by omega) hend⟩

end Declaration

end Cartosheet
