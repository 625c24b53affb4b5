import Cartosheet.Proofs.LineBreaks
import Cartosheet.Proofs.NestedBlocks
import Cartosheet.Proofs.ScanOrder
import Mathlib.Data.List.Forall2

namespace Cartosheet

/-- The character at an index is the last of a line break: an LF, an FF, or a CR without an LF after
it. -/
def endsLine (cs : List Char) (i : Nat) : Bool :=
  cs[i]?.any fun c => c = '\n' || c = '\x0c' || (c = '\r' && cs[i + 1]? ≠ some '\n')

/-- The line breaks before an offset, each by the index of its last character. -/
def lineEnds (cs : List Char) (offset : Nat) : List Nat :=
  (List.range offset).filter (endsLine cs)

/-- The offset behind the last line break before an offset. -/
def lineStart (cs : List Char) (offset : Nat) : Nat :=
  ((lineEnds cs offset).getLast?.map (· + 1)).getD 0

/-- UTF-16 code units of a text. -/
def textUnits : List Char → Nat
  | [] => 0
  | c :: cs => codeUnits c + textUnits cs

namespace Position

/-- The position of the character at an offset of a text. -/
def ofOffset (cs : List Char) (offset : Nat) : Position :=
  ⟨1 + (lineEnds cs offset).length, 1 + textUnits ((cs.take offset).drop (lineStart cs offset))⟩

end Position

theorem endsLine_zero (c : Char) (cs : List Char) :
    endsLine (c :: cs) 0 = (isNewline c && !(c = '\r' && cs.head? = some '\n')) := by
  rw [List.head?_eq_getElem?]
  by_cases hc : c = '\r'
  · subst hc
    simp [endsLine, isNewline]
  · simp [endsLine, isNewline, hc]

theorem lineEnds_cons (c : Char) (cs : List Char) (offset : Nat) :
    lineEnds (c :: cs) (offset + 1) =
      (if endsLine (c :: cs) 0 then [0] else []) ++ (lineEnds cs offset).map (· + 1) := by
  have hlater : (List.map (· + 1) (List.range offset)).filter (endsLine (c :: cs)) =
      (lineEnds cs offset).map (· + 1) := List.filter_map
  rw [lineEnds, List.range_succ_eq_map, List.filter_cons, hlater]
  split <;> rfl

theorem lineStart_cons_of_ne {cs : List Char} {offset : Nat} (h : lineEnds cs offset ≠ [])
    (c : Char) : lineStart (c :: cs) (offset + 1) = lineStart cs offset + 1 := by
  obtain ⟨i, hi⟩ := Option.ne_none_iff_exists'.mp (mt List.getLast?_eq_none_iff.mp h)
  simp [lineStart, lineEnds_cons, List.getLast?_append, hi]

theorem lineStart_of_eq {cs : List Char} {offset : Nat} (h : lineEnds cs offset = []) :
    lineStart cs offset = 0 := by
  rw [lineStart, h]
  rfl

namespace Position

/-- Where the text up to an offset leads from a position. -/
def reached (p : Position) (cs : List Char) (offset : Nat) : Position :=
  ⟨p.line + (lineEnds cs offset).length,
    (if lineEnds cs offset = [] then p.column else 1) +
      textUnits ((cs.take offset).drop (lineStart cs offset))⟩

theorem reached_start (cs : List Char) (offset : Nat) :
    start.reached cs offset = ofOffset cs offset := by
  rw [reached, ofOffset]
  split <;> rfl

theorem reached_cons_break {c : Char} {cs : List Char} (h : endsLine (c :: cs) 0 = true)
    (p : Position) (offset : Nat) :
    p.reached (c :: cs) (offset + 1) = p.nextLine.reached cs offset := by
  have hends := lineEnds_cons c cs offset
  rw [if_pos h] at hends
  by_cases hnone : lineEnds cs offset = []
  · -- the line break is the last before the offset
    rw [hnone] at hends
    have hstart : lineStart (c :: cs) (offset + 1) = 1 := by
      rw [lineStart, hends]
      rfl
    simp [reached, nextLine, hends, hstart, hnone, lineStart_of_eq hnone]
  · have hstart := lineStart_cons_of_ne hnone c
    simp only [reached, nextLine, hends, hstart, hnone, List.cons_append, List.nil_append,
      List.length_cons, List.length_map, List.take_succ_cons, List.drop_succ_cons, reduceCtorEq,
      if_false, mk.injEq, and_true]
    omega

theorem reached_cons_other {c : Char} {cs : List Char} (h : endsLine (c :: cs) 0 = false)
    (p : Position) (offset : Nat) :
    p.reached (c :: cs) (offset + 1) =
      (⟨p.line, p.column + codeUnits c⟩ : Position).reached cs offset := by
  have hends := lineEnds_cons c cs offset
  rw [if_neg (by simp [h])] at hends
  by_cases hnone : lineEnds cs offset = []
  · rw [hnone] at hends
    have hstart : lineStart (c :: cs) (offset + 1) = 0 := lineStart_of_eq hends
    simp only [reached, hends, hstart, hnone, lineStart_of_eq hnone, textUnits, List.map_nil,
      List.append_nil, List.take_succ_cons, List.drop_zero, if_true, mk.injEq, true_and]
    omega
  · have hstart := lineStart_cons_of_ne hnone c
    simp [reached, hends, hstart, hnone]

/-- Reading up to an offset leads to its position. -/
theorem advance_eq_reached {pre rest : List Char} (h : Unsplit pre rest) (p : Position) :
    p.advance pre = p.reached (pre ++ rest) pre.length := by
  induction pre generalizing p with
  | nil => rfl
  | cons c pre ih =>
    have hends : endsLine (c :: (pre ++ rest)) 0 =
        (isNewline c && !(c = '\r' && pre.head? = some '\n')) := by
      rw [endsLine_zero, h.pair_eq]
    rw [advance, List.cons_append, List.length_cons]
    split
    · -- the CR of a pair: the column it moves on to is forgotten at the LF
      rename_i hpair
      rw [hpair, Bool.not_true, Bool.and_false] at hends
      rw [reached_cons_other hends, ← ih h.tail]
      obtain ⟨-, hlf⟩ := (Bool.and_eq_true _ _).mp hpair
      obtain ⟨pre, rfl⟩ := List.head?_eq_some_iff.mp (of_decide_eq_true hlf)
      rfl
    rename_i hpair
    rw [Bool.eq_false_iff.mpr hpair, Bool.not_false, Bool.and_true] at hends
    split
    · rename_i hnewline
      rw [reached_cons_break (hends.trans hnewline), ih h.tail]
    · rename_i hnewline
      rw [reached_cons_other (hends.trans (Bool.eq_false_iff.mpr hnewline)), ih h.tail]

/-- A CR and its LF end one line, and a character beyond 16 bits is two units wide. -/
example : ofOffset ['a', '\r', '\n', '😀', 'b'] 4 = ⟨2, 3⟩ := by decide

end Position

namespace Token

/-- The token is the lexeme at an offset of a text, and its position is that of the offset. -/
structure BeginsAt (cs : List Char) (offset : Nat) (t : Token) : Prop where
  position : t.position = Position.ofOffset cs offset
  lexeme : ∃ c rest, cs.drop offset = c :: rest ∧ t.kind = (Lexeme.firstWhole c rest).kind ∧
    t.text = String.ofList (Lexeme.firstWhole c rest).text

/-- The tokens of what is left of a text begin at offsets that rise from where it is left. -/
theorem begins_scanFrom {pre cs : List Char} (h : Unsplit pre cs) :
    ∃ offsets : List Nat, offsets.Pairwise (· < ·) ∧ (∀ k ∈ offsets, pre.length ≤ k) ∧
      List.Forall₂ (BeginsAt (pre ++ cs)) offsets (scanFrom (Position.start.advance pre) cs) := by
  generalize hp : Position.start.advance pre = p
  fun_induction scanFrom p cs generalizing pre with
  | case1 => exact ⟨[], .nil, by simp, .nil⟩
  | case2 p c cs l =>
    rename_i ih
    have hsplit : l.raw ++ (c :: cs).drop l.raw.length = c :: cs :=
      Lexeme.firstWhole_raw_append c cs
    have hraw : l.raw ≠ [] := Lexeme.raw_firstWhole_ne_nil c cs
    have hnext : Unsplit (pre ++ l.raw) ((c :: cs).drop l.raw.length) :=
      .append (Lexeme.unsplit_firstWhole c cs) fun hnil => absurd hnil hraw
    have hadvance : Position.start.advance (pre ++ l.raw) = p.advance l.raw := by
      rw [← hsplit] at h
      rw [Position.advance_append h.left, hp]
    obtain ⟨offsets, hrise, hmin, hbegin⟩ := ih hnext hadvance
    rw [List.append_assoc, hsplit] at hbegin
    refine ⟨pre.length :: offsets, .cons ?_ hrise, ?_, .cons ⟨?_, c, cs, ?_, rfl, rfl⟩ hbegin⟩
    · intro k hk
      have hlength := List.length_pos_iff.mpr hraw
      have hk := hmin k hk
      rw [List.length_append] at hk
      omega
    · intro k hk
      rcases List.mem_cons.mp hk with rfl | hk
      · exact Nat.le_refl _
      · have hk := hmin k hk
        rw [List.length_append] at hk
        omega
    · rw [← Position.reached_start, ← Position.advance_eq_reached h, hp]
    · exact List.drop_left

/-- The tokens of a stylesheet begin at rising offsets of the text, each at the position of its
offset. So their positions rise, and they do so too where the text is read block by block. -/
theorem scan_positions_exact (source : String) :
    (∃ offsets : List Nat, offsets.Pairwise (· < ·) ∧
      List.Forall₂ (BeginsAt source.toList) offsets (scan source)) ∧
      (scan source).Pairwise (·.position.Before ·.position) ∧ walkAll source = scan source := by
  have hstart : Unsplit [] source.toList := .nil
  obtain ⟨offsets, hrise, -, hbegin⟩ := begins_scanFrom hstart
  exact ⟨⟨offsets, hrise, hbegin⟩, pairwise_scan source, walkAll_eq_scan source⟩

end Token

end Cartosheet
