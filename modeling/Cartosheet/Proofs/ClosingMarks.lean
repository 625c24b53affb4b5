import Cartosheet.Proofs.Outline
import Mathlib.Data.List.Infix

namespace Cartosheet

/-- A text without escapes, NULs and quotes. -/
def Unescaped (cs : List Char) : Prop :=
  ∀ c ∈ cs, c ≠ '\\' ∧ c ≠ '\x00' ∧ c ≠ '"' ∧ c ≠ '\''

theorem Unescaped.of_suffix {cs ds : List Char} (h : Unescaped cs) (hd : ds <:+ cs) :
    Unescaped ds :=
  fun c hc => h c (hd.subset hc)

theorem Unescaped.drop {cs : List Char} (h : Unescaped cs) (n : Nat) : Unescaped (cs.drop n) :=
  h.of_suffix (List.drop_suffix n cs)

theorem Unescaped.tail {c : Char} {cs : List Char} (h : Unescaped (c :: cs)) : Unescaped cs :=
  h.of_suffix (List.suffix_cons c cs)

namespace Outline

variable {cs rest w : List Char}

namespace Closes

variable {mark inner text : List Char}

/-- One more character before a closing mark that does not begin there. -/
theorem cons {c : Char} (hne : mark ≠ []) (hc : ¬mark <+: c :: (text ++ rest))
    (h : Closes mark inner text rest) : Closes mark (c :: inner) (c :: text) rest := by
  cases h with
  | found hfirst =>
    have hne' : inner ++ mark ≠ [] := by simp [hne]
    refine .found ?_
    rw [List.cons_append, List.dropLast_cons_of_ne_nil hne', List.infix_cons_iff]
    rintro (hstart | hlater)
    · refine hc (hstart.trans ?_)
      exact isPrefix_cons ((List.dropLast_prefix _).trans (List.prefix_append _ _))
    · exact hfirst hlater
  | ended hnone =>
    refine .ended ?_
    rw [List.infix_cons_iff]
    rintro (hstart | hlater)
    · rw [List.append_nil] at hc
      exact hc hstart
    · exact hnone hlater

theorem cons_of_ne {c m : Char} (hc : c ≠ m) (h : Closes (m :: mark) inner text rest) :
    Closes (m :: mark) (c :: inner) (c :: text) rest :=
  h.cons (by simp) (not_isPrefix_cons hc)

theorem head? {c : Char} (h : Closes mark inner text rest) (hc : inner.head? = some c) :
    (text ++ rest).head? = some c := by
  cases h with
  | found => simp [hc]
  | ended => simp [hc]

end Closes

theorem closes_commentBody (cs : List Char) :
    ∃ inner rest, cs = commentBody cs ++ rest ∧ Closes ['*', '/'] inner (commentBody cs) rest := by
  fun_induction commentBody cs with
  | case1 => exact ⟨[], [], rfl, .ended (by simp)⟩
  | case2 c cs h =>
    simp only [Bool.and_eq_true, decide_eq_true_eq, List.head?_eq_some_iff] at h
    obtain ⟨rfl, rest, rfl⟩ := h
    exact ⟨[], rest, rfl, .found (by simp [List.infix_cons_iff])⟩
  | case3 c cs h ih =>
    obtain ⟨inner, rest, hcs, hcloses⟩ := ih
    refine ⟨c :: inner, rest, congrArg (List.cons c) hcs, hcloses.cons (by simp) ?_⟩
    rw [← hcs]
    rintro ⟨rest', heq⟩
    cases heq
    exact h rfl

/-- A broken address goes on to the next parenthesis that closes. -/
theorem closes_brokenAddress (h : Unescaped cs) :
    ∃ inner rest, cs = brokenAddress cs ++ rest ∧ Closes [')'] inner (brokenAddress cs) rest := by
  fun_induction brokenAddress cs with
  | case1 => exact ⟨[], [], rfl, .ended (by simp)⟩
  | case2 c =>
    by_cases hc : c = ')'
    · subst hc
      exact ⟨[], [], rfl, .found (by simp)⟩
    · exact ⟨[c], [], rfl, .ended (by simpa using Ne.symm hc)⟩
  | case3 d cs => exact ⟨[], d :: cs, rfl, .found (by simp)⟩
  | case4 c d cs _ hescape =>
    rw [Bool.and_eq_true, decide_eq_true_eq] at hescape
    exact absurd hescape.1 (h c (by simp)).1
  | case5 c d cs hc _ ih =>
    obtain ⟨inner, rest, hcs, hcloses⟩ := ih h.tail
    exact ⟨c :: inner, rest, congrArg (List.cons c) hcs, hcloses.cons_of_ne hc⟩

theorem breaksAddress_of_isBlank {c : Char} (h : isBlank c = true) : breaksAddress c = false := by
  simp only [isBlank, isNewline, Bool.or_eq_true, decide_eq_true_eq] at h
  rcases h with (rfl | rfl) | (rfl | rfl) | rfl <;> rfl

/-- Blanks before a closing mark. -/
theorem Closes.blanks {inner text : List Char} (hw : ∀ c ∈ w, isBlank c = true)
    (h : Closes [')'] inner text rest) : Closes [')'] (w ++ inner) (w ++ text) rest := by
  induction w with
  | nil => exact h
  | cons c w ih =>
    have hc : c ≠ ')' := ne_of_property (hw c (by simp)) rfl
    exact (ih fun d hd => hw d (by simp [hd])).cons_of_ne hc

/-- Blanks alone end an address; behind anything else it is broken. -/
theorem closes_addressEnd (h : Unescaped cs) :
    ∃ inner rest, cs = (addressEnd cs).1 ++ rest ∧ Closes [')'] inner (addressEnd cs).1 rest ∧
      (addressEnd cs).2 = inner.all isBlank := by
  obtain ⟨blanks, body, rfl, hblanks, hstop⟩ := exists_run isBlank cs
  unfold addressEnd
  dsimp only
  rw [takeWhile_stop hblanks hstop, List.drop_left]
  have hwhole : true = blanks.all isBlank := (List.all_eq_true.mpr hblanks).symm
  cases body with
  | nil =>
    have hcloses : Closes [')'] (blanks ++ []) (blanks ++ []) [] :=
      Closes.blanks hblanks (.ended (by simp))
    rw [List.append_nil] at hcloses
    exact ⟨blanks, [], rfl, hcloses, hwhole⟩
  | cons c rest =>
    have hc : isBlank c = false := hstop
    dsimp only
    split
    · rename_i hparen
      subst hparen
      have hclosed : Closes [')'] [] [')'] rest := .found (by simp)
      refine ⟨blanks, rest, by simp, ?_, hwhole⟩
      simpa using Closes.blanks hblanks hclosed
    · rename_i hparen
      have htail : Unescaped rest := h.of_suffix ⟨blanks ++ [c], by simp⟩
      obtain ⟨inner, rest', hcs, hcloses⟩ := closes_brokenAddress htail
      refine ⟨blanks ++ c :: inner, rest', ?_,
        Closes.blanks hblanks (hcloses.cons_of_ne hparen), ?_⟩
      · rw [List.append_assoc, List.cons_append, ← hcs]
      · simp [hc]

theorem isBare_of_blank {a : List Char} (h : ∀ c, a.head? = some c → isBlank c = true) :
    isBare a = a.all isBlank := by
  cases a with
  | nil => rfl
  | cons c a =>
    have hc : isBlank c = true := h c rfl
    have hunbroken (hall : (c :: a).all isBlank = true) :
        (c :: a).all (!breaksAddress ·) = true := by
      rw [List.all_eq_true] at hall ⊢
      intro d hd
      rw [breaksAddress_of_isBlank (hall d hd)]
      rfl
    rw [isBare, List.dropWhile_cons_of_neg (by simp [hc])]
    cases hall : (c :: a).all isBlank with
    | true => rw [hunbroken hall, Bool.and_true]
    | false => rw [Bool.and_false]

theorem isBare_cons {c : Char} (hc : isBlank c = false) (a : List Char) :
    isBare (c :: a) = (!breaksAddress c && isBare a) := by
  simp only [isBare, List.all_cons, hc, Bool.not_false, List.dropWhile_cons_of_pos, Bool.and_assoc]

/-- An address reaches to the first parenthesis that closes, and is whole if it is bare. -/
theorem closes_addressBody (h : Unescaped cs) :
    ∃ inner rest, cs = (addressBody cs).1 ++ rest ∧ Closes [')'] inner (addressBody cs).1 rest ∧
      (addressBody cs).2 = isBare inner := by
  fun_induction addressBody cs with
  | case1 => exact ⟨[], [], rfl, .ended (by simp), rfl⟩
  | case2 cs => exact ⟨[], cs, rfl, .found (by simp), rfl⟩
  | case3 c cs _ hblank =>
    obtain ⟨inner, rest, hcs, hcloses, hwhole⟩ := closes_addressEnd h
    refine ⟨inner, rest, hcs, hcloses, hwhole.trans (isBare_of_blank ?_).symm⟩
    intro d hd
    have hhead := hcloses.head? hd
    rw [← hcs] at hhead
    cases hhead
    exact hblank
  | case4 c cs hparen hblank hbreaks =>
    have hc : breaksAddress c = true := by simpa [h c (by simp)] using hbreaks
    obtain ⟨inner, rest, hcs, hcloses⟩ := closes_brokenAddress h.tail
    refine ⟨c :: inner, rest, congrArg (List.cons c) hcs, hcloses.cons_of_ne hparen, ?_⟩
    rw [isBare_cons (Bool.eq_false_iff.mpr hblank), hc]
    rfl
  | case5 c cs hparen hblank hbreaks e rest whole hr ih =>
    obtain ⟨hc, -⟩ : breaksAddress c = false ∧ _ := by simpa using hbreaks
    have he : e = [] := if_neg (h c (by simp)).1
    rw [he] at hr ih ⊢
    rw [hr] at ih
    obtain ⟨inner, rest', hcs, hcloses, hwhole⟩ := ih h.tail
    refine ⟨c :: inner, rest', congrArg (List.cons c) hcs, hcloses.cons_of_ne hparen, ?_⟩
    rw [isBare_cons (Bool.eq_false_iff.mpr hblank), hc]
    exact hwhole

/-- Without quotes every address is read, with the blanks before it. -/
theorem closes_unquotedAddress? (h : Unescaped cs) :
    ∃ inner text rest, cs = text ++ rest ∧ Closes [')'] inner text rest ∧
      Lexeme.unquotedAddress? cs = some (text, isBare (inner.dropWhile isBlank)) := by
  obtain ⟨blanks, body, rfl, hblanks, hstop⟩ := exists_run isBlank cs
  have hbody : Unescaped body := h.of_suffix (List.suffix_append blanks body)
  obtain ⟨inner, rest, hcs, hcloses, hwhole⟩ := closes_addressBody hbody
  have hquote : body.head?.any isQuote = false := by
    rw [Option.any_eq_false]
    intro c hc
    simp [isQuote, hbody c (List.mem_of_head? hc)]
  have hinner : inner.head?.any isBlank = false := by
    rw [Option.any_eq_false] at hstop ⊢
    intro c hc
    refine hstop c ?_
    rw [hcs]
    exact hcloses.head? hc
  refine ⟨_, _, rest, ?_, Closes.blanks hblanks hcloses, ?_⟩
  · rw [List.append_assoc, ← hcs]
  · unfold Lexeme.unquotedAddress?
    dsimp only
    rw [takeWhile_stop hblanks hstop, List.drop_left, hquote, dropWhile_stop hblanks hinner,
      ← hwhole]
    rfl

end Outline

end Cartosheet
