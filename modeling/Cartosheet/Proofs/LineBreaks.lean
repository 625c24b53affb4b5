import Cartosheet.Proofs.LexemeText
import Mathlib.Data.List.TakeWhile

namespace Cartosheet

/-- The text does not end between a CR and its LF. -/
def Unsplit (raw rest : List Char) : Prop :=
  raw.getLast? = some '\r' → rest.head? ≠ some '\n'

namespace Unsplit

variable {raw rest : List Char}

theorem of_last {c : Char} (h : raw.getLast? = some c) (hc : c ≠ '\r') : Unsplit raw rest := by
  intro hr
  rw [h] at hr
  exact absurd (Option.some.inj hr) hc

theorem of_forall (h : ∀ c ∈ raw, c ≠ '\r') : Unsplit raw rest :=
  fun hr => absurd rfl (h _ (List.mem_of_getLast? hr))

theorem nil : Unsplit [] rest := by
  intro h
  cases h

/-- The part of the rest that is looked at is its first character. -/
theorem left {l m : List Char} (h : Unsplit raw (l ++ m)) : Unsplit raw l := by
  intro hr hl
  exact h hr (by rw [List.head?_append, hl, Option.some_or])

/-- The end is that of the second part, or of the first if the second is empty. -/
theorem append {l m : List Char} (hm : Unsplit m rest) (hl : m = [] → Unsplit l rest) :
    Unsplit (l ++ m) rest := by
  intro h
  rw [List.getLast?_append] at h
  cases hlast : m.getLast? with
  | some c =>
    rw [hlast, Option.some_or] at h
    exact hm (hlast.trans h)
  | none =>
    rw [hlast, Option.none_or] at h
    exact hl (List.getLast?_eq_none_iff.mp hlast) h

theorem cons {c : Char} (hc : c ≠ '\r') (h : Unsplit raw rest) : Unsplit (c :: raw) rest :=
  append (l := [c]) h fun _ => of_last rfl hc

theorem tail {c : Char} (h : Unsplit (c :: raw) rest) : Unsplit raw rest := by
  intro hr
  refine h ?_
  rw [List.getLast?_cons, hr]
  rfl

/-- The CR of a pair is told by the character after it, which is never the first of the rest. -/
theorem pair_eq {c : Char} (h : Unsplit (c :: raw) rest) :
    (c = '\r' && (raw ++ rest).head? = some '\n') = (c = '\r' && raw.head? = some '\n') := by
  cases raw with
  | cons d raw => rfl
  | nil =>
    by_cases hc : c = '\r'
    · subst hc
      simpa using h rfl
    · simp [hc]

end Unsplit

/-- Reading a text part by part leads to the same position. -/
theorem Position.advance_append {raw rest : List Char} (h : Unsplit raw rest) (p : Position) :
    p.advance (raw ++ rest) = (p.advance raw).advance rest := by
  induction raw generalizing p with
  | nil => rfl
  | cons c raw ih =>
    simp only [List.cons_append, advance, h.pair_eq]
    split
    · exact ih h.tail p
    split
    · exact ih h.tail _
    · exact ih h.tail _

/-- All of the text, or its leading part through a mark. -/
def Through (mark : Char) (raw cs : List Char) : Prop :=
  raw = cs ∨ raw.getLast? = some mark

namespace Through

variable {mark : Char} {raw cs : List Char}

theorem append {l : List Char} (h : Through mark raw cs) :
    Through mark (l ++ raw) (l ++ cs) := by
  rcases h with rfl | h
  · exact .inl rfl
  · exact .inr (by rw [List.getLast?_append, h, Option.some_or])

theorem cons {c : Char} (h : Through mark raw cs) : Through mark (c :: raw) (c :: cs) :=
  append (l := [c]) h

theorem unsplit (h : Through mark raw cs) (hm : mark ≠ '\r') :
    Unsplit raw (cs.drop raw.length) := by
  rcases h with rfl | h
  · intro _
    simp
  · exact .of_last h hm

end Through

theorem through_commentBody (cs : List Char) : Through '/' (commentBody cs) cs := by
  fun_induction commentBody cs with
  | case1 => exact .inl rfl
  | case2 => exact .inr rfl
  | case3 c cs _ ih => exact ih.cons

theorem through_brokenAddress (cs : List Char) : Through ')' (brokenAddress cs) cs := by
  fun_induction brokenAddress cs with
  | case1 => exact .inl rfl
  | case2 => exact .inl rfl
  | case3 => exact .inr rfl
  | case4 c d cs _ _ ih => exact ih.cons.cons
  | case5 c d cs _ _ ih => exact ih.cons

theorem through_addressEnd (cs : List Char) : Through ')' (addressEnd cs).1 cs := by
  have hsplit : cs.takeWhile isBlank ++ cs.drop (cs.takeWhile isBlank).length = cs :=
    List.prefix_iff_eq_append.mp <| List.takeWhile_prefix _
  unfold addressEnd
  dsimp only
  split
  · rename_i hrest
    rw [hrest, List.append_nil] at hsplit
    exact .inl hsplit
  · rename_i c rest hrest
    rw [hrest] at hsplit
    split
    · rename_i hc
      exact .inr (by simp [hc])
    · have h := (through_brokenAddress rest).cons (c := c)
      have happ := h.append (l := cs.takeWhile isBlank)
      rwa [hsplit] at happ

theorem through_addressBody (cs : List Char) : Through ')' (addressBody cs).1 cs := by
  fun_induction addressBody cs with
  | case1 => exact .inl rfl
  | case2 => exact .inr rfl
  | case3 c cs => exact through_addressEnd (c :: cs)
  | case4 c cs => exact (through_brokenAddress cs).cons
  | case5 c cs _ _ _ e rest whole hr ih =>
    have he : e <+: cs := by
      unfold e
      split
      · exact isPrefix_escape cs
      · exact List.nil_prefix
    rw [hr] at ih
    have happ := (ih.append (l := e)).cons (c := c)
    rwa [List.prefix_iff_eq_append.mp he] at happ

theorem unsplit_lineBreak (cs : List Char) :
    Unsplit (lineBreak cs) (cs.drop (lineBreak cs).length) := by
  cases cs with
  | nil => exact .nil
  | cons c cs =>
    rw [lineBreak]
    split
    · exact .of_last rfl (by decide)
    rename_i hpair
    split
    · intro hr
      simp only [List.getLast?_singleton, Option.some.injEq] at hr
      simpa [hr] using hpair
    · exact .nil

theorem unsplit_escape {cs : List Char} (h : startsNewline cs = false) :
    Unsplit (escape cs).raw (cs.drop (escape cs).raw.length) := by
  cases cs with
  | nil => exact .nil
  | cons c cs =>
    rw [escape]
    split
    · have hdigits : ∀ d ∈ ((c :: cs).take 6).takeWhile Hex.isDigit, d ≠ '\r' := by
        intro d hd
        exact ne_of_property (List.mem_takeWhile_imp hd) rfl
      refine Unsplit.append ?_ fun _ => .of_forall hdigits
      rw [List.length_append, ← List.drop_drop]
      unfold escapeEnd
      split
      · exact unsplit_lineBreak _
      · rename_i hnewline
        split
        · refine .of_forall ?_
          intro d hd
          rintro rfl
          refine hnewline ?_
          generalize List.drop _ (c :: cs) = ds at hd ⊢
          cases ds with
          | nil => simp at hd
          | cons e ds =>
            obtain rfl : '\r' = e := by simpa using hd
            rfl
        · exact .nil
    · refine .of_last rfl ?_
      rintro rfl
      cases h

theorem unsplit_name (cs : List Char) : Unsplit (name cs).raw (cs.drop (name cs).raw.length) := by
  fun_induction name cs with
  | case1 => exact .nil
  | case2 => exact .nil
  | case3 cs hnewline e ih =>
    refine .cons (by decide) ?_
    rw [List.drop_drop, ← List.length_append] at ih
    refine Unsplit.append ih fun hnil => ?_
    have he := unsplit_escape (Bool.eq_false_iff.mpr hnewline)
    simpa [Piece.append, hnil] using he
  | case4 c cs _ hc ih => exact .cons (ne_of_property hc rfl) ih
  | case5 => exact .nil

theorem unsplit_stringBody {quote : Char} (hq : quote ≠ '\r') (cs : List Char) :
    Unsplit (stringBody quote cs).1.raw (cs.drop (stringBody quote cs).1.raw.length) := by
  fun_induction stringBody quote cs with
  | case1 => exact .nil
  | case2 cs => exact .of_last rfl hq
  | case3 => exact .nil
  | case4 cs e p closed hp _ _ ih =>
    have he : Unsplit e.raw (cs.drop e.raw.length) := by
      unfold e
      split
      · exact unsplit_lineBreak cs
      rename_i hnewline
      split
      · exact .nil
      · exact unsplit_escape (Bool.eq_false_iff.mpr hnewline)
    rw [hp, List.drop_drop, ← List.length_append] at ih
    refine .cons (by decide) (Unsplit.append ih fun hnil => ?_)
    simpa [Piece.append, hnil] using he
  | case5 c cs _ hnewline _ p closed hp ih =>
    rw [hp] at ih
    refine .cons ?_ ih
    rintro rfl
    exact hnewline rfl

/-- The characters of numbers. -/
def isNumberChar (c : Char) : Bool :=
  c.isDigit || ['+', '-', '.', 'e', 'E'].contains c

theorem isNumberChar_of_digits {cs : List Char} {c : Char} (h : c ∈ cs.takeWhile Char.isDigit) :
    isNumberChar c = true := by
  simp [isNumberChar, List.mem_takeWhile_imp h]

theorem isNumberChar_signPart {cs : List Char} {c : Char} (h : c ∈ signPart cs) :
    isNumberChar c = true := by
  obtain ⟨-, hc⟩ := List.mem_filter.mp h
  simp only [Bool.or_eq_true, decide_eq_true_eq] at hc
  rcases hc with rfl | rfl <;> decide

theorem isNumberChar_markedDigits {mark cs : List Char} (hm : mark.all isNumberChar = true)
    {c : Char} (h : c ∈ markedDigits mark cs) : isNumberChar c = true := by
  unfold markedDigits at h
  dsimp only at h
  split at h
  · simp at h
  · rcases List.mem_append.mp h with h | h
    · exact List.all_eq_true.mp hm c h
    · exact isNumberChar_of_digits h

theorem isNumberChar_numberPart {cs : List Char} {c : Char} (h : c ∈ numberPart cs) :
    isNumberChar c = true := by
  simp only [numberPart, List.mem_append] at h
  rcases h with ((h | h) | h) | h
  · exact isNumberChar_signPart h
  · exact isNumberChar_of_digits h
  · unfold fractionPart at h
    split at h
    · exact isNumberChar_markedDigits rfl h
    · simp at h
  · generalize List.drop _ cs = ds at h
    cases ds with
    | nil => simp [exponentPart] at h
    | cons d ds =>
      rw [exponentPart] at h
      split at h
      · rename_i hd
        simp only [Bool.or_eq_true, decide_eq_true_eq] at hd
        refine isNumberChar_markedDigits (List.all_eq_true.mpr fun e he => ?_) h
        rcases List.mem_cons.mp he with rfl | he
        · rcases hd with rfl | rfl <;> decide
        · exact isNumberChar_signPart he
      · simp at h

namespace Lexeme

theorem through_unquotedAddress? {cs raw : List Char} {whole : Bool}
    (h : unquotedAddress? cs = some (raw, whole)) : Through ')' raw cs := by
  have hsplit : cs.takeWhile isBlank ++ cs.drop (cs.takeWhile isBlank).length = cs :=
    List.prefix_iff_eq_append.mp <| List.takeWhile_prefix _
  unfold unquotedAddress? at h
  dsimp only at h
  split at h
  · cases h
  · cases h
    have happ := (through_addressBody (cs.drop (cs.takeWhile isBlank).length)).append
      (l := cs.takeWhile isBlank)
    rwa [hsplit] at happ

theorem unsplit_ofName (cs : List Char) :
    Unsplit (ofName cs).raw (cs.drop (ofName cs).raw.length) := by
  have hparen (raw rest : List Char) : Unsplit (raw ++ ['(']) rest :=
    .of_last (c := '(') (by simp) (by decide)
  unfold ofName
  dsimp only
  split
  · rename_i hopen
    obtain ⟨rest, hrest⟩ := List.head?_eq_some_iff.mp hopen
    split
    · split
      · rename_i raw whole haddress
        rw [hrest, List.tail_cons] at haddress
        refine Unsplit.append ?_ fun _ => hparen _ _
        have hdrop : cs.drop ((name cs).raw ++ ['('] ++ raw).length = rest.drop raw.length := by
          rw [List.length_append, List.length_append, ← List.drop_drop, ← List.drop_drop, hrest]
          rfl
        exact hdrop ▸ (through_unquotedAddress? haddress).unsplit (by decide)
      · exact hparen _ _
    · exact hparen _ _
  · exact unsplit_name cs

theorem unsplit_ofNumber (cs : List Char) :
    Unsplit (ofNumber cs).raw (cs.drop (ofNumber cs).raw.length) := by
  have hnumber (rest : List Char) : Unsplit (numberPart cs) rest :=
    .of_forall fun c hc => ne_of_property (isNumberChar_numberPart hc) rfl
  unfold ofNumber
  dsimp only
  split
  · exact .of_last (c := '%') (by simp [plain]) (by decide)
  split
  · have hname := unsplit_name (cs.drop (numberPart cs).length)
    rw [List.drop_drop, ← List.length_append] at hname
    exact Unsplit.append hname fun _ => hnumber _
  · exact hnumber _

/-- The characters of the marks that no token of the language holds. -/
def isMarkChar (c : Char) : Bool :=
  ['-', '>', '<', '!', '$', '*', '^', '|', '~', '='].contains c

theorem isMarkChar_markPart {cs : List Char} {c : Char} (h : c ∈ markPart cs) :
    isMarkChar c = true := by
  unfold markPart at h
  split at h
  · rename_i htake
    have hmarks : (cs.take 3).all isMarkChar = true := by
      rw [htake]
      rfl
    exact List.all_eq_true.mp hmarks c h
  split at h
  · rename_i htake
    have hmarks : (cs.take 4).all isMarkChar = true := by
      rw [htake]
      rfl
    exact List.all_eq_true.mp hmarks c h
  split at h
  · rename_i hpair
    obtain ⟨hhead, htail⟩ := (Bool.and_eq_true _ _).mp hpair
    obtain ⟨a, ha, hmark⟩ := (Option.any_eq_true _ _).mp hhead
    obtain ⟨as, rfl⟩ := List.head?_eq_some_iff.mp ha
    obtain ⟨bs, hbs⟩ := List.head?_eq_some_iff.mp (of_decide_eq_true htail)
    rw [List.tail_cons] at hbs
    subst hbs
    rcases List.mem_cons.mp h with rfl | h
    · simp only [Bool.or_eq_true, decide_eq_true_eq] at hmark
      rcases hmark with (((rfl | rfl) | rfl) | rfl) | rfl <;> decide
    · rw [List.mem_singleton.mp h]
      decide
  · simp at h

theorem unsplit_first (c : Char) (cs : List Char) :
    Unsplit (first c cs).raw ((c :: cs).drop (first c cs).raw.length) := by
  unfold first
  split
  · intro _
    have hdrop : (cs.takeWhile isBlank ++ cs.dropWhile isBlank).drop
        (cs.takeWhile isBlank).length = cs.dropWhile isBlank := List.drop_left
    rw [List.takeWhile_append_dropWhile] at hdrop
    change (cs.drop (cs.takeWhile isBlank).length).head? ≠ _
    rw [hdrop]
    intro hlf
    have hblank := List.head?_dropWhile_not isBlank cs
    rw [hlf] at hblank
    exact absurd hblank (by decide)
  split
  · rename_i h
    simp only [Bool.and_eq_true, decide_eq_true_eq, List.head?_eq_some_iff] at h
    obtain ⟨rfl, rest, rfl⟩ := h
    exact (through_commentBody rest).cons.cons.unsplit (by decide)
  split
  · rename_i hquote
    have hq : c ≠ '\r' := ne_of_property hquote rfl
    have hbody := Unsplit.cons hq (unsplit_stringBody hq cs)
    unfold ofString
    dsimp only
    split <;> exact hbody
  split
  · unfold ofHash
    split
    · exact .cons (by decide) (unsplit_name cs)
    · exact .of_last rfl (by decide)
  split
  · unfold ofAt
    split
    · exact .cons (by decide) (unsplit_name cs)
    · exact .of_last rfl (by decide)
  split
  · exact unsplit_ofNumber (c :: cs)
  split
  · exact .of_forall fun d hd => ne_of_property (isMarkChar_markPart hd) rfl
  split
  · exact unsplit_ofName (c :: cs)
  · refine .of_last rfl ?_
    rintro rfl
    rename_i hblank _ _ _ _ _ _ _
    exact hblank rfl

theorem unsplit_arguments (awaited cs : List Char) :
    Unsplit (arguments awaited cs) (cs.drop (arguments awaited cs).length) := by
  fun_induction arguments awaited cs with
  | case1 => exact .nil
  | case2 => exact .nil
  | case3 awaited c cs _ l ih =>
    rw [List.drop_drop, ← List.length_append] at ih
    refine Unsplit.append ih fun hnil => ?_
    simpa [hnil] using unsplit_first c cs

theorem unsplit_firstWhole (c : Char) (cs : List Char) :
    Unsplit (firstWhole c cs).raw ((c :: cs).drop (firstWhole c cs).raw.length) := by
  unfold firstWhole
  dsimp only
  split
  · have harguments := unsplit_arguments [')'] ((c :: cs).drop (first c cs).raw.length)
    rw [List.drop_drop, ← List.length_append] at harguments
    refine Unsplit.append harguments fun hnil => ?_
    simpa [plain, hnil] using unsplit_first c cs
  · exact unsplit_first c cs

end Lexeme

end Cartosheet
