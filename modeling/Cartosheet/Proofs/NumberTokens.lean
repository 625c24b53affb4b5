import Cartosheet.Proofs.FaultPosition
import Cartosheet.Proofs.NumeralReading

namespace Cartosheet

open Decimal (IsSign IsFraction IsPower)

theorem isSign_signPart (cs : List Char) : IsSign (signPart cs) := by
  cases cs with
  | nil => exact .inl rfl
  | cons c cs =>
    simp only [signPart, List.take_succ_cons, List.take_zero, List.filter_cons, List.filter_nil]
    split
    · rename_i h
      rw [Bool.or_eq_true, decide_eq_true_eq, decide_eq_true_eq] at h
      rcases h with rfl | rfl
      · exact .inr (.inl rfl)
      · exact .inr (.inr rfl)
    · exact .inl rfl

/-- A point is taken only with digits behind it. -/
theorem isFraction_fractionPart (cs : List Char) :
    ∃ fraction, IsFraction (fractionPart cs) fraction ∧ (fraction = [] → fractionPart cs = []) := by
  unfold fractionPart markedDigits
  dsimp only
  split
  · split
    · exact ⟨[], .absent, fun _ => rfl⟩
    · rename_i hne
      exact ⟨_, .written fun _ => List.mem_takeWhile_imp,
        fun hnil => (hne (List.isEmpty_iff.mpr hnil)).elim⟩
  · exact ⟨[], .absent, fun _ => rfl⟩

theorem isPower_exponentPart (cs : List Char) : ∃ e, IsPower (exponentPart cs) e := by
  cases cs with
  | nil => exact ⟨0, .absent⟩
  | cons c cs =>
    unfold exponentPart markedDigits
    dsimp only
    split
    · rename_i hmark
      split
      · exact ⟨0, .absent⟩
      · rename_i hne
        refine ⟨_, .written (by simpa using hmark) (.mk (isSign_signPart cs) ?_ ?_)⟩
        · simpa using hne
        · exact fun _ => List.mem_takeWhile_imp
    · exact ⟨0, .absent⟩

/-- Where a number starts, a digit comes next or a fraction does. -/
theorem fractionPart_ne_nil {cs : List Char} (h : startsNumber cs = true)
    (hnone : (cs.drop (signPart cs).length).takeWhile Char.isDigit = []) :
    fractionPart (cs.drop (signPart cs).length) ≠ [] := by
  unfold startsNumber at h
  generalize cs.drop (signPart cs).length = ds at h hnone
  dsimp only at h
  split at h
  · rename_i hpoint
    obtain ⟨rest, rfl⟩ := List.head?_eq_some_iff.mp hpoint
    cases rest with
    | nil => cases h
    | cons c rest =>
      have hc : c.isDigit = true := h
      simp [fractionPart, markedDigits, hc]
  · cases ds with
    | nil => cases h
    | cons c ds =>
      have hc : c.isDigit = true := h
      rw [List.takeWhile_cons_of_pos hc] at hnone
      cases hnone

/-- The parts of what the scanner takes for a number. -/
theorem numberPart_eq {cs : List Char} (h : startsNumber cs = true) :
    ∃ sign whole point fraction power e, numberPart cs = sign ++ (whole ++ (point ++ power)) ∧
      IsSign sign ∧ (∀ c ∈ whole, c.isDigit = true) ∧ IsFraction point fraction ∧
      (fraction = [] → point = []) ∧ IsPower power e ∧ whole ++ fraction ≠ [] := by
  let sign := signPart cs
  let whole := (cs.drop sign.length).takeWhile Char.isDigit
  obtain ⟨fraction, hfraction, hpoint⟩ :=
    isFraction_fractionPart (cs.drop (sign ++ whole).length)
  obtain ⟨e, hpower⟩ := isPower_exponentPart
    (cs.drop (sign ++ whole ++ fractionPart (cs.drop (sign ++ whole).length)).length)
  refine ⟨sign, whole, _, fraction, _, e, ?_, isSign_signPart cs, fun _ => List.mem_takeWhile_imp,
    hfraction, hpoint, hpower, ?_⟩
  · rw [← List.append_assoc, ← List.append_assoc]
    rfl
  · intro hnil
    obtain ⟨hwhole, hnone⟩ := List.append_eq_nil_iff.mp hnil
    rw [hwhole, List.append_nil] at hpoint
    exact fractionPart_ne_nil h hwhole (hpoint hnone)

/-- They spell a decimal. -/
theorem written_numberPart {cs : List Char} (h : startsNumber cs = true) :
    ∃ negative d, Decimal.Written (numberPart cs) negative d := by
  obtain ⟨sign, whole, point, fraction, power, e, hparts, hsign, hwhole, hfraction, -, hpower,
    hne⟩ := numberPart_eq h
  rw [hparts]
  exact ⟨_, _, .mk hsign (.mk hwhole hfraction hpower hne)⟩

namespace Lexeme

/-- A lexeme is a number only where a number starts, and all of it is the number. -/
theorem first_of_number {c : Char} {cs : List Char} (h : (first c cs).kind = .number) :
    startsNumber (c :: cs) = true ∧ first c cs = plain .number (numberPart (c :: cs)) := by
  revert h
  unfold first
  split
  · rintro ⟨⟩
  split
  · rintro ⟨⟩
  split
  · intro h
    rcases kind_ofString c cs with hk | hk <;> rw [hk] at h <;> cases h
  split
  · intro h
    rcases kind_ofHash cs with hk | hk <;> rw [hk] at h <;> cases h
  split
  · intro h
    rcases kind_ofAt cs with hk | hk <;> rw [hk] at h <;> cases h
  split
  · rename_i hstarts
    intro h
    rcases kind_ofNumber (c :: cs) with hk | hk
    · exact ⟨hstarts, hk⟩
    · rw [hk] at h
      cases h
  split
  · rintro ⟨⟩
  split
  · intro h
    rcases kind_ofName (c :: cs) with hk | hk | hk <;> rw [hk] at h <;> cases h
  · rintro ⟨⟩

theorem firstWhole_of_number {c : Char} {cs : List Char} (h : (firstWhole c cs).kind = .number) :
    startsNumber (c :: cs) = true ∧ (firstWhole c cs).text = numberPart (c :: cs) := by
  unfold firstWhole at h ⊢
  dsimp only at h ⊢
  split at h
  · rename_i hcall
    rw [(first_of_number h).2] at hcall
    cases hcall
  · rename_i hcall
    obtain ⟨hstarts, hfirst⟩ := first_of_number h
    rw [if_neg hcall, hfirst]
    exact ⟨hstarts, rfl⟩

end Lexeme

/-- A number spells a decimal. -/
def Token.SpellsDecimal (t : Token) : Prop :=
  t.kind = .number → ∃ negative d, Decimal.Written t.text.toList negative d

theorem Token.spellsDecimal_scan (source : String) : ∀ t ∈ scan source, t.SpellsDecimal := by
  refine forall_scanFrom ?_ .start source.toList
  intro c cs p hkind
  obtain ⟨hstarts, htext⟩ := Lexeme.firstWhole_of_number hkind
  rw [String.toList_ofList, htext]
  exact written_numberPart hstarts

/-- Over numbers that spell decimals no test is refused for its number. -/
theorem Fault.Arises.ne_attributeNumber {tokens : List Token} {f : Fault} (h : f.Arises tokens)
    (hspells : ∀ t ∈ tokens, t.SpellsDecimal) (t : Token) : f ≠ .unexpected t .attributeNumber := by
  rintro rfl
  cases h with
  | misplaced _ hplace => exact hplace rfl
  | unreadable ht hkind htext =>
    obtain ⟨negative, d, hwritten⟩ := hspells t ht hkind
    rw [Binary64.ofText?_written hwritten] at htext
    cases htext
  | meaning hmeaning => cases hmeaning

theorem Reader.attributeTest_ne_attributeNumber {c d : Cursor}
    (hspells : ∀ t ∈ c.pending, t.SpellsDecimal) (t : Token) :
    attributeTest c ≠ .error (.unexpected t .attributeNumber) d := by
  intro h
  -- What was read before the test may be anything, so a token that is no number stands for it.
  let before : Token := ⟨.other, "", c.last⟩
  have hc : c.Within (before :: c.pending) :=
    ⟨⟨before, List.mem_cons_self, rfl⟩, List.subset_cons_self _ _⟩
  have hlocated := Locates.attributeTest c hc
  rw [h] at hlocated
  refine Fault.Arises.ne_attributeNumber hlocated ?_ t rfl
  intro u hu
  rcases List.mem_cons.mp hu with rfl | hu
  · rintro ⟨⟩
  · exact hspells u hu

theorem Stylesheet.rulesets_ne_attributeNumber (σ : Settings) (source : String) (t : Token) :
    rulesets σ source ≠ .error (.unexpected t .attributeNumber) := by
  intro h
  unfold rulesets at h
  rw [Ruleset.Machine.ofTokens_eq_outcome] at h
  have harises := Ruleset.Machine.arises_outcome (List.nil_subset _) (.inl rfl)
    (List.Subset.refl (Token.scan source)) h
  exact harises.ne_attributeNumber (Token.spellsDecimal_scan source) t rfl

theorem Stylesheet.declarations_ne_attributeNumber (σ : Settings) (source : String) (t : Token) :
    declarations σ source ≠ .error (.unexpected t .attributeNumber) := by
  intro h
  unfold declarations Declaration.ofTokens at h
  split at h
  · cases h
  · rename_i f d hread
    cases h
    have harises := Declaration.arises_readRules σ (List.Subset.refl (Token.scan source)) hread
    exact harises.ne_attributeNumber (Token.spellsDecimal_scan source) t rfl

/-- Every number of a stylesheet spells a decimal, is read as the number nearest to it, and is
refused as a numeral only where that is infinite. So no test is refused for its number, by itself or
in a rule or in the whole. -/
theorem numbers_readable (source : String) :
    (∀ t ∈ Token.scan source, t.kind = .number →
      ∃ negative d x, Decimal.Written t.text.toList negative d ∧ Binary64.ofText? t.text = some x ∧
        Binary64.RoundsTo (d.signedValue negative) x ∧ x ≠ .nan ∧
        (Numeral.ofText? t.text = none ↔ ∃ sign, x = .infinite sign)) ∧
      (∀ c d t, c.pending ⊆ Token.scan source →
        Reader.attributeTest c ≠ .error (.unexpected t .attributeNumber) d) ∧
      (∀ σ c d t, c.pending ⊆ Token.scan source →
        Declaration.readRule σ c ≠ .error (.unexpected t .attributeNumber) d) ∧
      ∀ σ t, Stylesheet.rulesets σ source ≠ .error (.unexpected t .attributeNumber) ∧
        Stylesheet.declarations σ source ≠ .error (.unexpected t .attributeNumber) := by
  have hspells := Token.spellsDecimal_scan source
  refine ⟨?_, ?_, ?_, ?_⟩
  · intro t ht hkind
    obtain ⟨negative, d, hwritten⟩ := hspells t ht hkind
    have hread := Binary64.ofText?_written hwritten
    have hrounds := d.roundsTo_toBinary64 negative
    refine ⟨negative, d, _, hwritten, hread, hrounds, hrounds.ne_nan, ?_⟩
    rw [Numeral.ofText?_eq_none_iff hread]
    exact hrounds.isFinite_eq_false_iff
  · intro c d t hc
    exact Reader.attributeTest_ne_attributeNumber (fun u hu => hspells u (hc hu)) t
  · intro σ c d t hc h
    exact (Declaration.arises_readRule σ hc h).ne_attributeNumber hspells t rfl
  · intro σ t
    exact ⟨Stylesheet.rulesets_ne_attributeNumber σ source t,
      Stylesheet.declarations_ne_attributeNumber σ source t⟩

/-- A number may be too large in either direction and still is one. -/
theorem numbers_readable_overflow :
    let source := "Line[width<-1e309]{}"
    (⟨.number, "-1e309", ⟨1, 12⟩⟩ ∈ Token.scan source ∧
      ∃ x, Binary64.ofText? "-1e309" = some x ∧ x ≠ .nan ∧
        (Numeral.ofText? "-1e309" = none ↔ ∃ sign, x = .infinite sign)) ∧
      (Cursor.pending { rest := Token.scan source } ⊆ Token.scan source ∧
        ∀ σ d t,
          Declaration.readRule σ { rest := Token.scan source } ≠
            .error (.unexpected t .attributeNumber) d ∧
          Reader.attributeTest { rest := Token.scan source } ≠
            .error (.unexpected t .attributeNumber) d) := by
  intro source
  obtain ⟨hnumbers, htest, hrule, -⟩ := numbers_readable source
  have hmem : ⟨.number, "-1e309", ⟨1, 12⟩⟩ ∈ Token.scan source := by decide +kernel
  have hpending : Cursor.pending { rest := Token.scan source } ⊆ Token.scan source :=
    List.Subset.refl _
  obtain ⟨-, -, x, -, hx, -, hnan, hnone⟩ := hnumbers _ hmem rfl
  exact ⟨⟨hmem, x, hx, hnan, hnone⟩, hpending,
    fun σ d t => ⟨hrule σ _ d t hpending, htest _ d t hpending⟩⟩

end Cartosheet
