import Cartosheet.Proofs.DecimalText
import Cartosheet.Proofs.Rounding
import Cartosheet.Proofs.ValueForm

namespace Cartosheet

/-- An integer is read from exactly the texts that spell one of 64 bits. -/
theorem integerOfText?_eq_some_iff {text : String} {z : ℤ} :
    integerOfText? text = some z ↔ Decimal.Whole text.toList z ∧ IsInteger64 z := by
  rw [← Decimal.map_digits?_eq_some_iff]
  unfold integerOfText?
  dsimp only
  cases Decimal.digits? (Decimal.splitSign text.toList).2 with
  | none => simp
  | some n =>
    simp only [Option.map_some, Option.ite_none_right_eq_some, Option.some.injEq, IsInteger64]
    constructor
    · rintro ⟨hz, rfl⟩
      exact ⟨rfl, hz⟩
    · rintro ⟨rfl, hz⟩
      exact ⟨hz, rfl⟩

/-- A whole number is a decimal without a fraction and a power. -/
theorem Decimal.Whole.written {cs : List Char} {z : ℤ} (h : Whole cs z) :
    ∃ negative d, Written cs negative d ∧ d.signedValue negative = z := by
  cases h with
  | mk hsign hne hdigits =>
    refine ⟨_, _, written_whole hsign hne hdigits, ?_⟩
    simp only [signedValue, value, zpow_zero, mul_one, decide_eq_true_eq]
    split <;> simp

namespace Numeral

variable {text : String}

theorem ofText?_eq_integer_iff {z : ℤ} :
    ofText? text = some (.integer z) ↔ Decimal.Whole text.toList z ∧ IsInteger64 z := by
  rw [← integerOfText?_eq_some_iff]
  constructor
  · intro h
    rcases ofText?_eq_some h with ⟨w, hw, hn⟩ | ⟨x, -, -, -, hn⟩
    · cases hn
      exact hw
    · cases hn
  · intro h
    rw [ofText?, h]

/-- Where there is no integer the binary number decides. -/
theorem ofText?_of_binary64 (h : integerOfText? text = none) {x : Binary64}
    (hx : Binary64.ofText? text = some x) :
    ofText? text = if x.isFinite then some (.float x) else none := by
  rw [ofText?, h, hx]

/-- A numeral is what the decimal in the text is rounded to. -/
theorem roundsTo_of_ofText? {n : Numeral} (h : ofText? text = some n) :
    ∃ negative d, Decimal.Written text.toList negative d ∧
      Binary64.RoundsTo (d.signedValue negative) n.toBinary64 := by
  rcases ofText?_eq_some h with ⟨z, hz, rfl⟩ | ⟨x, -, hx, hfinite, rfl⟩
  · obtain ⟨negative, d, hwritten, hvalue⟩ := (integerOfText?_eq_some_iff.mp hz).1.written
    refine ⟨negative, d, hwritten, ?_⟩
    rw [hvalue]
    exact Binary64.roundsTo_ofInt z
  · obtain ⟨negative, d, hwritten, rfl⟩ := Binary64.written_of_ofText? hx hfinite
    exact ⟨negative, d, hwritten, d.roundsTo_toBinary64 negative⟩

/-- Both ways of reading are open or neither is, and they lead to one value. -/
theorem rational?_of_ofText? {n : Numeral} (h : ofText? text = some n) :
    ∃ negative d x r, Decimal.Written text.toList negative d ∧ Binary64.ofText? text = some x ∧
      Binary64.RoundsTo (d.signedValue negative) x ∧
      Binary64.RoundsTo (d.signedValue negative) n.toBinary64 ∧
      x.rational? = some r ∧ n.toBinary64.rational? = some r := by
  obtain ⟨negative, d, hwritten, hn⟩ := roundsTo_of_ofText? h
  have hx := d.roundsTo_toBinary64 negative
  obtain ⟨r, hr⟩ := Binary64.rational?_of_isFinite (isProper_of_text h).isFinite
  refine ⟨negative, d, _, r, hwritten, Binary64.ofText?_written hwritten, hx, hn, ?_, hr⟩
  rw [hx.rational?_eq hn, hr]

/-- A numeral is refused exactly where the binary number is not finite. -/
theorem ofText?_eq_none_iff {x : Binary64} (hx : Binary64.ofText? text = some x) :
    ofText? text = none ↔ x.isFinite = false := by
  constructor
  · intro h
    cases hz : integerOfText? text with
    | some z =>
      rw [ofText?, hz] at h
      cases h
    | none =>
      rw [ofText?_of_binary64 hz hx] at h
      simpa using h
  · intro hfinite
    cases hn : ofText? text with
    | none => rfl
    | some n =>
      obtain ⟨-, -, y, r, -, hy, -, -, hr, -⟩ := rational?_of_ofText? hn
      rw [hx] at hy
      cases hy
      cases x with
      | nan => cases hr
      | infinite => cases hr
      | finite => cases hfinite

/-- A numeral and a binary number that are read from the same text have the same value, the number
nearest to the decimal in the text. A numeral is refused only where no finite number is read. The
integers are those of 64 bits; an integer beyond them is rounded like a fraction. -/
theorem paths_agree (text : String) :
    (∀ n, ofText? text = some n →
      ∃ negative d x r, Decimal.Written text.toList negative d ∧ Binary64.ofText? text = some x ∧
        Binary64.RoundsTo (d.signedValue negative) x ∧
        Binary64.RoundsTo (d.signedValue negative) n.toBinary64 ∧
        x.rational? = some r ∧ n.toBinary64.rational? = some r) ∧
      (ofText? text = none → ∀ x, Binary64.ofText? text = some x → x.isFinite = false) ∧
      (∀ z, ofText? text = some (.integer z) ↔ Decimal.Whole text.toList z ∧ IsInteger64 z) ∧
      ∀ z, Decimal.Whole text.toList z → ¬IsInteger64 z →
        ∃ x, Binary64.ofText? text = some x ∧ Binary64.RoundsTo z x ∧
          ofText? text = if x.isFinite then some (.float x) else none := by
  refine ⟨fun n hn => rational?_of_ofText? hn, fun hnone x hx => (ofText?_eq_none_iff hx).mp hnone,
    fun z => ofText?_eq_integer_iff, ?_⟩
  intro z hwhole hz
  have hnone : integerOfText? text = none := by
    cases hread : integerOfText? text with
    | none => rfl
    | some w =>
      obtain ⟨hwhole', hw⟩ := integerOfText?_eq_some_iff.mp hread
      rw [hwhole.unique hwhole'] at hz
      exact absurd hw hz
  obtain ⟨negative, d, hwritten, hvalue⟩ := hwhole.written
  have hx := Binary64.ofText?_written hwritten
  refine ⟨_, hx, ?_, ofText?_of_binary64 hnone hx⟩
  rw [← hvalue]
  exact d.roundsTo_toBinary64 negative

/-- One below the least integer of 64 bits is rounded to the least, and a number beyond the largest
finite one is no numeral. -/
theorem paths_agree_beyond :
    (ofText? "-09223372036854775809" =
        some (.float (.finite true (9223372036854775808 * Binary64.unit))) ∧
      ∃ x r, Binary64.ofText? "-09223372036854775809" = some x ∧ x.rational? = some r ∧
        (Binary64.finite true (9223372036854775808 * Binary64.unit)).rational? = some r) ∧
      (Decimal.Whole "-09223372036854775809".toList (-9223372036854775809) ∧
        ¬IsInteger64 (-9223372036854775809) ∧
        ∃ x, Binary64.ofText? "-09223372036854775809" = some x ∧
          Binary64.RoundsTo (-9223372036854775809 : ℤ) x) ∧
      ofText? "1e309" = none ∧ Binary64.ofText? "1e309" = some (.infinite false) ∧
        (Binary64.infinite false).isFinite = false := by
  obtain ⟨hsome, -, -, hbeyond⟩ := paths_agree "-09223372036854775809"
  have hfloat : ofText? "-09223372036854775809" =
      some (.float (.finite true (9223372036854775808 * Binary64.unit))) := by decide +kernel
  have hwhole : Decimal.Whole "-09223372036854775809".toList (-9223372036854775809) :=
    Decimal.map_digits?_eq_some_iff.mp (by decide +kernel)
  have hwide : ¬IsInteger64 (-9223372036854775809) := by simp [IsInteger64, leastInteger]
  have hnone : ofText? "1e309" = none := by decide +kernel
  have hinfinite : Binary64.ofText? "1e309" = some (.infinite false) := by decide +kernel
  obtain ⟨-, -, x, r, -, hx, -, -, hxr, hr⟩ := hsome _ hfloat
  obtain ⟨y, hy, hround, -⟩ := hbeyond _ hwhole hwide
  exact ⟨⟨hfloat, x, r, hx, hxr, hr⟩, ⟨hwhole, hwide, y, hy, hround⟩, hnone, hinfinite,
    (paths_agree "1e309").2.1 hnone _ hinfinite⟩

end Numeral

end Cartosheet
