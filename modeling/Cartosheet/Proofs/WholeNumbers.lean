import Cartosheet.Proofs.DecimalText
import Cartosheet.Proofs.NumberLine

namespace Cartosheet

/-- A whole number: its sign if it is negative, and its digits. -/
def wholeText (negative : Bool) (n : Nat) : List Char :=
  (if negative then ['-'] else []) ++ Nat.toDigits 10 n

theorem isDigit_toDigits (n : Nat) : ∀ d ∈ Nat.toDigits 10 n, d.isDigit = true :=
  fun _ hd => Nat.isDigit_of_mem_toDigits (by decide) (by decide) hd

theorem toDigits_eq_cons (n : Nat) : ∃ d ds, Nat.toDigits 10 n = d :: ds ∧ d.isDigit = true := by
  cases h : Nat.toDigits 10 n with
  | nil => exact absurd h Nat.toDigits_ne_nil
  | cons d ds => exact ⟨d, ds, rfl, isDigit_toDigits n d (by simp [h])⟩

theorem wholeText_eq_cons (negative : Bool) (n : Nat) :
    ∃ c cs, wholeText negative n = c :: cs ∧ (c = '-' ∨ c.isDigit = true) := by
  obtain ⟨d, ds, hdigits, hd⟩ := toDigits_eq_cons n
  cases negative with
  | true => exact ⟨'-', _, rfl, .inl rfl⟩
  | false => exact ⟨d, ds, hdigits, .inr hd⟩

theorem toList_toString (z : Int) : (toString z).toList = wholeText (decide (z < 0)) z.natAbs := by
  rw [Int.toString_eq_repr, Int.repr_eq_if, wholeText]
  by_cases hz : 0 ≤ z
  · have hneg : ¬z < 0 := by omega
    have habs : z.toNat = z.natAbs := by omega
    simp [hz, hneg, habs, Nat.toList_repr]
  · have hneg : z < 0 := by omega
    have habs : (-z).toNat = z.natAbs := by omega
    simp [hz, hneg, habs, Nat.toList_repr]

namespace Decimal

theorem number_toDigits (n : Nat) : number (Nat.toDigits 10 n) = n :=
  Nat.ofDigitChars_toDigits (by decide) (by decide)

theorem written_wholeText (negative : Bool) (n : Nat) :
    Written (wholeText negative n) negative ⟨n, 0⟩ := by
  have hsign : IsSign (if negative then ['-'] else []) := by
    cases negative with
    | true => exact .inr (.inr rfl)
    | false => exact .inl rfl
  have h := written_whole hsign Nat.toDigits_ne_nil (isDigit_toDigits n)
  rw [number_toDigits] at h
  cases negative <;> exact h

/-- The bounds on the magnitude do not touch a whole number of at most 400 digits. -/
theorem toBinary64_whole (negative : Bool) {n : Nat} (h : width n ≤ 400) :
    toBinary64 negative ⟨n, 0⟩ = .ofRatio negative n 1 := by
  by_cases hn : n = 0
  · subst hn
    simp [toBinary64, Binary64.ofRatio_one]
  · have hsmall : ¬((n = 0) ∨ (width n : Int) + 0 < -400) := by omega
    have hlarge : ¬400 < (width n : Int) + 0 := by omega
    simp only [toBinary64, if_neg hsmall, if_neg hlarge]
    simp

end Decimal

namespace Binary64

/-- Small whole numbers are exact. -/
theorem ofText?_wholeText (negative : Bool) {n : Nat} (h : n < 1000000000000000) :
    ofText? (String.ofList (wholeText negative n)) = some (.finite negative (n * unit)) := by
  have hwritten := Decimal.written_wholeText negative n
  rw [← String.toList_ofList (l := wholeText negative n)] at hwritten
  have hwidth : Decimal.width n ≤ 15 :=
    (Nat.length_toDigits_le_iff (by decide) (by decide)).mpr h
  have hexact : n < Nat.pow 2 53 := Nat.lt_trans h (by decide)
  rw [ofText?_written hwritten, Decimal.toBinary64_whole negative (by omega),
    ofRatio_one negative hexact]

/-- Both zeros as the positive one. -/
def unsignedZero : Binary64 → Binary64
  | finite negative steps => finite (negative && steps ≠ 0) steps
  | x => x

theorem natAbs_signed (negative : Bool) (n : Nat) : (signed negative n).natAbs = n := by
  cases negative <;> simp [signed]

theorem signed_neg_iff (negative : Bool) (n : Nat) :
    signed negative n < 0 ↔ negative = true ∧ n ≠ 0 := by
  cases negative with
  | false => simp [signed]
  | true =>
    simp only [signed, if_true, true_and]
    omega

/-- A number is whole if it is a whole number of units. -/
theorem whole?_eq_some {x : Binary64} {z : Int} (h : x.whole? = some z) :
    ∃ negative n, x = .finite negative (n * unit) ∧ z = signed negative n := by
  cases x with
  | nan => cases h
  | infinite negative => cases h
  | finite negative steps =>
    rw [whole?] at h
    split at h
    · rename_i hsteps
      refine ⟨negative, steps / unit, ?_, (Option.some.inj h).symm⟩
      rw [Nat.div_mul_cancel (Nat.dvd_of_mod_eq_zero hsteps)]
    · cases h

/-- A small whole number is read back from its text as it was, but for the sign of a zero. -/
theorem ofText?_toString {x : Binary64} {z : Int} (hx : x.whole? = some z)
    (hz : z.natAbs < 1000000000000000) : ofText? (toString z) = some x.unsignedZero := by
  obtain ⟨negative, n, rfl, rfl⟩ := whole?_eq_some hx
  rw [natAbs_signed] at hz
  have hsign : decide (signed negative n < 0) = (negative && decide (n * unit ≠ 0)) := by
    have hne : n * unit ≠ 0 ↔ n ≠ 0 := by
      rw [Nat.mul_ne_zero_iff]
      exact and_iff_left (Nat.ne_of_gt unit_pos)
    rw [Bool.eq_iff_iff]
    simp only [decide_eq_true_eq, Bool.and_eq_true, signed_neg_iff, hne]
  rw [← String.ofList_toList (s := toString (signed negative n)), toList_toString, natAbs_signed,
    ofText?_wholeText _ hz, hsign]
  rfl

theorem compare?_unsignedZero {x : Binary64} {z : Int} (hx : x.whole? = some z) :
    x.unsignedZero.compare? x = some .eq := by
  obtain ⟨negative, n, rfl, -⟩ := whole?_eq_some hx
  have hplace : signed (negative && decide (n * unit ≠ 0)) (n * unit) =
      signed negative (n * unit) := by
    by_cases hn : n * unit = 0
    · simp [signed, hn]
    · simp [hn]
  refine (compare?_of_place? rfl rfl).trans ?_
  rw [hplace]
  exact congrArg some Std.ReflOrd.compare_self

end Binary64

end Cartosheet
