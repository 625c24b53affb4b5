import Cartosheet.Proofs.Compatibility
import Cartosheet.Decimal
import Mathlib.Algebra.Order.Field.Power
import Mathlib.Tactic.FieldSimp
import Mathlib.Tactic.Positivity
import Mathlib.Tactic.Ring

namespace Cartosheet

/-- As what a number is rounded to, `s` is preferred to `t`: it is nearer, or as near and even. -/
def Preferred (q : ℚ) (s t : ℕ) (even : Prop) : Prop :=
  |q - s| < |q - t| ∨ |q - s| = |q - t| ∧ even

namespace Preferred

variable {q : ℚ} {s t : ℕ} {even : Prop}

theorem distance_le (h : Preferred q s t even) : |q - s| ≤ |q - t| := by
  rcases h with h | h
  · exact h.le
  · exact h.1.le

theorem even_of_tie (h : Preferred q s t even) (htie : |q - s| = |q - t|) : even := by
  rcases h with h | h
  · exact absurd htie h.ne
  · exact h.2

/-- What is preferred to a number below is not below it either. -/
theorem not_lt_of_le (h : Preferred q s t even) (hle : (t : ℚ) ≤ q) : ¬s < t := by
  intro hlt
  have hcast : (s : ℚ) < t := Nat.cast_lt.mpr hlt
  have hdistance := h.distance_le
  rw [abs_of_nonneg (by linarith), abs_of_nonneg (by linarith)] at hdistance
  linarith

theorem not_lt_of_ge (h : Preferred q s t even) (hle : q ≤ t) : ¬t < s := by
  intro hlt
  have hcast : (t : ℚ) < s := Nat.cast_lt.mpr hlt
  have hdistance := h.distance_le
  rw [abs_of_nonpos (by linarith), abs_of_nonpos (by linarith)] at hdistance
  linarith

end Preferred

/-- A quotient is rounded by less than a half, or by a half to an even number. -/
theorem abs_sub_roundHalfEven (n : ℕ) {d : ℕ} (hd : 0 < d) :
    |(n / d : ℚ) - roundHalfEven n d| < 1 / 2 ∨
      |(n / d : ℚ) - roundHalfEven n d| = 1 / 2 ∧ roundHalfEven n d % 2 = 0 := by
  have hd' : (0 : ℚ) < d := Nat.cast_pos.mpr hd
  have hsplit : (n : ℚ) = d * (n / d : ℕ) + (n % d : ℕ) := by
    exact_mod_cast (Nat.div_add_mod n d).symm
  have hquotient : (n / d : ℚ) = (n / d : ℕ) + (n % d : ℕ) / d := by
    rw [hsplit]
    field_simp
  have hmod : ((n % d : ℕ) : ℚ) < d := Nat.cast_lt.mpr (Nat.mod_lt n hd)
  have hpart : (0 : ℚ) ≤ (n % d : ℕ) / d := by positivity
  have hone : (n % d : ℕ) / d < (1 : ℚ) := (div_lt_one hd').mpr hmod
  rw [hquotient]
  unfold roundHalfEven
  dsimp only
  generalize n / d = q, n % d = r at *
  split
  · rename_i hless
    have hhalf : (r / d : ℚ) < 1 / 2 := by
      rw [div_lt_div_iff₀ hd' two_pos]
      exact_mod_cast (by omega : r * 2 < 1 * d)
    left
    rwa [add_sub_cancel_left, abs_of_nonneg hpart]
  split
  · rename_i hmore
    have hhalf : (1 / 2 : ℚ) < r / d := by
      rw [div_lt_div_iff₀ two_pos hd']
      exact_mod_cast (by omega : 1 * d < r * 2)
    left
    rw [Nat.cast_succ, add_sub_add_left_eq_sub, abs_of_neg (by linarith)]
    linarith
  · rename_i hless hmore
    have hhalf : (r / d : ℚ) = 1 / 2 := by
      rw [div_eq_div_iff hd'.ne' two_ne_zero]
      exact_mod_cast (by omega : r * 2 = 1 * d)
    right
    rw [hhalf, Nat.cast_add, add_sub_add_left_eq_sub]
    refine ⟨?_, by omega⟩
    rcases Nat.mod_two_eq_zero_or_one q with h | h <;> rw [h] <;> norm_num

/-- The rounded quotient is preferred to every other whole number. -/
theorem preferred_roundHalfEven (n : ℕ) {d t : ℕ} (hd : 0 < d) (ht : t ≠ roundHalfEven n d) :
    Preferred (n / d) (roundHalfEven n d) t (roundHalfEven n d % 2 = 0) := by
  have hhalf := abs_sub_roundHalfEven n hd
  generalize roundHalfEven n d = r at *
  generalize (n / d : ℚ) = q at *
  have happart : (1 : ℚ) ≤ |(r : ℚ) - t| := by
    exact_mod_cast Int.one_le_abs (by omega : (r : ℤ) - t ≠ 0)
  have hsum : |(r : ℚ) - t| ≤ |q - r| + |q - t| := by
    rw [abs_sub_comm q r]
    exact abs_sub_le _ _ _
  rcases hhalf with hless | ⟨htie, heven⟩
  · left
    linarith
  · rcases lt_or_eq_of_le (by linarith : |q - r| ≤ |q - t|) with h | h
    · exact .inl h
    · exact .inr ⟨h, heven⟩

theorem roundHalfEven_le {n d m : ℕ} (hd : 0 < d) (h : n ≤ m * d) : roundHalfEven n d ≤ m := by
  have hq : (n / d : ℚ) ≤ m := by
    rw [div_le_iff₀ (Nat.cast_pos.mpr hd)]
    exact_mod_cast h
  by_contra hlt
  exact (preferred_roundHalfEven n hd (not_le.mp hlt).ne).not_lt_of_ge hq (not_le.mp hlt)

/-- So it is among the multiples of any number. -/
theorem preferred_multiple (n : ℕ) {d g t : ℕ} (hd : 0 < d) (hg : 0 < g)
    (ht : t ≠ roundHalfEven n (d * g)) :
    Preferred (n / d) (roundHalfEven n (d * g) * g) (t * g)
      (roundHalfEven n (d * g) % 2 = 0) := by
  have hg' : (0 : ℚ) < g := Nat.cast_pos.mpr hg
  have hscale (m : ℕ) : |(n / d : ℚ) - (m * g : ℕ)| = |(n / (d * g : ℕ) : ℚ) - m| * g := by
    have h : (n / d : ℚ) - (m * g : ℕ) = (n / (d * g : ℕ) - m) * g := by
      rw [Nat.cast_mul, Nat.cast_mul]
      field_simp
    rw [h, abs_mul, abs_of_pos hg']
  rw [Preferred, hscale, hscale]
  rcases preferred_roundHalfEven n (Nat.mul_pos hd hg) ht with h | ⟨h, heven⟩
  · exact .inl (mul_lt_mul_of_pos_right h hg')
  · exact .inr ⟨congrArg (· * (g : ℚ)) h, heven⟩

namespace Binary64

/-- A count of steps that a number can have: 53 binary digits and then zeros. -/
def Representable (steps : ℕ) : Prop := ∃ m k, m < 2 ^ 53 ∧ steps = m * 2 ^ k

/-- A count of steps with an even last digit: the last of the 53 is zero. -/
def EndsEven (steps : ℕ) : Prop := ∃ m k, m < 2 ^ 52 ∧ steps = 2 * m * 2 ^ k

/-- The count of steps nearest to a number, the one with an even last digit if two are. -/
structure Nearest (q : ℚ) (steps : ℕ) : Prop where
  representable : Representable steps
  preferred : ∀ t, Representable t → t ≠ steps → Preferred q steps t (EndsEven steps)

/-- Between two counts with even last digits there is a third: a neighbour of the one with fewer
zeros. -/
theorem EndsEven.exists_between {s t : ℕ} (hs : EndsEven s) (ht : EndsEven t) (hlt : s < t) :
    ∃ r, Representable r ∧ s < r ∧ r < t := by
  obtain ⟨m, j, hm, rfl⟩ := hs
  obtain ⟨n, k, hn, rfl⟩ := ht
  have hscale (a i b : ℕ) : 2 * a * 2 ^ (b + i) = 2 * (a * 2 ^ i) * 2 ^ b := by ring
  rcases Nat.le_total j k with hjk | hkj
  · obtain ⟨i, rfl⟩ := Nat.exists_eq_add_of_le hjk
    rw [hscale] at hlt ⊢
    have hless := Nat.lt_of_mul_lt_mul_right hlt
    refine ⟨(2 * m + 1) * 2 ^ j, ⟨2 * m + 1, j, by omega, rfl⟩, ?_, ?_⟩
    · exact Nat.mul_lt_mul_of_pos_right (by omega) (Nat.two_pow_pos j)
    · exact Nat.mul_lt_mul_of_pos_right (by omega) (Nat.two_pow_pos j)
  · obtain ⟨i, rfl⟩ := Nat.exists_eq_add_of_le hkj
    rw [hscale] at hlt ⊢
    have hless := Nat.lt_of_mul_lt_mul_right hlt
    refine ⟨(2 * n - 1) * 2 ^ k, ⟨2 * n - 1, k, by omega, rfl⟩, ?_, ?_⟩
    · exact Nat.mul_lt_mul_of_pos_right (by omega) (Nat.two_pow_pos k)
    · exact Nat.mul_lt_mul_of_pos_right (by omega) (Nat.two_pow_pos k)

namespace Nearest

variable {q : ℚ} {s t : ℕ}

theorem not_lt (hs : Nearest q s) (ht : Nearest q t) : ¬s < t := by
  intro hlt
  have hst := hs.preferred t ht.representable hlt.ne'
  have hts := ht.preferred s hs.representable hlt.ne
  have hdistance : |q - s| = |q - t| := le_antisymm hst.distance_le hts.distance_le
  obtain ⟨r, hr, hsr, hrt⟩ :=
    (hst.even_of_tie hdistance).exists_between (hts.even_of_tie hdistance.symm) hlt
  have hcast : (s : ℚ) < r ∧ (r : ℚ) < t := ⟨Nat.cast_lt.mpr hsr, Nat.cast_lt.mpr hrt⟩
  have hmiddle : q - s = t - q := by
    rcases abs_eq_abs.mp hdistance with h | h <;> linarith
  -- The third is nearer to the middle than the two are.
  have hnearer : |q - r| < |q - s| := by
    rw [abs_of_pos (by linarith : 0 < q - s), abs_lt]
    constructor <;> linarith
  exact absurd (hs.preferred r hr hsr.ne').distance_le (not_le.mpr hnearer)

/-- There is no choice about what is nearest. -/
theorem unique (hs : Nearest q s) (ht : Nearest q t) : s = t :=
  Nat.le_antisymm (Nat.le_of_not_lt (ht.not_lt hs)) (Nat.le_of_not_lt (hs.not_lt ht))

/-- Less than half a step is nothing. -/
theorem zero (hq : 0 ≤ q) (hhalf : q < 1 / 2) : Nearest q 0 := by
  refine ⟨⟨0, 0, by norm_num⟩, fun t _ ht => .inl ?_⟩
  have hone : (1 : ℚ) ≤ t := Nat.one_le_cast.mpr (Nat.pos_of_ne_zero ht)
  rw [Nat.cast_zero, sub_zero, abs_of_nonneg hq, abs_of_neg (by linarith)]
  linarith

/-- What is at least as large as a count is not rounded below it. -/
theorem le (h : Nearest q s) (ht : Representable t) (hle : (t : ℚ) ≤ q) : t ≤ s := by
  by_contra hlt
  exact (h.preferred t ht (not_le.mp hlt).ne').not_lt_of_le hle (not_le.mp hlt)

end Nearest

/-- A carry into a new digit leaves zeros behind. -/
theorem representable_mul {m : ℕ} (hm : m ≤ 2 ^ 53) (k : ℕ) : Representable (m * 2 ^ k) := by
  rcases lt_or_eq_of_le hm with hlt | rfl
  · exact ⟨m, k, hlt, rfl⟩
  · exact ⟨2 ^ 52, k + 1, by norm_num, by ring⟩

theorem endsEven_mul {m : ℕ} (hm : m ≤ 2 ^ 53) (heven : m % 2 = 0) (k : ℕ) :
    EndsEven (m * 2 ^ k) := by
  obtain ⟨m, rfl⟩ := Nat.dvd_of_mod_eq_zero heven
  rcases lt_or_eq_of_le (by omega : m ≤ 2 ^ 52) with hlt | rfl
  · exact ⟨m, k, hlt, rfl⟩
  · exact ⟨2 ^ 51, k + 1, by norm_num, by ring⟩

theorem limit_pos : 0 < limit := by decide +kernel

theorem representable_limit : Representable limit := ⟨1, 2098, by norm_num, by decide +kernel⟩

/-- On a coarse grid lies every count but small ones. -/
theorem Representable.on_grid {t : ℕ} (ht : Representable t) (k : ℕ) :
    (∃ m, t = m * 2 ^ k) ∨ 0 < k ∧ t < 2 ^ 52 * 2 ^ k := by
  obtain ⟨m, j, hm, rfl⟩ := ht
  rcases Nat.lt_or_ge j k with hjk | hkj
  · right
    refine ⟨by omega, ?_⟩
    calc m * 2 ^ j
      _ < 2 ^ 53 * 2 ^ j := Nat.mul_lt_mul_of_pos_right hm (Nat.two_pow_pos j)
      _ = 2 ^ 52 * 2 ^ (j + 1) := by ring
      _ ≤ 2 ^ 52 * 2 ^ k := Nat.mul_le_mul_left _ (Nat.pow_le_pow_right two_pos hjk)
  · obtain ⟨i, rfl⟩ := Nat.exists_eq_add_of_le hkj
    exact .inl ⟨m * 2 ^ i, by ring⟩

/-- Rounding to a grid is right where the grid is fine enough for 53 digits and no finer. -/
theorem nearest_on_grid {n d k : ℕ} (hd : 0 < d) (hupper : n ≤ 2 ^ 53 * (d * 2 ^ k))
    (hlower : 0 < k → 2 ^ 52 * 2 ^ k * d ≤ n) :
    Nearest (n / d) (roundHalfEven n (d * 2 ^ k) * 2 ^ k) := by
  have hk : 0 < 2 ^ k := Nat.two_pow_pos k
  have hbound := roundHalfEven_le (Nat.mul_pos hd hk) hupper
  have hmultiple (t : ℕ) (ht : t ≠ roundHalfEven n (d * 2 ^ k)) :=
    preferred_multiple n hd hk ht
  generalize roundHalfEven n (d * 2 ^ k) = r at *
  refine ⟨representable_mul hbound k, fun t ht hne => ?_⟩
  rcases ht.on_grid k with ⟨m, rfl⟩ | ⟨hpos, hsmall⟩
  · rcases hmultiple m (fun h => hne (by rw [h])) with h | ⟨h, heven⟩
    · exact .inl h
    · exact .inr ⟨h, endsEven_mul hbound heven k⟩
  · -- A number off the grid lies below a number on it that lies below the quotient.
    have hedge : ((2 ^ 52 * 2 ^ k : ℕ) : ℚ) ≤ n / d := by
      rw [le_div_iff₀ (Nat.cast_pos.mpr hd)]
      exact_mod_cast hlower hpos
    have hcast : (t : ℚ) < (2 ^ 52 * 2 ^ k : ℕ) := Nat.cast_lt.mpr hsmall
    have hle : |(n / d : ℚ) - (r * 2 ^ k : ℕ)| ≤ |(n / d : ℚ) - (2 ^ 52 * 2 ^ k : ℕ)| := by
      by_cases hr : 2 ^ 52 = r
      · rw [hr]
      · exact (hmultiple (2 ^ 52) hr).distance_le
    have hbelow : |(n / d : ℚ) - (2 ^ 52 * 2 ^ k : ℕ)| < |(n / d : ℚ) - t| := by
      rw [abs_of_nonneg (sub_nonneg.mpr hedge), abs_of_pos (sub_pos.mpr (hcast.trans_le hedge))]
      exact sub_lt_sub_left hcast _
    exact .inl (hle.trans_lt hbelow)

theorem nearest_roundSteps (n : ℕ) {d : ℕ} (hd : 0 < d) : Nearest (n / d) (roundSteps n d) := by
  have hlog : n / d < 2 ^ ((n / d).log2 + 1) := Nat.lt_log2_self
  apply nearest_on_grid hd
  · have hgrid : 2 ^ ((n / d).log2 + 1) ≤ 2 ^ (53 + ((n / d).log2 - 52)) :=
      Nat.pow_le_pow_right two_pos (by omega)
    have hlt := (Nat.div_lt_iff_lt_mul hd).mp (hlog.trans_le hgrid)
    calc n
      _ ≤ 2 ^ (53 + ((n / d).log2 - 52)) * d := hlt.le
      _ = 2 ^ 53 * (d * 2 ^ ((n / d).log2 - 52)) := by ring
  · intro hk
    have hne : n / d ≠ 0 := by
      intro h
      rw [h] at hk
      simp at hk
    have hpower : 2 ^ 52 * 2 ^ ((n / d).log2 - 52) = 2 ^ (n / d).log2 := by
      rw [← pow_add]
      congr 1
      omega
    rw [hpower]
    exact (Nat.le_div_iff_mul_le hd).mp (Nat.log2_self_le hne)

theorem exists_nearest {q : ℚ} (hq : 0 ≤ q) : ∃ steps, Nearest q steps := by
  obtain ⟨n, hn⟩ := Int.eq_ofNat_of_zero_le (Rat.num_nonneg.mpr hq)
  have h := nearest_roundSteps n q.den_pos
  rw [← Int.cast_natCast n, ← hn, Rat.num_div_den] at h
  exact ⟨_, h⟩

/-- A sign fits a number. Both fit zero. -/
def IsSignOf (negative : Bool) (q : ℚ) : Prop := if negative then q ≤ 0 else 0 ≤ q

/-- A rational number is rounded to nearest, ties to even, and is infinite if that is too much. -/
inductive RoundsTo (q : ℚ) : Binary64 → Prop
  | finite {negative : Bool} {steps : ℕ} : IsSignOf negative q → Nearest (|q| * unit) steps →
      steps < limit → RoundsTo q (.finite negative steps)
  | infinite {negative : Bool} {steps : ℕ} : IsSignOf negative q → Nearest (|q| * unit) steps →
      limit ≤ steps → RoundsTo q (.infinite negative)

theorem eq_zero_of_isSignOf {q : ℚ} {a b : Bool} (ha : IsSignOf a q) (hb : IsSignOf b q)
    (hab : a ≠ b) : q = 0 := by
  cases a <;> cases b
  · exact absurd rfl hab
  · exact le_antisymm hb ha
  · exact le_antisymm ha hb
  · exact absurd rfl hab

/-- Both signs fit zero only, and zero is rounded to zero. -/
theorem signed_eq_of_isSignOf {q : ℚ} {a b : Bool} {steps : ℕ} (ha : IsSignOf a q)
    (hb : IsSignOf b q) (hsteps : Nearest (|q| * unit) steps) :
    signed a steps = signed b steps := by
  by_cases hab : a = b
  · rw [hab]
  · have hzero : Nearest (|q| * unit) 0 := by
      rw [eq_zero_of_isSignOf ha hb hab, abs_zero, zero_mul]
      exact .zero le_rfl (by norm_num)
    rw [hsteps.unique hzero]
    cases a <;> cases b <;> rfl

/-- There is no choice about the value that a number is rounded to. -/
theorem RoundsTo.rational?_eq {q : ℚ} {x y : Binary64} (hx : RoundsTo q x) (hy : RoundsTo q y) :
    x.rational? = y.rational? := by
  cases hx with
  | finite ha hs hfits =>
    cases hy with
    | finite hb ht =>
      obtain rfl := hs.unique ht
      rw [rational?, rational?, signed_eq_of_isSignOf ha hb hs]
    | infinite hb ht hlarge =>
      rw [hs.unique ht] at hfits
      omega
  | infinite ha hs hlarge =>
    cases hy with
    | finite hb ht hfits =>
      rw [hs.unique ht] at hlarge
      omega
    | infinite hb ht => rfl

theorem RoundsTo.ne_nan {q : ℚ} {x : Binary64} (h : RoundsTo q x) : x ≠ .nan := by
  rintro rfl
  cases h

theorem RoundsTo.isFinite_eq_false_iff {q : ℚ} {x : Binary64} (h : RoundsTo q x) :
    x.isFinite = false ↔ ∃ negative, x = .infinite negative := by
  cases h with
  | finite => simp [isFinite]
  | infinite => simp [isFinite]

theorem roundsTo_ofRatio {negative : Bool} {n d : ℕ} (hd : 0 < d) {q : ℚ}
    (hsign : IsSignOf negative q) (hq : |q| = n / d) : RoundsTo q (ofRatio negative n d) := by
  have hnearest : Nearest (|q| * unit) (roundSteps (n * unit) d) := by
    have h := nearest_roundSteps (n * unit) hd
    rwa [Nat.cast_mul, mul_div_right_comm, ← hq] at h
  rw [ofRatio]
  split
  · rename_i hfits
    exact .finite hsign hnearest hfits
  · rename_i hlarge
    exact .infinite hsign hnearest (Nat.le_of_not_lt hlarge)

theorem roundsTo_ofInt (z : ℤ) : RoundsTo z (ofInt z) := by
  apply roundsTo_ofRatio one_pos
  · by_cases hz : z < 0
    · simp [IsSignOf, hz, hz.le]
    · simp [IsSignOf, hz, not_lt.mp hz]
  · rw [Nat.cast_one, div_one, Nat.cast_natAbs, Int.cast_abs]

end Binary64

namespace Decimal

/-- The number that a decimal stands for. -/
def value (d : Decimal) : ℚ := d.digits * 10 ^ d.exponent

/-- The number that a decimal stands for behind a sign. -/
def signedValue (negative : Bool) (d : Decimal) : ℚ := if negative then -d.value else d.value

theorem value_nonneg (d : Decimal) : 0 ≤ d.value :=
  mul_nonneg (Nat.cast_nonneg _) (zpow_nonneg (by norm_num) _)

theorem abs_signedValue (negative : Bool) (d : Decimal) : |d.signedValue negative| = d.value := by
  cases negative <;> simp [signedValue, abs_of_nonneg d.value_nonneg]

theorem isSignOf_signedValue (negative : Bool) (d : Decimal) :
    Binary64.IsSignOf negative (d.signedValue negative) := by
  cases negative <;> simp [Binary64.IsSignOf, signedValue, d.value_nonneg]

theorem width_pos (n : ℕ) : 0 < width n := List.length_pos_of_ne_nil Nat.toDigits_ne_nil

theorem lt_pow_width (n : ℕ) : n < 10 ^ width n :=
  (Nat.length_toDigits_le_iff (by decide) (width_pos n)).mp le_rfl

theorem pow_width_le {n : ℕ} (hn : n ≠ 0) : 10 ^ width n ≤ 10 * n := by
  obtain ⟨k, hk⟩ := Nat.exists_eq_succ_of_ne_zero (width_pos n).ne'
  have hle : 10 ^ k ≤ n := by
    by_contra hlt
    rcases Nat.eq_zero_or_pos k with rfl | hpos
    · omega
    · have hshort : width n ≤ k :=
        (Nat.length_toDigits_le_iff (by decide) hpos).mpr (not_le.mp hlt)
      omega
  rw [hk, Nat.succ_eq_add_one, pow_succ]
  omega

/-- A decimal is below the power of ten that its magnitude names. -/
theorem value_lt (d : Decimal) : d.value < 10 ^ (width d.digits + d.exponent) := by
  rw [zpow_add₀ (by norm_num), zpow_natCast, value]
  refine mul_lt_mul_of_pos_right ?_ (zpow_pos (by norm_num) _)
  exact_mod_cast lt_pow_width d.digits

/-- It is not below a tenth of that power. -/
theorem le_value {d : Decimal} (h : d.digits ≠ 0) :
    (10 : ℚ) ^ (width d.digits + d.exponent) ≤ 10 * d.value := by
  rw [zpow_add₀ (by norm_num), zpow_natCast, value, ← mul_assoc]
  refine mul_le_mul_of_nonneg_right ?_ (zpow_nonneg (by norm_num) _)
  exact_mod_cast pow_width_le h

theorem cast_tens (k : ℕ) : ((Nat.pow 10 k : ℕ) : ℚ) = 10 ^ (k : ℤ) := by
  rw [Nat.pow_eq, Nat.cast_pow, zpow_natCast, Nat.cast_ofNat]

/-- A magnitude so small is less than half a step. -/
theorem nearest_zero_of_small {d : Decimal} {k : ℕ} (hk : 2 * Binary64.unit ≤ Nat.pow 10 k)
    (h : d.digits = 0 ∨ width d.digits + d.exponent < -k) :
    Binary64.Nearest (d.value * Binary64.unit) 0 := by
  have hunit : (0 : ℚ) < Binary64.unit := Nat.cast_pos.mpr Binary64.unit_pos
  apply Binary64.Nearest.zero (mul_nonneg d.value_nonneg hunit.le)
  rcases h with hzero | hsmall
  · rw [value, hzero, Nat.cast_zero, zero_mul, zero_mul]
    norm_num
  · have hhalf : 2 * (Binary64.unit : ℚ) ≤ 10 ^ (k : ℤ) := by
      rw [← cast_tens]
      exact_mod_cast hk
    have hpower : (0 : ℚ) < 10 ^ (-k : ℤ) := zpow_pos (by norm_num) _
    calc d.value * Binary64.unit
      _ < 10 ^ (-k : ℤ) * Binary64.unit := by
        refine mul_lt_mul_of_pos_right (d.value_lt.trans ?_) hunit
        exact zpow_lt_zpow_right₀ (by norm_num) hsmall
      _ ≤ 10 ^ (-k : ℤ) * (10 ^ (k : ℤ) / 2) :=
        mul_le_mul_of_nonneg_left (by linarith) hpower.le
      _ = 1 / 2 := by rw [← mul_div_assoc, ← zpow_add₀ (by norm_num), neg_add_cancel, zpow_zero]

/-- A magnitude so large is beyond all finite numbers. -/
theorem limit_le_of_large {d : Decimal} {k : ℕ}
    (hk : 10 * Binary64.limit ≤ Nat.pow 10 k * Binary64.unit) (hne : d.digits ≠ 0)
    (h : k < width d.digits + d.exponent) : (Binary64.limit : ℚ) ≤ d.value * Binary64.unit := by
  have hlimit : 10 * (Binary64.limit : ℚ) ≤ 10 ^ (k : ℤ) * Binary64.unit := by
    rw [← cast_tens]
    exact_mod_cast hk
  have hvalue : (10 : ℚ) ^ (k : ℤ) ≤ 10 * d.value :=
    (zpow_le_zpow_right₀ (by norm_num) h.le).trans (le_value hne)
  have hscaled := mul_le_mul_of_nonneg_right hvalue (Nat.cast_nonneg Binary64.unit)
  rw [mul_assoc] at hscaled
  linarith

theorem roundsTo_toBinary64 (negative : Bool) (d : Decimal) :
    Binary64.RoundsTo (d.signedValue negative) (d.toBinary64 negative) := by
  have hsign := isSignOf_signedValue negative d
  have habs := abs_signedValue negative d
  unfold toBinary64
  dsimp only
  split
  · rename_i hsmall
    have hsteps := nearest_zero_of_small (k := 400) (by decide +kernel) hsmall
    rw [← habs] at hsteps
    exact .finite hsign hsteps Binary64.limit_pos
  split
  · rename_i hsmall hlarge
    have hne : d.digits ≠ 0 := fun h => hsmall (.inl h)
    have hvalue := limit_le_of_large (k := 400) (by decide +kernel) hne hlarge
    obtain ⟨steps, hsteps⟩ := Binary64.exists_nearest ((Nat.cast_nonneg _).trans hvalue)
    have hle := hsteps.le Binary64.representable_limit hvalue
    rw [← habs] at hsteps
    exact .infinite hsign hsteps hle
  split
  · rename_i hexponent
    obtain ⟨k, hk⟩ := Int.eq_ofNat_of_zero_le hexponent
    apply Binary64.roundsTo_ofRatio one_pos hsign
    rw [habs, value, hk]
    simp
  · rename_i hexponent
    obtain ⟨k, hk⟩ := Int.exists_eq_neg_ofNat (not_le.mp hexponent).le
    apply Binary64.roundsTo_ofRatio (Nat.pow_pos (by norm_num)) hsign
    rw [habs, value, hk]
    simp [div_eq_mul_inv]

end Decimal

end Cartosheet
