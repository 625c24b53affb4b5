import Cartosheet.Attribute

namespace Cartosheet

theorem roundHalfEven_of_dvd {n d : Nat} (hd : 0 < d) (h : d ∣ n) : roundHalfEven n d = n / d := by
  rw [roundHalfEven, Nat.mod_eq_zero_of_dvd h, if_pos hd]

namespace Binary64

theorem unit_eq_pow : ∃ k, unit = Nat.pow 2 k := ⟨1074, by decide +kernel⟩

theorem unit_pos : 0 < unit := by decide +kernel

theorem mul_unit_le_limit : Nat.pow 2 53 * unit ≤ limit := by decide +kernel

/-- Of 53 binary digits none is lost, however many zeros follow. -/
theorem spacing_dvd_pow {n : Nat} (h : n < Nat.pow 2 53) (k : Nat) :
    spacing (n * Nat.pow 2 k) ∣ Nat.pow 2 k := by
  refine Nat.pow_dvd_pow 2 ?_
  by_cases hn : n = 0
  · simp [hn]
  · have hk : 0 < Nat.pow 2 k := Nat.two_pow_pos k
    have hlt : n * Nat.pow 2 k < Nat.pow 2 53 * Nat.pow 2 k := Nat.mul_lt_mul_of_pos_right h hk
    rw [Nat.pow_eq, Nat.pow_eq, ← Nat.pow_add] at hlt
    have := (Nat.log2_lt (Nat.mul_ne_zero hn (Nat.ne_of_gt hk))).mpr hlt
    omega

/-- Whole numbers below 2^53 are exact. -/
theorem ofRatio_one (negative : Bool) {n : Nat} (h : n < Nat.pow 2 53) :
    ofRatio negative n 1 = .finite negative (n * unit) := by
  have hgap : 0 < spacing (n * unit) := Nat.two_pow_pos _
  have hdvd : spacing (n * unit) ∣ n * unit := by
    obtain ⟨k, hk⟩ := unit_eq_pow
    rw [hk]
    exact Nat.dvd_mul_left_of_dvd (spacing_dvd_pow h k) n
  have hround : roundSteps (n * unit) 1 = n * unit := by
    rw [roundSteps, Nat.div_one, Nat.one_mul, roundHalfEven_of_dvd hgap hdvd,
      Nat.div_mul_cancel hdvd]
  have hlimit : n * unit < limit :=
    Nat.lt_of_lt_of_le (Nat.mul_lt_mul_of_pos_right h unit_pos) mul_unit_le_limit
  rw [ofRatio, hround, if_pos hlimit]

theorem ofInt_natCast {n : Nat} (h : n < Nat.pow 2 53) : ofInt n = .finite false (n * unit) := by
  have hsign : decide ((n : Int) < 0) = false := by simp
  rw [ofInt, hsign, Int.natAbs_natCast, ofRatio_one false h]

/-- Rounding goes at most one step of its grid up. -/
theorem roundSteps_le (n : Nat) : roundSteps n 1 ≤ 2 * n := by
  have hgap : 0 < spacing n := Nat.two_pow_pos _
  have hround : roundHalfEven n (spacing n) ≤ n / spacing n + 1 := by
    unfold roundHalfEven
    dsimp only
    split
    · omega
    split <;> omega
  rw [roundSteps, Nat.div_one, Nat.one_mul]
  by_cases hn : n = 0
  · subst hn
    have hzero : roundHalfEven 0 (spacing 0) = 0 := by
      rw [roundHalfEven_of_dvd hgap (Nat.dvd_zero _), Nat.zero_div]
    simp [hzero]
  · have hle : spacing n ≤ n :=
      Nat.le_trans (Nat.pow_le_pow_right (by decide) (Nat.sub_le _ _)) (Nat.log2_self_le hn)
    calc roundHalfEven n (spacing n) * spacing n
      _ ≤ (n / spacing n + 1) * spacing n := Nat.mul_le_mul_right _ hround
      _ = n / spacing n * spacing n + spacing n := Nat.succ_mul _ _
      _ ≤ n + n := Nat.add_le_add (Nat.div_mul_le_self _ _) hle
      _ = 2 * n := (Nat.two_mul n).symm

/-- No integer of 64 bits is too large to be a finite number. -/
theorem isFinite_ofInt {z : Int} (h : z.natAbs < Nat.pow 2 64) : (ofInt z).isFinite = true := by
  have hlimit : 2 * (Nat.pow 2 64 * unit) ≤ limit := by decide +kernel
  have hsmall := Nat.mul_lt_mul_of_pos_right h unit_pos
  have hsteps := roundSteps_le (z.natAbs * unit)
  have hfits : roundSteps (z.natAbs * unit) 1 < limit := by omega
  rw [ofInt, ofRatio, if_pos hfits]
  rfl

/-- Finite numbers compare as their steps do. -/
theorem compare?_of_place? {x y : Binary64} {v w : Int} (hx : x.place? = some (0, v))
    (hy : y.place? = some (0, w)) : x.compare? y = some (compare v w) := by
  simp [compare?, hx, hy]

end Binary64

namespace Operator

/-- The relation on whole numbers that the operator is written for. -/
def Relates : Operator → Int → Int → Prop
  | less, v, w => v < w
  | atMost, v, w => v ≤ w
  | equal, v, w => v = w
  | unequal, v, w => v ≠ w
  | atLeast, v, w => w ≤ v
  | greater, v, w => w < v

theorem holds_compare_iff (op : Operator) (v w : Int) :
    op.holds (some (compare v w)) = true ↔ op.Relates v w := by
  cases op <;>
    simp only [holds, Relates, Option.some.injEq, Bool.or_eq_true, decide_eq_true_eq, ne_eq,
      Int.compare_eq_lt, Int.compare_eq_eq, Int.compare_eq_gt] <;>
    omega

/-- Between finite numbers an operator compares steps. -/
theorem evaluate_iff (op : Operator) {x y : Binary64} {v w : Int}
    (hx : x.place? = some (0, v)) (hy : y.place? = some (0, w)) :
    op.evaluate x y = true ↔ op.Relates v w := by
  rw [evaluate, Binary64.compare?_of_place? hx hy, holds_compare_iff]

end Operator

/-- What lies between two finite numbers is finite. -/
theorem Binary64.place?_of_between {x : Binary64} {m n : Nat}
    (hm : Operator.atMost.evaluate (.finite false m) x = true)
    (hn : Operator.less.evaluate x (.finite false n) = true) :
    ∃ v : Int, x.place? = some (0, v) ∧ m ≤ v ∧ v < n := by
  cases x with
  | nan => cases hm
  | infinite negative =>
    cases negative with
    | false => cases hn
    | true => cases hm
  | finite negative steps =>
    exact ⟨_, rfl, (Operator.evaluate_iff .atMost rfl rfl).mp hm,
      (Operator.evaluate_iff .less rfl rfl).mp hn⟩

end Cartosheet
