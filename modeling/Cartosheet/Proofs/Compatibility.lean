import Cartosheet.Attribute.Compatible
import Cartosheet.Proofs.NumberLine
import Mathlib.Algebra.Order.Field.Basic
import Mathlib.Algebra.Order.Field.Rat
import Mathlib.Order.Compare
import Mathlib.Tactic.Linarith

namespace Cartosheet

/-- The ways to compare with two things, of which the first compares with the second as given. -/
def placings : Ordering → List (Ordering × Ordering)
  | .lt => [(.lt, .lt), (.eq, .lt), (.gt, .lt), (.gt, .eq), (.gt, .gt)]
  | .eq => [(.lt, .lt), (.eq, .eq), (.gt, .gt)]
  | .gt => [(.lt, .lt), (.lt, .eq), (.lt, .gt), (.eq, .gt), (.gt, .gt)]

theorem mem_placings_swap {o p q : Ordering} :
    (p, q) ∈ placings o.swap ↔ (q, p) ∈ placings o := by
  cases o <;> cases p <;> cases q <;> simp [placings]

/-- In a linear order nothing else can happen. -/
theorem mem_placings {α : Type} (cmp : α → α → Ordering) [Std.TransCmp cmp] (v a b : α) :
    (cmp v a, cmp v b) ∈ placings (cmp a b) := by
  have hless {a b : α} (hab : cmp a b = .lt) : (cmp v a, cmp v b) ∈ placings .lt := by
    cases hva : cmp v a with
    | lt => simp [placings, Std.TransCmp.lt_trans hva hab]
    | eq => simp [placings, Std.TransCmp.congr_left hva, hab]
    | gt => cases cmp v b <;> simp [placings]
  cases hab : cmp a b with
  | lt => exact hless hab
  | eq =>
    rw [Std.TransCmp.congr_right hab]
    cases cmp v b <;> simp [placings]
  | gt =>
    rw [← mem_placings_swap]
    exact hless (Std.OrientedCmp.lt_of_gt hab)

/-- The rational numbers are dense and have no end, so all of it does happen. -/
theorem exists_placing (a b : ℚ) {p q : Ordering} (h : (p, q) ∈ placings (compare a b)) :
    ∃ r : ℚ, compare r a = p ∧ compare r b = q := by
  have hless {a b : ℚ} {p q : Ordering} (hab : a < b) (h : (p, q) ∈ placings .lt) :
      ∃ r : ℚ, compare r a = p ∧ compare r b = q := by
    simp only [placings, List.mem_cons, List.not_mem_nil, or_false, Prod.mk.injEq] at h
    rcases h with ⟨rfl, rfl⟩ | ⟨rfl, rfl⟩ | ⟨rfl, rfl⟩ | ⟨rfl, rfl⟩ | ⟨rfl, rfl⟩
    · exact ⟨a - 1, compare_lt_iff_lt.mpr (by linarith), compare_lt_iff_lt.mpr (by linarith)⟩
    · exact ⟨a, compare_eq_iff_eq.mpr rfl, compare_lt_iff_lt.mpr hab⟩
    · obtain ⟨r, har, hrb⟩ := exists_between hab
      exact ⟨r, compare_gt_iff_gt.mpr har, compare_lt_iff_lt.mpr hrb⟩
    · exact ⟨b, compare_gt_iff_gt.mpr hab, compare_eq_iff_eq.mpr rfl⟩
    · exact ⟨b + 1, compare_gt_iff_gt.mpr (by linarith), compare_gt_iff_gt.mpr (by linarith)⟩
  rcases lt_trichotomy a b with hab | rfl | hab
  · rw [compare_lt_iff_lt.mpr hab] at h
    exact hless hab h
  · rw [compare_eq_iff_eq.mpr rfl] at h
    simp only [placings, List.mem_cons, List.not_mem_nil, or_false, Prod.mk.injEq] at h
    rcases h with ⟨rfl, rfl⟩ | ⟨rfl, rfl⟩ | ⟨rfl, rfl⟩
    · have hbelow : compare (a - 1) a = .lt := compare_lt_iff_lt.mpr (by linarith)
      exact ⟨a - 1, hbelow, hbelow⟩
    · exact ⟨a, compare_eq_iff_eq.mpr rfl, compare_eq_iff_eq.mpr rfl⟩
    · have habove : compare (a + 1) a = .gt := compare_gt_iff_gt.mpr (by linarith)
      exact ⟨a + 1, habove, habove⟩
  · rw [compare_gt_iff_gt.mpr hab] at h
    obtain ⟨r, hb, ha⟩ := hless hab (mem_placings_swap.mpr h)
    exact ⟨r, ha, hb⟩

/-- What a value compares as with two others that compare as given: one of the placings, or neither
of them compares with it. -/
def Placed (o : Ordering) : Option Ordering → Option Ordering → Prop
  | some p, some q => (p, q) ∈ placings o
  | none, none => True
  | _, _ => False

namespace Operator

/-- Two operators hold together in some placing. -/
def meet (op op' : Operator) (o : Ordering) : Bool :=
  (placings o).any fun p => op.holds (some p.1) && op'.holds (some p.2)

theorem meet_iff {op op' : Operator} {o : Ordering} :
    op.meet op' o = true ↔
      ∃ p q, (p, q) ∈ placings o ∧ op.holds (some p) = true ∧ op'.holds (some q) = true := by
  simp [meet]

theorem eq_unequal_of_holds_none {op : Operator} (h : op.holds none = true) : op = .unequal := by
  cases op with
  | unequal => rfl
  | _ => cases h

/-- Where both operators hold of a value they meet. A value that compares with neither side is no
exception, since two inequalities always meet. -/
theorem meet_of_placed {op op' : Operator} {o : Ordering} {p q : Option Ordering}
    (h : Placed o p q) (hp : op.holds p = true) (hq : op'.holds q = true) :
    op.meet op' o = true := by
  cases p with
  | some p =>
    cases q with
    | some q => exact meet_iff.mpr ⟨p, q, h, hp, hq⟩
    | none => cases h
  | none =>
    cases q with
    | some q => cases h
    | none =>
      rw [eq_unequal_of_holds_none hp, eq_unequal_of_holds_none hq]
      cases o <;> rfl

end Operator

namespace Binary64

/-- Places compare first by the end of the line, then by steps. -/
abbrev comparePlaces : Int × Int → Int × Int → Ordering :=
  compareLex (compareOn Prod.fst) (compareOn Prod.snd)

theorem compare?_places {x y : Binary64} {p q : Int × Int} (hx : x.place? = some p)
    (hy : y.place? = some q) : x.compare? y = some (comparePlaces p q) := by
  simp only [compare?, hx, hy]
  rfl

/-- Numbers that compare have places. -/
theorem place?_of_compare? {x y : Binary64} {o : Ordering} (h : x.compare? y = some o) :
    ∃ p q, x.place? = some p ∧ y.place? = some q ∧ comparePlaces p q = o := by
  cases hx : x.place? with
  | none => simp [compare?, hx] at h
  | some p =>
    cases hy : y.place? with
    | none => simp [compare?, hx, hy] at h
    | some q =>
      rw [compare?_places hx hy] at h
      exact ⟨p, q, rfl, rfl, Option.some.inj h⟩

theorem placed {x y : Binary64} {o : Ordering} (h : x.compare? y = some o) (v : Binary64) :
    Placed o (v.compare? x) (v.compare? y) := by
  obtain ⟨p, q, hx, hy, rfl⟩ := place?_of_compare? h
  cases hv : v.place? with
  | none =>
    simp only [compare?, hv]
    trivial
  | some r =>
    rw [compare?_places hv hx, compare?_places hv hy]
    exact mem_placings comparePlaces r p q

theorem compare?_swap {x y : Binary64} {o : Ordering} (h : x.compare? y = some o) :
    y.compare? x = some o.swap := by
  obtain ⟨p, q, hx, hy, rfl⟩ := place?_of_compare? h
  have hswap : comparePlaces q p = (comparePlaces p q).swap := Std.OrientedCmp.eq_swap
  rw [compare?_places hy hx, hswap]

theorem compare?_self {x y : Binary64} {o : Ordering} (h : x.compare? y = some o) :
    x.compare? x = some .eq := by
  obtain ⟨p, q, hx, -, -⟩ := place?_of_compare? h
  have hself : comparePlaces p p = .eq := Std.ReflCmp.compare_self
  rw [compare?_places hx hx, hself]

/-- The value of a finite number. -/
def rational? : Binary64 → Option ℚ
  | finite negative steps => some (signed negative steps / unit)
  | _ => none

theorem rational?_of_isFinite {x : Binary64} (h : x.isFinite = true) :
    ∃ r, x.rational? = some r := by
  cases x with
  | nan => cases h
  | infinite => cases h
  | finite negative steps => exact ⟨_, rfl⟩

/-- Finite numbers compare as their values do. -/
theorem compare?_of_rational? {x y : Binary64} {a b : ℚ} (hx : x.rational? = some a)
    (hy : y.rational? = some b) : x.compare? y = some (compare a b) := by
  have hunit : (0 : ℚ) < unit := Nat.cast_pos.mpr unit_pos
  have hscale (v w : Int) : compare v w = compare ((v : ℚ) / unit) ((w : ℚ) / unit) := by
    have hless {v w : Int} (h : v < w) : (v : ℚ) / unit < w / unit :=
      div_lt_div_of_pos_right (Int.cast_lt.mpr h) hunit
    rcases lt_trichotomy v w with h | rfl | h
    · rw [compare_lt_iff_lt.mpr h, compare_lt_iff_lt.mpr (hless h)]
    · rw [compare_eq_iff_eq.mpr rfl, compare_eq_iff_eq.mpr rfl]
    · rw [compare_gt_iff_gt.mpr h, compare_gt_iff_gt.mpr (hless h)]
  cases x with
  | nan => cases hx
  | infinite => cases hx
  | finite negative steps =>
    cases y with
    | nan => cases hy
    | infinite => cases hy
    | finite negative' steps' =>
      cases hx
      cases hy
      rw [compare?_of_place? rfl rfl, hscale]

end Binary64

namespace Scalar

variable {x y : Scalar} {o : Ordering}

/-- Values that compare are two numbers or two strings, and a third value is of their kind or
compares with neither. -/
theorem placed (h : x.compare? y = some o) (v : Scalar) :
    Placed o (v.compare? x) (v.compare? y) := by
  cases x with
  | number x =>
    cases y with
    | string t => cases h
    | number y =>
      cases v with
      | number v => exact Binary64.placed h v
      | string v => trivial
  | string s =>
    cases y with
    | number y => cases h
    | string t =>
      cases v with
      | number v => trivial
      | string v =>
        cases h
        exact mem_placings compare v s t

theorem compare?_swap (h : x.compare? y = some o) : y.compare? x = some o.swap := by
  cases x with
  | number x =>
    cases y with
    | number y => exact Binary64.compare?_swap h
    | string t => cases h
  | string s =>
    cases y with
    | number y => cases h
    | string t =>
      cases h
      exact congrArg some Std.OrientedCmp.eq_swap

theorem compare?_self (h : x.compare? y = some o) : x.compare? x = some .eq := by
  cases x with
  | number x =>
    cases y with
    | number y => exact Binary64.compare?_self h
    | string t => cases h
  | string s => exact congrArg some Std.ReflCmp.compare_self

end Scalar

theorem Admitted.overlaps_comm (a b : Admitted) : a.overlaps b = b.overlaps a := by
  cases a with
  | allBut hole => cases b <;> rfl
  | interval lower upper =>
    cases b with
    | allBut hole => rfl
    | interval lower' upper' => exact Bool.and_comm _ _

namespace Test

/-- The test holds of a value: the value compares with that of the test as the operator asks. -/
def holdsOf (t : Test) (v : Scalar) : Bool := t.operator.holds (v.compare? t.value)

/-- A test on a finite number holds of a rational number, compared by value. -/
def HoldsOfRational (t : Test) (q : ℚ) : Prop :=
  ∃ x r, t.value = .number x ∧ x.rational? = some r ∧ t.operator.holds (some (compare q r)) = true

/-- Where the values do not compare nothing is known. -/
theorem overlaps_of_incomparable {t u : Test} (h : t.value.compare? u.value = none) :
    t.admitted.overlaps u.admitted = true := by
  have hback : u.value.compare? t.value = none := by
    cases hc : u.value.compare? t.value with
    | none => rfl
    | some o =>
      rw [Scalar.compare?_swap hc] at h
      cases h
  unfold admitted
  cases t.operator <;> cases u.operator <;>
    simp [Admitted.overlaps, Admitted.isPoint, Bound.exceeds, Bound.edge?, h, hback]

/-- Where the values compare, what the tests admit overlaps exactly if the operators meet. -/
theorem overlaps_eq_meet {t u : Test} {o : Ordering} (h : t.value.compare? u.value = some o) :
    t.admitted.overlaps u.admitted = t.operator.meet u.operator o := by
  have hback : u.value.compare? t.value = some o.swap := Scalar.compare?_swap h
  have ht : t.value.compare? t.value = some .eq := Scalar.compare?_self h
  have hu : u.value.compare? u.value = some .eq := Scalar.compare?_self hback
  unfold admitted
  -- one case for each pair of operators and each way the values compare
  cases t.operator <;> cases u.operator <;>
    simp only [Admitted.overlaps, Admitted.isPoint, Bound.exceeds, Bound.edge?, h, hback, ht,
      hu] <;>
    cases o <;> rfl

/-- A value of which both tests hold lies in what both admit. -/
theorem overlaps_of_holdsOf {t u : Test} {v : Scalar} (ht : t.holdsOf v = true)
    (hu : u.holdsOf v = true) : t.admitted.overlaps u.admitted = true := by
  cases h : t.value.compare? u.value with
  | none => exact overlaps_of_incomparable h
  | some o =>
    rw [overlaps_eq_meet h]
    exact Operator.meet_of_placed (Scalar.placed h v) ht hu

/-- Between finite numbers an overlap holds a rational number. -/
theorem overlaps_iff_rational {t u : Test} {x y : Binary64} (ht : t.value = .number x)
    (hu : u.value = .number y) (hx : x.isFinite = true) (hy : y.isFinite = true) :
    t.admitted.overlaps u.admitted = true ↔ ∃ q, t.HoldsOfRational q ∧ u.HoldsOfRational q := by
  obtain ⟨a, ha⟩ := Binary64.rational?_of_isFinite hx
  obtain ⟨b, hb⟩ := Binary64.rational?_of_isFinite hy
  have hcompare : t.value.compare? u.value = some (compare a b) := by
    rw [ht, hu]
    exact Binary64.compare?_of_rational? ha hb
  have hleft (q : ℚ) : t.HoldsOfRational q ↔ t.operator.holds (some (compare q a)) = true := by
    simp [HoldsOfRational, ht, ha]
  have hright (q : ℚ) : u.HoldsOfRational q ↔ u.operator.holds (some (compare q b)) = true := by
    simp [HoldsOfRational, hu, hb]
  simp only [overlaps_eq_meet hcompare, Operator.meet_iff, hleft, hright]
  constructor
  · rintro ⟨p, r, hplacing, hp, hr⟩
    obtain ⟨q, rfl, rfl⟩ := exists_placing a b hplacing
    exact ⟨q, hp, hr⟩
  · rintro ⟨q, hp, hr⟩
    exact ⟨_, _, mem_placings compare q a b, hp, hr⟩

theorem isCompatible_singleton (t u : Test) :
    t.isCompatible [u] = true ↔
      (t.property = u.property → t.admitted.overlaps u.admitted = true) := by
  by_cases h : u.property = t.property
  · simp [isCompatible, h]
  · simp [isCompatible, h, Ne.symm h]

theorem isCompatible_eq_false {t u : Test} :
    t.isCompatible [u] = false ↔
      t.property = u.property ∧ t.admitted.overlaps u.admitted = false := by
  rw [← Bool.not_eq_true, isCompatible_singleton, Classical.not_imp, Bool.not_eq_true]

theorem isCompatible_comm (t u : Test) : t.isCompatible [u] = u.isCompatible [t] := by
  rw [Bool.eq_iff_iff, isCompatible_singleton, isCompatible_singleton, Admitted.overlaps_comm,
    eq_comm (a := t.property)]

/-- Each test of the list counts alone. -/
theorem isCompatible_iff_forall (t : Test) (others : List Test) :
    t.isCompatible others = true ↔ ∀ w ∈ others, t.isCompatible [w] = true := by
  simp only [isCompatible_singleton, eq_comm (a := t.property)]
  simp only [isCompatible, List.all_eq_true, List.mem_filter, decide_eq_true_eq, and_imp]

/-- Compatibility is symmetric and a matter of single tests. Tests that are not compatible are on
one property and no value satisfies both; if their values are finite numbers, they are incompatible
exactly if no rational number does. -/
theorem isCompatible_exact (t u : Test) (others : List Test) :
    t.isCompatible [u] = u.isCompatible [t] ∧
      (t.isCompatible others = true ↔ ∀ w ∈ others, t.isCompatible [w] = true) ∧
      (t.isCompatible [u] = false →
        t.property = u.property ∧ ∀ v, ¬(t.holdsOf v = true ∧ u.holdsOf v = true)) ∧
      ∀ x y : Binary64, t.property = u.property → t.value = .number x → u.value = .number y →
        x.isFinite = true → y.isFinite = true →
          (t.isCompatible [u] = false ↔ ¬∃ q : ℚ, t.HoldsOfRational q ∧ u.HoldsOfRational q) := by
  refine ⟨isCompatible_comm t u, isCompatible_iff_forall t others, ?_, ?_⟩
  · intro h
    obtain ⟨hproperty, hapart⟩ := isCompatible_eq_false.mp h
    refine ⟨hproperty, ?_⟩
    rintro v ⟨ht, hu⟩
    rw [overlaps_of_holdsOf ht hu] at hapart
    cases hapart
  · intro x y hproperty ht hu hx hy
    rw [isCompatible_eq_false, ← overlaps_iff_rational ht hu hx hy, Bool.not_eq_true]
    exact and_iff_right hproperty

/-- Two ranges that meet at an end which one of them leaves out. -/
theorem isCompatible_exact_width :
    let t : Test := ⟨"width", .less, .number (.ofInt 5)⟩
    let u : Test := ⟨"width", .atLeast, .number (.ofInt 5)⟩
    t.isCompatible [u] = false ∧ (∀ v, ¬(t.holdsOf v = true ∧ u.holdsOf v = true)) ∧
      ¬∃ q : ℚ, t.HoldsOfRational q ∧ u.HoldsOfRational q := by
  intro t u
  have hapart : t.isCompatible [u] = false := by decide +kernel
  have hfinite : (Binary64.ofInt 5).isFinite = true := Binary64.isFinite_ofInt (by decide)
  obtain ⟨-, -, hsound, hnumbers⟩ := isCompatible_exact t u []
  have hrational := hnumbers (.ofInt 5) (.ofInt 5) rfl rfl rfl hfinite hfinite
  exact ⟨hapart, (hsound hapart).2, hrational.mp hapart⟩

end Test

end Cartosheet
