import Cartosheet.Proofs.NumberLine
import Cartosheet.Selector.Zoom

namespace Cartosheet

namespace Zoom

/-- The steps of entry `k` of the bounds, none past their end. -/
def edge (k : Nat) : Nat := bounds[k]?.getD 0 * Binary64.unit

theorem bounds_descending : bounds.Pairwise (· > ·) := by decide

/-- Bounds fall as the level rises. -/
theorem edge_le_edge {k m : Nat} (h : k ≤ m) : edge m ≤ edge k := by
  refine Nat.mul_le_mul_right _ ?_
  by_cases hm : m < bounds.length
  · rcases Nat.eq_or_lt_of_le h with rfl | hlt
    · exact Nat.le_refl _
    · have hk := Nat.lt_trans hlt hm
      rw [List.getElem?_eq_getElem hm, List.getElem?_eq_getElem hk]
      exact Nat.le_of_lt (List.pairwise_iff_getElem.mp bounds_descending k m hk hm hlt)
  · rw [List.getElem?_eq_none (Nat.le_of_not_lt hm)]
    exact Nat.zero_le _

/-- A level has its band between two neighbouring bounds. -/
theorem band?_eq {n : Nat} (h₁ : 1 ≤ n) (h₂ : n ≤ 22) :
    band? n = some ⟨.finite false (edge n), .finite false (edge (n - 1))⟩ := by
  obtain ⟨k, rfl⟩ := Nat.exists_eq_add_of_le' h₁
  have hk : k + 1 < bounds.length := Nat.lt_of_le_of_lt h₂ (by decide)
  have hsmall : ∀ b ∈ bounds, b < Nat.pow 2 53 := by decide
  have hexact {i : Nat} (hi : i < bounds.length) :
      Binary64.ofInt (bounds[i] : Nat) = .finite false (edge i) := by
    rw [Binary64.ofInt_natCast (hsmall _ (List.getElem_mem hi)), edge,
      List.getElem?_eq_getElem hi, Option.getD_some]
  have hk' := Nat.lt_of_succ_lt hk
  rw [band?, List.getElem?_eq_getElem hk, List.getElem?_eq_getElem hk', Nat.add_sub_cancel,
    ← hexact hk, ← hexact hk']

/-- The scale lies in the band of the level, counted in steps. -/
structure InBand (level : Nat) (scale : Binary64) (v : Int) : Prop where
  place : scale.place? = some (0, v)
  low : edge level ≤ v
  high : v < edge (level - 1)

section

variable {level : Nat} {scale : Binary64} {v : Int}

/-- Which bounds a scale has reached tells its level. -/
theorem InBand.edge_le_iff (h : InBand level scale v) (k : Nat) :
    (edge k : Int) ≤ v ↔ level ≤ k := by
  have hlow := h.low
  have hhigh := h.high
  rcases Nat.lt_or_ge k level with hk | hk
  · have := edge_le_edge (Nat.le_sub_one_of_lt hk)
    omega
  · have := edge_le_edge hk
    omega

theorem InBand.atLeast_iff (h : InBand level scale v) (k : Nat) :
    (scaleTest .atLeast (.finite false (edge k))).inRange scale = true ↔ level ≤ k := by
  rw [← h.edge_le_iff]
  exact Operator.evaluate_iff .atLeast h.place rfl

theorem InBand.less_iff (h : InBand level scale v) (k : Nat) :
    (scaleTest .less (.finite false (edge k))).inRange scale = true ↔ k < level := by
  rw [← Nat.not_le, ← h.edge_le_iff, Int.not_le]
  exact Operator.evaluate_iff .less h.place rfl

end

/-- The shorthand test holds of the level: `zoom op n` when `level op n`. -/
def HoldsAt (level : Nat) (t : Test) : Prop :=
  ∃ x n, t.value = .number x ∧ x.whole? = some n ∧ t.operator.Relates level n

theorem level?_eq_some {value : Scalar} {n : Nat} (h : level? value = some n) :
    ∃ x, value = .number x ∧ x.whole? = some (n : Int) ∧ 1 ≤ n ∧ n ≤ 22 := by
  cases value with
  | string => cases h
  | number x =>
    simp only [level?, Scalar.number?, Option.bind_some] at h
    cases hx : x.whole? with
    | none => simp [hx] at h
    | some z =>
      simp only [hx, Option.ite_none_right_eq_some, Option.some.injEq] at h
      obtain ⟨hz, rfl⟩ := h
      exact ⟨x, rfl, by rw [hx, Int.toNat_of_nonneg (by omega)], by omega, by omega⟩

/-- An expansion that succeeds stems from a test on a level. -/
theorem expand_eq_ok {t u : Test} {extra : List Test} (h : expand true t = .ok (u, extra)) :
    ∃ (x : Binary64) (n : Nat), t.value = .number x ∧ x.whole? = some (n : Int) ∧ 1 ≤ n ∧
      replace t.operator ⟨.finite false (edge n), .finite false (edge (n - 1))⟩ =
        .ok (u, extra) := by
  rw [expand, if_pos rfl] at h
  cases hv : level? t.value with
  | none => simp [hv] at h
  | some n =>
    obtain ⟨x, hx, hw, h₁, h₂⟩ := level?_eq_some hv
    rw [hv, Option.bind_some, band?_eq h₁ h₂] at h
    exact ⟨x, n, hx, hw, h₁, h⟩

section

variable {mercator : Bool} {t u : Test} {ts extra : List Test}

theorem expandAll_ok (hs : isShorthand t = true) (he : expand mercator t = .ok (u, extra)) :
    expandAll mercator (t :: ts) =
      ⟨u :: (expandAll mercator ts).inPlace, extra ++ (expandAll mercator ts).appended,
        (expandAll mercator ts).fault⟩ := by
  simp [expandAll, hs, he]

theorem expandAll_error {f : SelectorFault} (hs : isShorthand t = true)
    (he : expand mercator t = .error f) : expandAll mercator (t :: ts) = ⟨t :: ts, [], some f⟩ := by
  simp [expandAll, hs, he]

theorem expandAll_other (hs : isShorthand t = false) :
    expandAll mercator (t :: ts) =
      ⟨t :: (expandAll mercator ts).inPlace, (expandAll mercator ts).appended,
        (expandAll mercator ts).fault⟩ := by
  simp [expandAll, hs]

end

theorem Expansion.tests_of_fault {r : Expansion} (h : r.fault = none) :
    r.tests = r.inPlace ++ r.appended := by
  simp [tests, h]

/-- Of the tests given, those on the scale admit it. -/
def Admits (scale : Binary64) (ts : List Test) : Prop :=
  ∀ t ∈ ts, t.isMapScaled = true → t.inRange scale = true

section

variable {level : Nat} {scale : Binary64} {v : Int}

@[simp] theorem admits_nil : Admits scale [] := by simp [Admits]

@[simp] theorem admits_cons {t : Test} {ts : List Test} :
    Admits scale (t :: ts) ↔ (t.isMapScaled = true → t.inRange scale = true) ∧ Admits scale ts := by
  simp [Admits]

@[simp] theorem admits_append {ts us : List Test} :
    Admits scale (ts ++ us) ↔ Admits scale ts ∧ Admits scale us := by
  simp only [Admits, List.forall_mem_append]

@[simp] theorem isMapScaled_scaleTest (op : Operator) (x : Binary64) :
    (scaleTest op x).isMapScaled = true := by
  simp [scaleTest, Test.isMapScaled]

theorem isMapScaled_of_isShorthand {t : Test} (h : isShorthand t = true) :
    t.isMapScaled = false := by
  have hp : t.property = property := of_decide_eq_true h
  rw [Test.isMapScaled, hp]
  decide

/-- What one shorthand test becomes. Each operator turns round at the bound that keeps its level on
the right side. -/
theorem admits_expand_iff {t u : Test} {extra : List Test} (h : expand true t = .ok (u, extra))
    (hb : InBand level scale v) : Admits scale (u :: extra) ↔ HoldsAt level t := by
  obtain ⟨x, n, hx, hw, hn, hr⟩ := expand_eq_ok h
  have hholds : HoldsAt level t ↔ t.operator.Relates level n := by
    simp [HoldsAt, hx, hw]
  rw [hholds]
  cases hop : t.operator <;> rw [hop, replace] at hr <;> cases hr <;>
    simp only [admits_cons, admits_nil, isMapScaled_scaleTest, forall_const, and_true,
      hb.atLeast_iff, hb.less_iff, Operator.Relates] <;>
    omega

/-- The tests of an expansion without fault admit a scale of the level exactly when the shorthand
tests hold of the level and the tests on the scale admit it. -/
theorem admits_expandAll_iff {ts : List Test} (h : (expandAll true ts).fault = none)
    (hb : InBand level scale v) :
    Admits scale ((expandAll true ts).inPlace ++ (expandAll true ts).appended) ↔
      (∀ t ∈ ts, isShorthand t = true → HoldsAt level t) ∧ Admits scale ts := by
  induction ts with
  | nil => simp [expandAll]
  | cons t ts ih =>
    rw [List.forall_mem_cons, admits_cons]
    cases hs : isShorthand t with
    | true =>
      cases he : expand true t with
      | error f =>
        rw [expandAll_error hs he] at h
        cases h
      | ok r =>
        obtain ⟨u, extra⟩ := r
        rw [expandAll_ok hs he] at h ⊢
        have hu := admits_expand_iff he hb
        have hrest := ih h
        rw [admits_cons] at hu
        rw [admits_append] at hrest
        simp only [List.cons_append, admits_cons, admits_append, isMapScaled_of_isShorthand hs,
          ← hu]
        grind
    | false =>
      rw [expandAll_other hs] at h ⊢
      have hrest := ih h
      rw [admits_append] at hrest
      simp only [List.cons_append, admits_cons, admits_append]
      grind

end

end Zoom

namespace Selector

open Zoom

theorem forall_mapScaleTests (s : Selector) (scale : Binary64) :
    (∀ t ∈ s.mapScaleTests, t.inRange scale = true) ↔ Admits scale s.tests := by
  simp only [mapScaleTests, Admits, List.mem_filter, and_imp]

/-- A level has a band, and at each scale of it the converted tests on the scale all admit the scale
exactly when every shorthand test holds of the level and every test on the scale admits it. -/
theorem convertZoom_meaning (s : Selector) (h : (s.convertZoom true).2 = none) (level : Nat)
    (h₁ : 1 ≤ level) (h₂ : level ≤ 22) :
    ∃ b, band? level = some b ∧ ∀ scale, Operator.atMost.evaluate b.low scale = true →
      Operator.less.evaluate scale b.high = true →
        ((∀ t ∈ (s.convertZoom true).1.mapScaleTests, t.inRange scale = true) ↔
          (∀ t ∈ s.tests, isShorthand t = true → HoldsAt level t) ∧
            ∀ t ∈ s.mapScaleTests, t.inRange scale = true) := by
  refine ⟨_, band?_eq h₁ h₂, ?_⟩
  intro scale hlow hhigh
  obtain ⟨v, hv, hl, hh⟩ := Binary64.place?_of_between hlow hhigh
  have hb : InBand level scale v := ⟨hv, hl, hh⟩
  have htests : (s.convertZoom true).1.tests =
      (expandAll true s.tests).inPlace ++ (expandAll true s.tests).appended :=
    Expansion.tests_of_fault h
  rw [forall_mapScaleTests, forall_mapScaleTests, htests]
  exact admits_expandAll_iff h hb

/-- Shorthand of two kinds beside a test on the scale and one on another attribute. -/
theorem convertZoom_meaning_layer :
    let s : Selector :=
      ⟨⟨[.tag "Layer"],
        [⟨"zoom", .atLeast, .number (.ofInt 10)⟩, ⟨"highway", .equal, .string "primary"⟩,
          ⟨"zoom", .equal, .number (.ofInt 11)⟩,
          ⟨"scale-denominator", .atLeast, .number (.ofInt 250000)⟩]⟩, none⟩
    (s.convertZoom true).2 = none ∧
      ∃ b, band? 11 = some b ∧ ∀ scale, Operator.atMost.evaluate b.low scale = true →
        Operator.less.evaluate scale b.high = true →
          ((∀ t ∈ (s.convertZoom true).1.mapScaleTests, t.inRange scale = true) ↔
            (∀ t ∈ s.tests, isShorthand t = true → HoldsAt 11 t) ∧
              ∀ t ∈ s.mapScaleTests, t.inRange scale = true) := by
  intro s
  have hf : (s.convertZoom true).2 = none := by decide +kernel
  exact ⟨hf, convertZoom_meaning s hf 11 (by decide) (by decide)⟩

end Selector

end Cartosheet
