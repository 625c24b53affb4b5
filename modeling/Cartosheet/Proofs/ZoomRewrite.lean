import Cartosheet.Proofs.Projection

namespace Cartosheet

namespace Zoom

/-- The test compares with a level: a whole number between 1 and 22. -/
def OnLevel (t : Test) (n : Nat) : Prop :=
  ∃ x, t.value = .number x ∧ x.whole? = some (n : Int) ∧ 1 ≤ n ∧ n ≤ 22

/-- The comparison with the scale that a comparison with a level turns into. -/
inductive Turns (b : Band) : Operator → Operator → Binary64 → Prop
  | equal : Turns b .equal .atLeast b.low
  | less : Turns b .less .atLeast b.high
  | atMost : Turns b .atMost .atLeast b.low
  | atLeast : Turns b .atLeast .less b.high
  | greater : Turns b .greater .less b.low

/-- What a test becomes in its place. -/
inductive Becomes : Test → Test → Prop
  | same {t : Test} : isShorthand t = false → Becomes t t
  | scaled {t : Test} {n : Nat} {b : Band} {op : Operator} {x : Binary64} :
      isShorthand t = true → OnLevel t n → band? n = some b → Turns b t.operator op x →
      Becomes t ⟨Test.scaleDenominator, op, .number x⟩

/-- A shorthand test `zoom = n`. -/
def isExact (t : Test) : Bool := isShorthand t && t.operator = .equal

/-- The upper bound that an equality with a level asks for besides. -/
inductive Caps : Test → Test → Prop
  | mk {t : Test} {n : Nat} {b : Band} : OnLevel t n → band? n = some b →
      Caps t ⟨Test.scaleDenominator, .less, .number b.high⟩

/-- A shorthand test that has no expansion, and why. -/
inductive Refused : Test → SelectorFault → Prop
  | level {t : Test} : isShorthand t = true → (∀ n, ¬OnLevel t n) →
      Refused t (.invalidZoom t.value.text)
  | inequality {t : Test} {n : Nat} : isShorthand t = true → OnLevel t n →
      t.operator = .unequal → Refused t .zoomInequality

theorem level?_eq_some_iff {t : Test} {n : Nat} : level? t.value = some n ↔ OnLevel t n := by
  constructor
  · exact level?_eq_some
  · rintro ⟨x, hx, hw, h₁, h₂⟩
    have hbounds : 1 ≤ (n : Int) ∧ (n : Int) ≤ 22 := by omega
    simp [level?, hx, Scalar.number?, hw, hbounds]

theorem expand_of_level {t : Test} {n : Nat} (h : OnLevel t n) :
    ∃ b, band? n = some b ∧ expand true t = replace t.operator b := by
  have hlevel : level? t.value = some n := level?_eq_some_iff.mpr h
  obtain ⟨x, -, -, h₁, h₂⟩ := h
  refine ⟨_, band?_eq h₁ h₂, ?_⟩
  rw [expand, if_pos rfl, hlevel, Option.bind_some, band?_eq h₁ h₂]

theorem expand_of_no_level {t : Test} (h : ∀ n, ¬OnLevel t n) :
    expand true t = .error (.invalidZoom t.value.text) := by
  have hlevel : level? t.value = none := by
    apply Option.eq_none_iff_forall_ne_some.mpr
    intro n hn
    exact h n (level?_eq_some_iff.mp hn)
  rw [expand, if_pos rfl, hlevel, Option.bind_none]

theorem Refused.shorthand {t : Test} {f : SelectorFault} (h : Refused t f) :
    isShorthand t = true := by
  cases h with
  | level hs => exact hs
  | inequality hs => exact hs

theorem Refused.expand {t : Test} {f : SelectorFault} (h : Refused t f) :
    expand true t = .error f := by
  cases h with
  | level _ hlevel => exact expand_of_no_level hlevel
  | inequality _ hlevel hop =>
    obtain ⟨b, -, hexpand⟩ := expand_of_level hlevel
    rw [hexpand, hop]
    rfl

/-- A shorthand test that is not refused has its expansion: one test in its place, and one to append
if it is an equality. -/
theorem expand_of_not_refused {t : Test} (hs : isShorthand t = true) (h : ∀ f, ¬Refused t f) :
    ∃ u extra, expand true t = .ok (u, extra) ∧ Becomes t u ∧
      List.Forall₂ Caps ([t].filter isExact) extra := by
  by_cases hlevel : ∃ n, OnLevel t n
  · obtain ⟨n, hn⟩ := hlevel
    obtain ⟨b, hb, hexpand⟩ := expand_of_level hn
    have hturns {op : Operator} {x : Binary64} (hturn : Turns b t.operator op x) :
        Becomes t (scaleTest op x) := .scaled hs hn hb hturn
    rw [hexpand]
    cases hop : t.operator with
    | unequal => exact absurd (Refused.inequality hs hn hop) (h _)
    | equal =>
      have hcaps : Caps t (scaleTest .less b.high) := .mk hn hb
      exact ⟨_, _, rfl, hturns (hop ▸ .equal), by simpa [isExact, hs, hop] using hcaps⟩
    | less => exact ⟨_, _, rfl, hturns (hop ▸ .less), by simp [isExact, hop]⟩
    | atMost => exact ⟨_, _, rfl, hturns (hop ▸ .atMost), by simp [isExact, hop]⟩
    | atLeast => exact ⟨_, _, rfl, hturns (hop ▸ .atLeast), by simp [isExact, hop]⟩
    | greater => exact ⟨_, _, rfl, hturns (hop ▸ .greater), by simp [isExact, hop]⟩
  · exact absurd (Refused.level hs (by simpa using hlevel)) (h _)

section

variable {mercator : Bool} {ts : List Test}

/-- A list that goes through without fault leaves the rest to be expanded as if it stood alone. -/
theorem expandAll_append (us : List Test) (h : (expandAll mercator ts).fault = none) :
    expandAll mercator (ts ++ us) =
      ⟨(expandAll mercator ts).inPlace ++ (expandAll mercator us).inPlace,
        (expandAll mercator ts).appended ++ (expandAll mercator us).appended,
        (expandAll mercator us).fault⟩ := by
  induction ts with
  | nil => rfl
  | cons t ts ih =>
    rw [List.cons_append]
    cases hs : isShorthand t with
    | false =>
      rw [expandAll_other hs] at h
      rw [expandAll_other hs, expandAll_other hs, ih h]
      rfl
    | true =>
      cases he : expand mercator t with
      | error f =>
        rw [expandAll_error hs he] at h
        cases h
      | ok r =>
        obtain ⟨u, extra⟩ := r
        rw [expandAll_ok hs he] at h
        rw [expandAll_ok hs he, expandAll_ok hs he, ih h, List.append_assoc]
        rfl

/-- If no test is refused, all are replaced and every equality adds its bound. -/
theorem expandAll_of_not_refused (h : ∀ t ∈ ts, ∀ f, ¬Refused t f) :
    (expandAll true ts).fault = none ∧
      List.Forall₂ Becomes ts (expandAll true ts).inPlace ∧
      List.Forall₂ Caps (ts.filter isExact) (expandAll true ts).appended := by
  induction ts with
  | nil => exact ⟨rfl, .nil, .nil⟩
  | cons t ts ih =>
    obtain ⟨hfault, hplaces, hcaps⟩ := ih fun u hu => h u (List.mem_cons_of_mem t hu)
    cases hs : isShorthand t with
    | false =>
      have hexact : isExact t = false := by simp [isExact, hs]
      rw [expandAll_other hs, List.filter_cons_of_neg (by simp [hexact])]
      exact ⟨hfault, .cons (.same hs) hplaces, hcaps⟩
    | true =>
      obtain ⟨u, extra, he, hbecomes, hextra⟩ := expand_of_not_refused hs (h t (by simp))
      have hsplit : (t :: ts).filter isExact = [t].filter isExact ++ ts.filter isExact :=
        List.filter_append [t] ts
      rw [expandAll_ok hs he, hsplit]
      exact ⟨hfault, .cons hbecomes hplaces, List.rel_append hextra hcaps⟩

theorem not_refused_of_fault (h : (expandAll true ts).fault = none) :
    ∀ t ∈ ts, ∀ f, ¬Refused t f := by
  induction ts with
  | nil => simp
  | cons t ts ih =>
    intro u hu f hf
    cases hs : isShorthand t with
    | false =>
      rw [expandAll_other hs] at h
      rcases List.mem_cons.mp hu with rfl | hu
      · rw [hf.shorthand] at hs
        cases hs
      · exact ih h u hu f hf
    | true =>
      cases he : expand true t with
      | error g =>
        rw [expandAll_error hs he] at h
        cases h
      | ok r =>
        rw [expandAll_ok hs he] at h
        rcases List.mem_cons.mp hu with rfl | hu
        · rw [hf.expand] at he
          cases he
        · exact ih h u hu f hf

/-- A test that is no shorthand keeps its value and its index. -/
theorem getElem?_inPlace {i : Nat} {t : Test} (h : ts[i]? = some t) (ht : isShorthand t = false) :
    (expandAll mercator ts).inPlace[i]? = some t := by
  induction ts generalizing i with
  | nil => simp at h
  | cons u ts ih =>
    cases hs : isShorthand u with
    | false =>
      rw [expandAll_other hs]
      cases i with
      | zero => exact h
      | succ i => exact ih h
    | true =>
      cases he : expand mercator u with
      | error f =>
        rw [expandAll_error hs he]
        exact h
      | ok r =>
        rw [expandAll_ok hs he]
        cases i with
        | zero =>
          cases h
          rw [ht] at hs
          cases hs
        | succ i => exact ih h

theorem getElem?_tests {i : Nat} {t : Test} (h : ts[i]? = some t) (ht : isShorthand t = false) :
    (expandAll mercator ts).tests[i]? = some t := by
  have hplace : (expandAll mercator ts).inPlace[i]? = some t := getElem?_inPlace h ht
  obtain ⟨hi, -⟩ := List.getElem?_eq_some_iff.mp hplace
  unfold Expansion.tests
  split
  · rw [List.getElem?_append_left hi, hplace]
  · exact hplace

/-- Under another projection nothing is replaced. -/
theorem inPlace_elsewhere (ts : List Test) : (expandAll false ts).inPlace = ts := by
  induction ts with
  | nil => rfl
  | cons t ts ih =>
    cases hs : isShorthand t with
    | true => rw [expandAll_error hs rfl]
    | false => rw [expandAll_other hs, ih]

theorem tests_elsewhere (ts : List Test) : (expandAll false ts).tests = ts := by
  cases hz : ts.any isShorthand with
  | false =>
    rw [expandAll_plain false hz]
    exact List.append_nil ts
  | true => simp [Expansion.tests, fault_expandAll hz, inPlace_elsewhere]

theorem fault_elsewhere (ts : List Test) :
    (expandAll false ts).fault = if ts.any isShorthand then some .notMercator else none := by
  split
  · rename_i hz
    exact fault_expandAll hz
  · rename_i hz
    rw [expandAll_plain false (by simpa using hz)]

/-- Without a fault there is one more test for every equality. -/
theorem length_tests (h : (expandAll mercator ts).fault = none) :
    (expandAll mercator ts).tests.length = ts.length + ts.countP isExact := by
  cases mercator with
  | true =>
    obtain ⟨-, hplaces, hcaps⟩ := expandAll_of_not_refused (not_refused_of_fault h)
    rw [Expansion.tests_of_fault h, List.length_append, ← hplaces.length_eq, ← hcaps.length_eq,
      List.countP_eq_length_filter]
  | false =>
    have hplain : ts.countP isExact = 0 := by
      rw [fault_elsewhere] at h
      simp only [ite_eq_right_iff, reduceCtorEq, imp_false, Bool.not_eq_true,
        List.any_eq_false] at h
      apply List.countP_eq_zero.mpr
      intro t ht
      simp [isExact, h t ht]
    rw [tests_elsewhere, hplain, Nat.add_zero]

end

/-- What a conversion promises of its result, whether it faults or not. -/
structure Rewriting (mercator : Bool) (s : Selector) (r : Selector × Option SelectorFault) :
    Prop where
  names : r.1.first.names = s.first.names
  descendant : r.1.descendant = s.descendant
  /-- A test that is no shorthand keeps its value and its index. -/
  kept : ∀ (i : Nat) (t : Test), s.tests[i]? = some t → isShorthand t = false →
    r.1.tests[i]? = some t
  /-- Under another projection nothing changes, and any shorthand is a fault. -/
  elsewhere : mercator = false →
    r = (s, if s.tests.any isShorthand then some .notMercator else none)
  /-- If no test is refused, every test is replaced in place and every equality adds its bound at
  the end, in order. -/
  whole : mercator = true → (∀ t ∈ s.tests, ∀ f, ¬Refused t f) →
    r.2 = none ∧ (∃ inPlace added, r.1.tests = inPlace ++ added ∧
      List.Forall₂ Becomes s.tests inPlace ∧ List.Forall₂ Caps (s.tests.filter isExact) added) ∧
    r.1.tests.length = s.tests.length + s.tests.countP isExact
  /-- The first test refused gives the fault; those before it are replaced, the rest is left and
  nothing is added. -/
  halted : mercator = true → ∀ before t after f, s.tests = before ++ t :: after →
    (∀ u ∈ before, ∀ g, ¬Refused u g) → Refused t f →
    r.2 = some f ∧ ∃ inPlace, r.1.tests = inPlace ++ t :: after ∧
      List.Forall₂ Becomes before inPlace
  /-- After success no shorthand is left, and to convert again changes nothing. -/
  settled : r.2 = none → (∀ t ∈ r.1.tests, isShorthand t = false) ∧
    ∀ again, r.1.convertZoom again = (r.1, none)

theorem tests_of_refused {before : List Test} {t : Test} {f : SelectorFault} (after : List Test)
    (hbefore : ∀ u ∈ before, ∀ g, ¬Refused u g) (ht : Refused t f) :
    (expandAll true (before ++ t :: after)).fault = some f ∧
      ∃ inPlace, (expandAll true (before ++ t :: after)).tests = inPlace ++ t :: after ∧
        List.Forall₂ Becomes before inPlace := by
  obtain ⟨hfault, hplaces, -⟩ := expandAll_of_not_refused hbefore
  rw [expandAll_append (t :: after) hfault, expandAll_error ht.shorthand ht.expand]
  exact ⟨rfl, _, rfl, hplaces⟩

/-- Without shorthand there is nothing to convert. -/
theorem convertZoom_again {s : Selector} (h : ∀ t ∈ s.tests, isShorthand t = false)
    (mercator : Bool) : s.convertZoom mercator = (s, none) := by
  have hplain : s.tests.any isShorthand = false := List.any_eq_false.mpr (by simpa using h)
  rw [Selector.convertZoom, expandAll_plain mercator hplain]
  simp [Expansion.tests, Selector.tests]

end Zoom

open Zoom in
/-- The conversion does exactly its rewriting. -/
theorem Selector.convertZoom_rewriting (mercator : Bool) (s : Selector) :
    Rewriting mercator s (s.convertZoom mercator) where
  names := rfl
  descendant := rfl
  kept _ _ hi ht := getElem?_tests hi ht
  elsewhere := by
    rintro rfl
    rw [convertZoom, tests_elsewhere, fault_elsewhere]
    rfl
  whole := by
    rintro rfl h
    obtain ⟨hfault, hplaces, hcaps⟩ := expandAll_of_not_refused h
    exact ⟨hfault, ⟨_, _, Expansion.tests_of_fault hfault, hplaces, hcaps⟩, length_tests hfault⟩
  halted := by
    intro hm before t after f hsplit hbefore ht
    have h := tests_of_refused after hbefore ht
    rw [← hsplit, ← hm] at h
    exact h
  settled := by
    intro hfault
    have hplain : ∀ t ∈ (s.convertZoom mercator).1.tests, isShorthand t = false := by
      intro t ht
      have hx := expandAll_expanded hfault
      rw [← Expansion.tests_of_fault hfault] at hx
      exact decide_eq_false (hx t ht)
    exact ⟨hplain, convertZoom_again hplain⟩

open Zoom in
/-- A conversion that stops at its third test: the first is replaced, and nothing is added. -/
theorem Selector.convertZoom_rewriting_halted :
    let first : List Test :=
      [⟨"zoom", .equal, .number (.ofInt 10)⟩, ⟨"highway", .equal, .string "primary"⟩]
    let stop : Test := ⟨"zoom", .unequal, .number (.ofInt 3)⟩
    let rest : List Test := [⟨"zoom", .equal, .number (.ofInt 30)⟩]
    let s : Selector := ⟨⟨[.tag "Layer"], first ++ stop :: rest⟩, none⟩
    Refused stop .zoomInequality ∧ (s.convertZoom true).2 = some .zoomInequality ∧
      ∃ inPlace, (s.convertZoom true).1.tests = inPlace ++ stop :: rest ∧
        List.Forall₂ Becomes first inPlace := by
  intro first stop rest s
  have hlevel : OnLevel stop 3 := ⟨.ofInt 3, rfl, by decide +kernel, by omega, by omega⟩
  have hrefused : Refused stop .zoomInequality := .inequality rfl hlevel rfl
  have hfirst : ∀ t ∈ first, ∀ f, ¬Refused t f := not_refused_of_fault (by decide +kernel)
  have h := (convertZoom_rewriting true s).halted rfl first stop rest _ rfl hfirst hrefused
  exact ⟨hrefused, h⟩

end Cartosheet
