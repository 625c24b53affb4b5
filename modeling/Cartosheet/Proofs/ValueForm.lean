import Cartosheet.Proofs.AddressWrapper
import Cartosheet.Proofs.NumberLine
import Cartosheet.Value.Typing

namespace Cartosheet

/-- An integer of 64 bits. -/
def IsInteger64 (z : Int) : Prop := leastInteger ≤ z ∧ z ≤ greatestInteger

/-- A numeral is an integer of 64 bits or a finite number. -/
def Numeral.IsProper : Numeral → Prop
  | integer z => IsInteger64 z
  | float x => x.isFinite = true

/-- The values of a grammar. None are listed for a grammar that is not supported. -/
inductive Grammar.Gives : Grammar → Value → Prop
  | integer {z : Int} : IsInteger64 z → Gives .integer (.integer z)
  | float {x : Binary64} : x.isFinite = true → Gives .float (.float x)
  | string {s : String} : Gives .string (.string s)
  | color {c : Color} : Gives .color (.color c)
  | solid {c : Color} : Gives .colorOrTransparent (.color c)
  | transparent : Gives .colorOrTransparent .transparent
  | boolean {b : Bool} : Gives .boolean (.boolean b)
  | uri {address : String} : address ≠ "" → Gives .uri (.uri address)
  | keyword {allowed : List String} {word : String} : word ∈ allowed →
      Gives (.keyword allowed) (.keyword word)
  | numbers {ns : List Numeral} : ns ≠ [] → (∀ n ∈ ns, n.IsProper) →
      Gives .numberList (.numbers ns)

theorem isInteger64_of_text {text : String} {z : Int} (h : integerOfText? text = some z) :
    IsInteger64 z := by
  unfold integerOfText? at h
  dsimp only at h
  split at h
  · cases h
  · simp only [Option.ite_none_right_eq_some, Option.some.injEq] at h
    obtain ⟨hz, rfl⟩ := h
    exact hz

/-- Every integer of 64 bits is a finite number. -/
theorem IsInteger64.isFinite {z : Int} (h : IsInteger64 z) :
    (Binary64.ofInt z).isFinite = true := by
  obtain ⟨hl, hg⟩ := h
  apply Binary64.isFinite_ofInt
  have hbound : (Nat.pow 2 64 : Int) = 18446744073709551616 := by decide
  simp only [leastInteger, greatestInteger] at hl hg
  omega

namespace Numeral

/-- A numeral is the integer of the text, or the binary number where there is no integer. -/
theorem ofText?_eq_some {text : String} {n : Numeral} (h : ofText? text = some n) :
    (∃ z, integerOfText? text = some z ∧ n = .integer z) ∨
      ∃ x, integerOfText? text = none ∧ Binary64.ofText? text = some x ∧ x.isFinite = true ∧
        n = .float x := by
  unfold ofText? at h
  split at h
  · rename_i z hz
    cases h
    exact .inl ⟨z, hz, rfl⟩
  · rename_i hz
    split at h
    · rename_i x hx
      split at h
      · rename_i hfinite
        cases h
        exact .inr ⟨x, hz, hx, hfinite, rfl⟩
      · cases h
    · cases h

theorem isProper_of_text {text : String} {n : Numeral} (h : ofText? text = some n) :
    n.IsProper := by
  rcases ofText?_eq_some h with ⟨z, hz, rfl⟩ | ⟨x, -, -, hx, rfl⟩
  · exact isInteger64_of_text hz
  · exact hx

theorem IsProper.isFinite {n : Numeral} (h : n.IsProper) : n.toBinary64.isFinite = true := by
  cases n with
  | integer z => exact IsInteger64.isFinite h
  | float x => exact h

end Numeral

namespace Value

/-- A list of numbers has at least one, and each of them is proper. -/
theorem alternating?_proper {ts : List Token} {ns : List Numeral}
    (h : alternating? ts = some ns) : ns ≠ [] ∧ ∀ n ∈ ns, n.IsProper := by
  fun_induction alternating? ts generalizing ns with
  | case1 => cases h
  | case2 t =>
    obtain ⟨n, hn, rfl⟩ := Option.map_eq_some_iff.mp h
    refine ⟨by simp, ?_⟩
    intro m hm
    rw [List.mem_singleton.mp hm]
    exact Numeral.isProper_of_text hn
  | case3 => cases h
  | case4 t comma ts _ n ms hms hn ih =>
    cases h
    refine ⟨by simp, ?_⟩
    intro m hm
    rcases List.mem_cons.mp hm with rfl | hm
    · exact Numeral.isProper_of_text hn
    · exact (ih hms).2 m hm
  | case5 => cases h
  | case6 => cases h

theorem readColor_eq_ok {t : Token} {v : Value} (h : readColor t = .ok v) :
    ∃ c, v = .color c := by
  unfold readColor at h
  split at h
  · rename_i c _
    cases h
    exact ⟨c, rfl⟩
  · cases h

end Value

namespace Grammar

/-- One token gives a value of the grammar that reads it. -/
theorem gives_of_readSingle {g : Grammar} {t : Token} {v : Value} (h : g.readSingle t = .ok v) :
    g.Gives v := by
  cases g with
  | integer =>
    simp only [readSingle] at h
    split at h
    · cases h
    split at h
    · rename_i z hz
      cases h
      exact .integer (isInteger64_of_text hz)
    · cases h
  | float =>
    simp only [readSingle] at h
    split at h
    · cases h
    split at h
    · rename_i n hn
      cases h
      exact .float (Numeral.isProper_of_text hn).isFinite
    · cases h
  | string =>
    simp only [readSingle] at h
    split at h
    · cases h
    · cases h
      exact .string
  | color =>
    simp only [readSingle] at h
    split at h
    · cases h
    · obtain ⟨c, rfl⟩ := Value.readColor_eq_ok h
      exact .color
  | colorOrTransparent =>
    simp only [readSingle] at h
    split at h
    · cases h
      exact .transparent
    split at h
    · obtain ⟨c, rfl⟩ := Value.readColor_eq_ok h
      exact .solid
    · cases h
  | boolean =>
    simp only [readSingle] at h
    split at h
    · cases h
      exact .boolean
    split at h
    · cases h
      exact .boolean
    · cases h
  | uri =>
    simp only [readSingle] at h
    split at h
    · cases h
    split at h
    · rename_i a ha
      cases h
      exact .uri (Address.ofWrapper?_eq_some_iff.mp ha).1
    · cases h
  | keyword allowed =>
    simp only [readSingle] at h
    split at h
    · cases h
    split at h
    · rename_i hw
      cases h
      exact .keyword (by simpa using hw)
    · cases h
  | numberList => cases h
  | unsupported => cases h

/-- Tokens give a value of the grammar that reads them. -/
theorem gives_of_read {g : Grammar} {ts : List Token} {v : Value} (h : g.read ts = .ok v) :
    g.Gives v := by
  unfold read at h
  split at h
  · split at h
    · rename_i ns hns
      cases h
      obtain ⟨hne, hproper⟩ := Value.alternating?_proper hns
      exact .numbers hne hproper
    · cases h
  · cases h
  · split at h
    · exact gives_of_readSingle h
    · cases h

theorem Gives.supported {g : Grammar} {v : Value} (h : g.Gives v) : g ≠ .unsupported := by
  cases h <;> simp

end Grammar

end Cartosheet
