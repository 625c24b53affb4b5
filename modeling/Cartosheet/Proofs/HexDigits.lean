import Cartosheet.Hex
import Mathlib.Data.List.Forall2

namespace Cartosheet.Hex

/-- A digit of ASCII in either case. -/
def IsDigit (c : Char) : Prop :=
  ('0' ≤ c ∧ c ≤ '9') ∨ ('a' ≤ c ∧ c ≤ 'f') ∨ ('A' ≤ c ∧ c ≤ 'F')

variable {c : Char} {n : Nat}

theorem isDigit_iff_toNat : IsDigit c ↔ (48 ≤ c.toNat ∧ c.toNat ≤ 57) ∨
    (97 ≤ c.toNat ∧ c.toNat ≤ 102) ∨ (65 ≤ c.toNat ∧ c.toNat ≤ 70) := Iff.rfl

/-- The three runs of digits by their codes. -/
theorem value?_cases (h : value? c = some n) :
    (48 ≤ c.toNat ∧ c.toNat ≤ 57 ∧ n = c.toNat - 48) ∨
      (97 ≤ c.toNat ∧ c.toNat ≤ 102 ∧ n = c.toNat - 87) ∨
      (65 ≤ c.toNat ∧ c.toNat ≤ 70 ∧ n = c.toNat - 55) := by
  unfold value? at h
  split at h
  · rename_i hrange
    exact .inl ⟨hrange.1, hrange.2, (Option.some.inj h).symm⟩
  split at h
  · rename_i hrange
    exact .inr (.inl ⟨hrange.1, hrange.2, (Option.some.inj h).symm⟩)
  split at h
  · rename_i hrange
    exact .inr (.inr ⟨hrange.1, hrange.2, (Option.some.inj h).symm⟩)
  · cases h

theorem exists_value?_iff : (∃ n, value? c = some n) ↔ IsDigit c := by
  constructor
  · rintro ⟨n, hn⟩
    have := value?_cases hn
    rw [isDigit_iff_toNat]
    omega
  · intro h
    unfold value?
    split
    · exact ⟨_, rfl⟩
    split
    · exact ⟨_, rfl⟩
    split
    · exact ⟨_, rfl⟩
    · rcases h with h | h | h <;> contradiction

theorem IsDigit.isDigit (h : IsDigit c) : isDigit c = true := by
  obtain ⟨n, hn⟩ := exists_value?_iff.mpr h
  rw [Hex.isDigit, hn]
  rfl

theorem value?_lt (h : value? c = some n) : n < 16 := by
  have := value?_cases h
  omega

theorem toLower_eq_ofNat (hlow : 65 ≤ c.toNat) (hhigh : c.toNat ≤ 90) :
    c.toLower = Char.ofNat (c.toNat + 32) := by
  have hupper : c.val ≥ 'A'.val ∧ c.val ≤ 'Z'.val := ⟨hlow, hhigh⟩
  have hlower : c.toLower.toNat = c.toNat + 32 := by
    have hval : c.toLower.val = c.val + 32 := congrArg Char.val (dif_pos hupper)
    change c.toLower.val.toNat = _
    rw [hval, UInt32.toNat_add]
    change (c.toNat + 32) % 4294967296 = _
    omega
  rw [← hlower, Char.ofNat_toNat]

/-- Writing the value of a digit gives the digit back in lower case. -/
theorem digit_of_value? (h : value? c = some n) : digit n = c.toLower := by
  have hlower (hc : ¬(65 ≤ c.toNat ∧ c.toNat ≤ 90)) : c.toLower = c := dif_neg hc
  unfold digit
  rcases value?_cases h with ⟨hlow, hhigh, rfl⟩ | ⟨hlow, hhigh, rfl⟩ | ⟨hlow, hhigh, rfl⟩
  · have hcode : 48 + (c.toNat - 48) = c.toNat := by omega
    rw [if_pos (by omega), hcode, Char.ofNat_toNat, hlower (by omega)]
  · have hcode : 87 + (c.toNat - 87) = c.toNat := by omega
    rw [if_neg (by omega), hcode, Char.ofNat_toNat, hlower (by omega)]
  · have hcode : 87 + (c.toNat - 55) = c.toNat + 32 := by omega
    rw [if_neg (by omega), hcode, toLower_eq_ofNat hlow (by omega)]

theorem value?_digit (h : n < 16) : value? (digit n) = some n := by
  have hall : (List.range 16).all (fun n => value? (digit n) = some n) = true := rfl
  exact of_decide_eq_true (List.all_eq_true.mp hall n (List.mem_range.mpr h))

theorem mapM_value?_eq_some_iff {cs : List Char} {ns : List Nat} :
    cs.mapM value? = some ns ↔ List.Forall₂ (fun c n => value? c = some n) cs ns := by
  induction cs generalizing ns with
  | nil => simp [eq_comm]
  | cons c cs ih =>
    simp only [List.mapM_cons, Option.bind_eq_bind, Option.bind_eq_some_iff, ih,
      List.forall₂_cons_left_iff, Option.pure_def, Option.some.injEq]
    constructor
    · rintro ⟨n, hn, ns, hns, rfl⟩
      exact ⟨n, ns, hn, hns, rfl⟩
    · rintro ⟨n, ns, hn, hns, rfl⟩
      exact ⟨n, hn, ns, hns, rfl⟩

end Cartosheet.Hex
