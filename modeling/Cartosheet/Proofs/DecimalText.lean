import Cartosheet.Decimal
import Cartosheet.Proofs.LexemeText
import Mathlib.Data.List.TakeWhile

namespace Cartosheet

namespace Decimal

/-- A sign, or nothing. -/
def IsSign (cs : List Char) : Prop := cs = [] ∨ cs = ['+'] ∨ cs = ['-']

/-- A whole number as it is written: a sign or none, and digits. -/
inductive Whole : List Char → Int → Prop
  | mk {sign digits : List Char} : IsSign sign → digits ≠ [] → (∀ c ∈ digits, c.isDigit = true) →
      Whole (sign ++ digits) (if sign = ['-'] then -(number digits : Int) else number digits)

/-- A point and the digits behind it, or nothing. The index is the digits. -/
inductive IsFraction : List Char → List Char → Prop
  | absent : IsFraction [] []
  | written {digits : List Char} : (∀ c ∈ digits, c.isDigit = true) →
      IsFraction ('.' :: digits) digits

/-- A power of ten, or nothing. The index is the exponent. -/
inductive IsPower : List Char → Int → Prop
  | absent : IsPower [] 0
  | written {mark : Char} {cs : List Char} {e : Int} : mark = 'e' ∨ mark = 'E' → Whole cs e →
      IsPower (mark :: cs) e

/-- A decimal as it is written without a sign. -/
inductive Unsigned : List Char → Decimal → Prop
  | mk {whole point fraction power : List Char} {exponent : Int} :
      (∀ c ∈ whole, c.isDigit = true) → IsFraction point fraction → IsPower power exponent →
      whole ++ fraction ≠ [] →
      Unsigned (whole ++ (point ++ power)) ⟨number (whole ++ fraction), exponent - fraction.length⟩

/-- A decimal as it is written, and whether it has the sign of a negative number. -/
inductive Written : List Char → Bool → Decimal → Prop
  | mk {sign rest : List Char} {d : Decimal} : IsSign sign → Unsigned rest d →
      Written (sign ++ rest) (sign = ['-']) d

variable {sign digits rest : List Char}

theorem splitSign_append (hsign : IsSign sign) (hplus : rest.head? ≠ some '+')
    (hminus : rest.head? ≠ some '-') :
    splitSign (sign ++ rest) = (decide (sign = ['-']), rest) := by
  rcases hsign with rfl | rfl | rfl
  · cases rest with
    | nil => rfl
    | cons c cs =>
      have hp : c ≠ '+' := fun h => hplus (congrArg some h)
      have hm : c ≠ '-' := fun h => hminus (congrArg some h)
      simp [splitSign, hp, hm]
  · rfl
  · rfl

/-- What is split off is a sign. -/
theorem exists_sign (cs : List Char) :
    ∃ sign, IsSign sign ∧ cs = sign ++ (splitSign cs).2 ∧
      (splitSign cs).1 = decide (sign = ['-']) := by
  cases cs with
  | nil => exact ⟨[], .inl rfl, rfl, rfl⟩
  | cons c cs =>
    rw [splitSign]
    split
    · rename_i hc
      subst hc
      exact ⟨['-'], .inr (.inr rfl), rfl, rfl⟩
    split
    · rename_i hc
      subst hc
      exact ⟨['+'], .inr (.inl rfl), rfl, rfl⟩
    · exact ⟨[], .inl rfl, rfl, rfl⟩

theorem digits?_eq_some_iff {n : Nat} :
    digits? digits = some n ↔
      digits ≠ [] ∧ (∀ c ∈ digits, c.isDigit = true) ∧ number digits = n := by
  have hform : (!digits.isEmpty && digits.all Char.isDigit) = true ↔
      digits ≠ [] ∧ ∀ c ∈ digits, c.isDigit = true := by
    rw [Bool.and_eq_true, Bool.not_eq_true', List.isEmpty_eq_false_iff, List.all_eq_true]
  rw [digits?, Option.ite_none_right_eq_some, hform, Option.some.injEq, and_assoc]

/-- Digits begin with nothing but a digit. -/
theorem head?_ne_of_isDigit (h : ∀ c ∈ digits, c.isDigit = true) {d : Char}
    (hd : d.isDigit = false) : digits.head? ≠ some d := by
  intro hhead
  exact ne_of_property (h d (List.mem_of_head? hhead)) hd rfl

/-- Reading a sign and digits accepts exactly the whole numbers. -/
theorem map_digits?_eq_some_iff {cs : List Char} {z : Int} :
    ((digits? (splitSign cs).2).map fun n : Nat => if (splitSign cs).1 then -(n : Int) else n) =
      some z ↔ Whole cs z := by
  constructor
  · intro h
    obtain ⟨n, hn, rfl⟩ := Option.map_eq_some_iff.mp h
    obtain ⟨hne, hdigits, rfl⟩ := digits?_eq_some_iff.mp hn
    obtain ⟨sign, hsign, hcs, hnegative⟩ := exists_sign cs
    have hwhole := Whole.mk hsign hne hdigits
    rw [← hcs] at hwhole
    simpa [hnegative] using hwhole
  · intro h
    cases h with
    | mk hsign hne hdigits =>
      have hnumber := digits?_eq_some_iff.mpr ⟨hne, hdigits, rfl⟩
      have hsplit := splitSign_append hsign (head?_ne_of_isDigit hdigits rfl)
        (head?_ne_of_isDigit hdigits rfl)
      simp [hsplit, hnumber]

theorem Whole.unique {cs : List Char} {z w : Int} (hz : Whole cs z) (hw : Whole cs w) : z = w := by
  have h := map_digits?_eq_some_iff.mpr hz
  rw [map_digits?_eq_some_iff.mpr hw] at h
  exact (Option.some.inj h).symm

theorem exponent?_marked {mark : Char} (hmark : mark = 'e' ∨ mark = 'E') (cs : List Char) :
    exponent? (mark :: cs) =
      (digits? (splitSign cs).2).map fun n : Nat => if (splitSign cs).1 then -(n : Int) else n := by
  have hmark' : (mark = 'e' || mark = 'E') = true := by simpa using hmark
  rw [exponent?, if_pos hmark']
  dsimp only
  cases digits? (splitSign cs).2 <;> rfl

theorem exponent?_eq_some_iff {power : List Char} {e : Int} :
    exponent? power = some e ↔ IsPower power e := by
  constructor
  · intro h
    cases power with
    | nil =>
      cases h
      exact .absent
    | cons mark cs =>
      by_cases hmark : mark = 'e' ∨ mark = 'E'
      · rw [exponent?_marked hmark, map_digits?_eq_some_iff] at h
        exact .written hmark h
      · rw [exponent?, if_neg (by simpa using hmark)] at h
        cases h
  · intro h
    cases h with
    | absent => rfl
    | written hmark hwhole =>
      rw [exponent?_marked hmark]
      exact map_digits?_eq_some_iff.mpr hwhole

/-- A power begins with neither a digit nor a point. -/
theorem IsPower.head? {power : List Char} {e : Int} (h : IsPower power e) :
    power.head?.any Char.isDigit = false ∧ power.head? ≠ some '.' := by
  cases h with
  | absent => exact ⟨rfl, nofun⟩
  | written hmark => rcases hmark with rfl | rfl <;> exact ⟨rfl, by simp⟩

theorem ofUnsigned?_eq_some_iff {cs : List Char} {d : Decimal} :
    ofUnsigned? cs = some d ↔ Unsigned cs d := by
  constructor
  · intro h
    have hcs := List.takeWhile_append_dropWhile (p := Char.isDigit) (l := cs)
    unfold ofUnsigned? at h
    dsimp only at h
    split at h
    · rename_i hpoint
      obtain ⟨after, hafter⟩ := List.head?_eq_some_iff.mp hpoint
      rw [hafter, List.tail_cons, Option.ite_none_left_eq_some] at h
      obtain ⟨hne, h⟩ := h
      obtain ⟨e, he, rfl⟩ := Option.map_eq_some_iff.mp h
      have hpower := exponent?_eq_some_iff.mp he
      have hunsigned := Unsigned.mk (fun _ => List.mem_takeWhile_imp)
        (.written fun _ => List.mem_takeWhile_imp) hpower (by simpa using hne)
      rwa [List.cons_append, List.takeWhile_append_dropWhile, ← hafter, hcs] at hunsigned
    · rw [List.takeWhile_nil, Option.ite_none_left_eq_some] at h
      obtain ⟨hne, h⟩ := h
      obtain ⟨e, he, rfl⟩ := Option.map_eq_some_iff.mp h
      have hpower := exponent?_eq_some_iff.mp he
      have hunsigned := Unsigned.mk (fun _ => List.mem_takeWhile_imp) .absent hpower
        (by simpa using hne)
      rwa [List.nil_append, hcs] at hunsigned
  · intro h
    cases h with
    | @mk whole point fraction power e hwhole hpoint hpower hne =>
      obtain ⟨hdigit, hdot⟩ := hpower.head?
      have hexponent := exponent?_eq_some_iff.mpr hpower
      cases hpoint with
      | absent =>
        rw [List.append_nil] at hne
        have htake : (whole ++ power).takeWhile Char.isDigit = whole := takeWhile_stop hwhole hdigit
        have hdrop : (whole ++ power).dropWhile Char.isDigit = power := dropWhile_stop hwhole hdigit
        simp [ofUnsigned?, htake, hdrop, hdot, hne, hexponent]
      | written hdigits =>
        have hstop : ('.' :: (fraction ++ power)).head?.any Char.isDigit = false := rfl
        have htake := takeWhile_stop hwhole hstop
        have hdrop := dropWhile_stop hwhole hstop
        have hafter : (fraction ++ power).takeWhile Char.isDigit = fraction :=
          takeWhile_stop hdigits hdigit
        have hpast : (fraction ++ power).dropWhile Char.isDigit = power :=
          dropWhile_stop hdigits hdigit
        have hsome : ¬(whole = [] ∧ fraction = []) := by simpa using hne
        simp [ofUnsigned?, htake, hdrop, hafter, hpast, hsome, hexponent]

/-- What follows the sign begins with a digit or a point. -/
theorem Unsigned.exists_head {cs : List Char} {d : Decimal} (h : Unsigned cs d) :
    ∃ c rest, cs = c :: rest ∧ (c.isDigit = true ∨ c = '.') := by
  cases h with
  | @mk whole point fraction power e hwhole hpoint hpower hne =>
    cases whole with
    | cons c cs => exact ⟨c, _, rfl, .inl (hwhole c (by simp))⟩
    | nil =>
      cases hpoint with
      | absent => exact (hne rfl).elim
      | written => exact ⟨'.', _, rfl, .inr rfl⟩

theorem Unsigned.splitSign {d : Decimal} (hsign : IsSign sign) (h : Unsigned rest d) :
    Decimal.splitSign (sign ++ rest) = (decide (sign = ['-']), rest) := by
  obtain ⟨c, rest, rfl, hc⟩ := h.exists_head
  apply splitSign_append hsign
  · rintro ⟨⟩
    rcases hc with hc | hc <;> cases hc
  · rintro ⟨⟩
    rcases hc with hc | hc <;> cases hc

theorem written_of_unsigned {cs : List Char} {d : Decimal} (h : Unsigned (splitSign cs).2 d) :
    Written cs (splitSign cs).1 d := by
  obtain ⟨sign, hsign, hcs, hnegative⟩ := exists_sign cs
  have hwritten := Written.mk hsign h
  rwa [← hcs, ← hnegative] at hwritten

/-- Digits alone, with a sign or without. -/
theorem written_whole (hsign : IsSign sign) (hne : digits ≠ [])
    (hdigits : ∀ c ∈ digits, c.isDigit = true) :
    Written (sign ++ digits) (sign = ['-']) ⟨number digits, 0⟩ := by
  have hunsigned := Unsigned.mk hdigits .absent .absent (by simpa using hne)
  simpa using Written.mk hsign hunsigned

end Decimal

namespace Binary64

theorem toLower_of_isDigit {c : Char} (h : c.isDigit = true) : c.toLower = c := by
  have h9 : c.val ≤ '9'.val := of_decide_eq_true (Bool.and_eq_true_iff.mp h).2
  apply dif_neg
  grind

/-- A text that begins with a digit or a point spells none of the words for numbers. -/
theorem ofText?_of_digits {text : String} {negative : Bool} {c : Char} {ds : List Char}
    (hsplit : Decimal.splitSign text.toList = (negative, c :: ds))
    (hc : c.isDigit = true ∨ c = '.') :
    ofText? text = (Decimal.ofUnsigned? (c :: ds)).map (·.toBinary64 negative) := by
  have hlower : c.toLower = c := by
    rcases hc with hdigit | rfl
    · exact toLower_of_isDigit hdigit
    · rfl
  have hword {w : String} {d : Char} (hw : w.toList.head? = some d) (hdigit : d.isDigit = false)
      (hpoint : d ≠ '.') : String.ofList ((c :: ds).map Char.toLower) ≠ w := by
    rintro rfl
    rw [String.toList_ofList, List.map_cons, List.head?_cons, hlower] at hw
    cases hw
    rcases hc with hc | hc
    · rw [hc] at hdigit
      cases hdigit
    · exact hpoint hc
  have hinf := hword (w := "inf") rfl rfl (by decide)
  have hinfinity := hword (w := "infinity") rfl rfl (by decide)
  have hnan := hword (w := "nan") rfl rfl (by decide)
  simp only [ofText?, hsplit, hinf, hinfinity, hnan, decide_false, Bool.or_self,
    Bool.false_eq_true, if_false]

theorem ofText?_written {text : String} {negative : Bool} {d : Decimal}
    (h : Decimal.Written text.toList negative d) : ofText? text = some (d.toBinary64 negative) := by
  generalize hcs : text.toList = cs at h
  cases h with
  | mk hsign hunsigned =>
    have hsplit := hunsigned.splitSign hsign
    obtain ⟨c, rest, rfl, hc⟩ := hunsigned.exists_head
    rw [← hcs] at hsplit
    rw [ofText?_of_digits hsplit hc, Decimal.ofUnsigned?_eq_some_iff.mpr hunsigned]
    rfl

/-- What is not written as a decimal is read as no finite number. -/
theorem written_of_ofText? {text : String} {x : Binary64} (h : ofText? text = some x)
    (hx : x.isFinite = true) :
    ∃ negative d, Decimal.Written text.toList negative d ∧ d.toBinary64 negative = x := by
  unfold ofText? at h
  dsimp only at h
  split at h
  · cases h
    cases hx
  split at h
  · cases h
    cases hx
  · obtain ⟨d, hd, hread⟩ := Option.map_eq_some_iff.mp h
    have hunsigned := Decimal.ofUnsigned?_eq_some_iff.mp hd
    exact ⟨_, d, Decimal.written_of_unsigned hunsigned, hread⟩

end Binary64

end Cartosheet
