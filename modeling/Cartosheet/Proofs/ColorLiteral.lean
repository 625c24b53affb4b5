import Cartosheet.Color
import Cartosheet.Proofs.AddressWrapper
import Cartosheet.Proofs.HexDigits

namespace Cartosheet

namespace Color

theorem toNat_channel {high low : Nat} (hhigh : high < 16) (hlow : low < 16) :
    (channel high low).toNat = 16 * high + low := by
  rw [channel, UInt8.toNat_ofNat']
  omega

/-- A channel is written as the digits that it was read from, in lower case. -/
theorem channelText_channel {d d' : Char} {high low : Nat} (hd : Hex.value? d = some high)
    (hd' : Hex.value? d' = some low) :
    channelText (channel high low) = [d.toLower, d'.toLower] := by
  have hlow := Hex.value?_lt hd'
  have hquotient : (16 * high + low) / 16 = high := by omega
  have hrest : (16 * high + low) % 16 = low := by omega
  rw [channelText, toNat_channel (Hex.value?_lt hd) hlow, hquotient, hrest,
    Hex.digit_of_value? hd, Hex.digit_of_value? hd']

theorem channel_halves (b : UInt8) : channel (b.toNat / 16) (b.toNat % 16) = b := by
  rw [channel, Nat.div_add_mod, UInt8.ofNat_toNat]

/-- A number sign, and three or six digits in either case. -/
def IsLiteral (text : String) : Prop :=
  ∃ ds, text.toList = '#' :: ds ∧ (ds.length = 3 ∨ ds.length = 6) ∧ ∀ d ∈ ds, Hex.IsDigit d

/-- Lower case, and each digit twice if there are three. -/
def canonical (text : String) : String :=
  let long :=
    match text.toList with
    | [c, r, g, b] => [c, r, r, g, g, b, b]
    | cs => cs
  String.ofList (long.map Char.toLower)

/-- A literal and the color that it means. -/
inductive Literal : List Char → Color → Prop
  | short {r g b : Char} {i j k : Nat} :
      Hex.value? r = some i → Hex.value? g = some j → Hex.value? b = some k →
      Literal ['#', r, g, b] ⟨channel i i, channel j j, channel k k⟩
  | long {r r' g g' b b' : Char} {i i' j j' k k' : Nat} :
      Hex.value? r = some i → Hex.value? r' = some i' → Hex.value? g = some j →
      Hex.value? g' = some j' → Hex.value? b = some k → Hex.value? b' = some k' →
      Literal ['#', r, r', g, g', b, b'] ⟨channel i i', channel j j', channel k k'⟩

theorem ofText?_eq_some_iff {text : String} {c : Color} :
    ofText? text = some c ↔ Literal text.toList c := by
  constructor
  · intro h
    unfold ofText? at h
    split at h
    · cases h
    · rename_i sign cs htext
      rw [Option.ite_none_right_eq_some] at h
      obtain ⟨rfl, h⟩ := h
      rw [htext]
      split at h
      · rename_i hvalues
        cases h
        obtain _ | ⟨hr, _ | ⟨hg, _ | ⟨hb, _ | _⟩⟩⟩ := Hex.mapM_value?_eq_some_iff.mp hvalues
        exact .short hr hg hb
      · rename_i hvalues
        cases h
        obtain _ | ⟨hr, _ | ⟨hr', _ | ⟨hg, _ | ⟨hg', _ | ⟨hb, _ | ⟨hb', _ | _⟩⟩⟩⟩⟩⟩ :=
          Hex.mapM_value?_eq_some_iff.mp hvalues
        exact .long hr hr' hg hg' hb hb'
      · cases h
  · intro h
    generalize hcs : text.toList = cs at h
    cases h with
    | short hr hg hb => simp [ofText?, hcs, hr, hg, hb]
    | long hr hr' hg hg' hb hb' => simp [ofText?, hcs, hr, hr', hg, hg', hb, hb']

theorem Literal.text_eq {text : String} {c : Color} (h : Literal text.toList c) :
    c.text = canonical text := by
  generalize hcs : text.toList = cs at h
  cases h with
  | short hr hg hb =>
    simp only [Color.text, canonical, hcs, channelText_channel hr hr, channelText_channel hg hg,
      channelText_channel hb hb]
    rfl
  | long hr hr' hg hg' hb hb' =>
    simp only [Color.text, canonical, hcs, channelText_channel hr hr', channelText_channel hg hg',
      channelText_channel hb hb']
    rfl

/-- What is written for a color is a literal of it. -/
theorem literal_text (c : Color) : Literal c.text.toList c := by
  have hhigh (b : UInt8) : Hex.value? (Hex.digit (b.toNat / 16)) = some (b.toNat / 16) := by
    apply Hex.value?_digit
    have := b.toNat_lt
    omega
  have hlow (b : UInt8) : Hex.value? (Hex.digit (b.toNat % 16)) = some (b.toNat % 16) := by
    apply Hex.value?_digit
    omega
  have h := Literal.long (hhigh c.red) (hlow c.red) (hhigh c.green) (hlow c.green)
    (hhigh c.blue) (hlow c.blue)
  rw [channel_halves, channel_halves, channel_halves] at h
  rw [Color.text, String.toList_ofList]
  exact h

theorem exists_literal_iff {text : String} : (∃ c, Literal text.toList c) ↔ IsLiteral text := by
  constructor
  · rintro ⟨c, h⟩
    generalize hcs : text.toList = cs at h
    cases h with
    | short hr hg hb =>
      refine ⟨_, hcs, .inl rfl, ?_⟩
      simp only [← Hex.exists_value?_iff, List.forall_mem_cons]
      exact ⟨⟨_, hr⟩, ⟨_, hg⟩, ⟨_, hb⟩, by simp⟩
    | long hr hr' hg hg' hb hb' =>
      refine ⟨_, hcs, .inr rfl, ?_⟩
      simp only [← Hex.exists_value?_iff, List.forall_mem_cons]
      exact ⟨⟨_, hr⟩, ⟨_, hr'⟩, ⟨_, hg⟩, ⟨_, hg'⟩, ⟨_, hb⟩, ⟨_, hb'⟩, by simp⟩
  · rintro ⟨ds, htext, hlength, hdigits⟩
    rw [htext]
    simp only [← Hex.exists_value?_iff] at hdigits
    rcases hlength with hlength | hlength
    · obtain ⟨r, g, b, rfl⟩ := List.length_eq_three.mp hlength
      simp only [List.forall_mem_cons] at hdigits
      obtain ⟨⟨_, hr⟩, ⟨_, hg⟩, ⟨_, hb⟩, -⟩ := hdigits
      exact ⟨_, .short hr hg hb⟩
    · obtain _ | ⟨r, _ | ⟨r', _ | ⟨g, _ | ⟨g', _ | ⟨b, _ | ⟨b', _ | ⟨d, ds⟩⟩⟩⟩⟩⟩⟩ := ds
      case cons.cons.cons.cons.cons.cons.nil =>
        simp only [List.forall_mem_cons] at hdigits
        obtain ⟨⟨_, hr⟩, ⟨_, hr'⟩, ⟨_, hg⟩, ⟨_, hg'⟩, ⟨_, hb⟩, ⟨_, hb'⟩, -⟩ := hdigits
        exact ⟨_, .long hr hr' hg hg' hb hb'⟩
      -- No other list has six digits.
      all_goals
        simp only [List.length_cons, List.length_nil] at hlength
        omega

/-- How a reading that counts bytes can break off: at a cut that falls inside a character or behind
the end, or at a product that is too large for a byte. -/
inductive Mishap where
  | cut
  | overflow
  deriving DecidableEq

/-- The part of a text between two byte offsets. -/
def slice (s : String) (start stop : Nat) : Except Mishap String :=
  if h : start ≤ stop ∧ (⟨start⟩ : String.Pos.Raw).IsValid s ∧
      (⟨stop⟩ : String.Pos.Raw).IsValid s then
    .ok (String.extract (⟨⟨start⟩, h.2.1⟩ : s.Pos) ⟨⟨stop⟩, h.2.2⟩)
  else .error .cut

def isDigitByte (b : UInt8) : Bool :=
  (48 ≤ b && b ≤ 57) || (97 ≤ b && b ≤ 102) || (65 ≤ b && b ≤ 70)

/-- A hexadecimal number of at most a byte; a plus sign may stand before it. -/
def byte? (part : String) : Option Nat :=
  let cs := part.toList
  let ds := if cs.head? = some '+' then cs.tail else cs
  if ds ≠ [] ∧ ds.all Hex.isDigit = true ∧ Hex.number ds < 256 then some (Hex.number ds) else none

/-- The number between two byte offsets, multiplied within a byte. -/
def channelAt (digits : String) (start stop factor : Nat) : Except Mishap (Option UInt8) := do
  let part ← slice digits start stop
  match byte? part with
  | none => return none
  | some n => if n * factor < 256 then return some (UInt8.ofNat (n * factor)) else throw .overflow

def ofChannels (red green blue : Except Mishap (Option UInt8)) :
    Except Mishap (Option Color) := do
  let some r ← red | return none
  let some g ← green | return none
  let some b ← blue | return none
  return some ⟨r, g, b⟩

/-- The reading of a literal by byte offsets: the bytes are looked at first and only then cut. -/
def byOffsets (text : String) : Except Mishap (Option Color) :=
  if text.toList.head? = some '#' then
    let digits := String.ofList text.toList.tail
    if digits.toUTF8.data.all isDigitByte then
      if digits.utf8ByteSize = 3 then
        ofChannels (channelAt digits 0 1 17) (channelAt digits 1 2 17) (channelAt digits 2 3 17)
      else if digits.utf8ByteSize = 6 then
        ofChannels (channelAt digits 0 2 1) (channelAt digits 2 4 1) (channelAt digits 4 6 1)
      else return none
    else return none
  else return none

/-- A character of more than one byte begins with a byte that is no digit. -/
theorem all_utf8EncodeChar_iff {c : Char} :
    (String.utf8EncodeChar c).all isDigitByte = true ↔ Hex.IsDigit c := by
  have hcode : c.toNat = c.val.toNat := rfl
  have hbyte (n : Nat) : isDigitByte (UInt8.ofNat n) = true ↔
      (48 ≤ n % 256 ∧ n % 256 ≤ 57) ∨ (97 ≤ n % 256 ∧ n % 256 ≤ 102) ∨
        (65 ≤ n % 256 ∧ n % 256 ≤ 70) := by
    simp [isDigitByte, UInt8.le_iff_toNat_le, or_assoc]
  rw [Hex.isDigit_iff_toNat, hcode]
  unfold String.utf8EncodeChar
  dsimp only
  -- A single byte is the code itself, and the first of several is at least 0xC0.
  repeat' split
  all_goals
    simp only [List.all_cons, List.all_nil, Bool.and_true, Bool.and_eq_true, hbyte]
    omega

theorem all_bytes_iff {ds : List Char} :
    (String.ofList ds).toUTF8.data.all isDigitByte = true ↔ ∀ d ∈ ds, Hex.IsDigit d := by
  rw [String.toUTF8_eq_toByteArray, String.toByteArray_ofList, List.utf8Encode, ← Array.all_toList,
    List.toList_data_toByteArray, List.all_flatMap, List.all_eq_true]
  simp only [all_utf8EncodeChar_iff]

theorem utf8Size_of_isDigit {c : Char} (h : Hex.IsDigit c) : c.utf8Size = 1 := by
  rw [Hex.isDigit_iff_toNat] at h
  rw [Char.utf8Size_eq_one_iff, UInt32.le_iff_toNat_le]
  change c.toNat ≤ 127
  omega

theorem slice_positions {s : String} {start stop : s.Pos} (h : start ≤ stop) :
    slice s start.offset.byteIdx stop.offset.byteIdx = .ok (String.extract start stop) :=
  dif_pos ⟨h, start.isValid, stop.isValid⟩

/-- A cut between two parts of a text falls inside no character. -/
theorem slice_append (before part after : String) :
    slice (before ++ (part ++ after)) before.utf8ByteSize
      (before.utf8ByteSize + part.utf8ByteSize) = .ok part := by
  obtain ⟨start, stop, hstart, hstop, hle, hpart⟩ :=
    Address.exists_positions (rfl : before ++ (part ++ after) = before ++ (part ++ after))
  have hslice := slice_positions hle
  rwa [hstart, hstop, hpart, String.byteIdx_rawEndPos, String.byteIdx_rawEndPos,
    String.utf8ByteSize_append] at hslice

theorem slice_digits {xs ys zs : List Char} (h : ∀ d ∈ xs ++ (ys ++ zs), Hex.IsDigit d) :
    slice (String.ofList (xs ++ (ys ++ zs))) xs.length (xs.length + ys.length) =
      .ok (String.ofList ys) := by
  have hsize {ds : List Char} (hds : ds ⊆ xs ++ (ys ++ zs)) :
      (String.ofList ds).utf8ByteSize = ds.length :=
    Address.utf8ByteSize_ascii fun d hd => utf8Size_of_isDigit (h d (hds hd))
  have hslice := slice_append (String.ofList xs) (String.ofList ys) (String.ofList zs)
  rwa [hsize (by simp), hsize (by simp), ← String.ofList_append, ← String.ofList_append] at hslice

theorem byte?_digits {ds : List Char} (hne : ds ≠ []) (hdigits : ∀ d ∈ ds, Hex.IsDigit d)
    (hbyte : Hex.number ds < 256) : byte? (String.ofList ds) = some (Hex.number ds) := by
  have hall : ds.all Hex.isDigit = true := by
    apply List.all_eq_true.mpr
    intro d hd
    exact (hdigits d hd).isDigit
  have hplus : ds.head? ≠ some '+' := by
    intro hhead
    obtain ⟨n, hn⟩ := Hex.exists_value?_iff.mpr (hdigits '+' (List.mem_of_head? hhead))
    cases hn
  simp only [byte?, String.toList_ofList, if_neg hplus]
  exact if_pos ⟨hne, hall, hbyte⟩

theorem channelAt_digits {xs ys zs : List Char} (factor : Nat)
    (hdigits : ∀ d ∈ xs ++ (ys ++ zs), Hex.IsDigit d) (hne : ys ≠ [])
    (hbyte : Hex.number ys < 256) (hproduct : Hex.number ys * factor < 256) :
    channelAt (String.ofList (xs ++ (ys ++ zs))) xs.length (xs.length + ys.length) factor =
      .ok (some (UInt8.ofNat (Hex.number ys * factor))) := by
  have hpart := byte?_digits hne (fun d hd => hdigits d (by simp [hd])) hbyte
  rw [channelAt, slice_digits hdigits]
  simp only [bind, Except.bind, hpart, if_pos hproduct]
  rfl

theorem channelAt_short (xs zs : List Char) {d : Char} {n : Nat}
    (hdigits : ∀ d' ∈ xs ++ ([d] ++ zs), Hex.IsDigit d') (hd : Hex.value? d = some n) :
    channelAt (String.ofList (xs ++ ([d] ++ zs))) xs.length (xs.length + 1) 17 =
      .ok (some (channel n n)) := by
  have hn := Hex.value?_lt hd
  have hnumber : Hex.number [d] = n := by simp [Hex.number, hd]
  have htwice : 16 * n + n = n * 17 := by omega
  rw [channel, htwice]
  have h := channelAt_digits 17 hdigits (by simp) (by omega) (by omega)
  rwa [hnumber] at h

theorem channelAt_long (xs zs : List Char) {d d' : Char} {n n' : Nat}
    (hdigits : ∀ e ∈ xs ++ ([d, d'] ++ zs), Hex.IsDigit e) (hd : Hex.value? d = some n)
    (hd' : Hex.value? d' = some n') :
    channelAt (String.ofList (xs ++ ([d, d'] ++ zs))) xs.length (xs.length + 2) 1 =
      .ok (some (channel n n')) := by
  have hn := Hex.value?_lt hd
  have hn' := Hex.value?_lt hd'
  have hnumber : Hex.number [d, d'] = 16 * n + n' := by simp [Hex.number, hd, hd']
  have h := channelAt_digits 1 hdigits (by simp) (by omega) (by omega)
  rwa [hnumber, Nat.mul_one] at h

/-- Once the bytes are known to be digits, only their number counts. -/
theorem byOffsets_of_digits {text : String} {ds : List Char} (htext : text.toList = '#' :: ds)
    (hdigits : ∀ d ∈ ds, Hex.IsDigit d) :
    byOffsets text =
      let digits := String.ofList ds
      if ds.length = 3 then
        ofChannels (channelAt digits 0 1 17) (channelAt digits 1 2 17) (channelAt digits 2 3 17)
      else if ds.length = 6 then
        ofChannels (channelAt digits 0 2 1) (channelAt digits 2 4 1) (channelAt digits 4 6 1)
      else .ok none := by
  have hsize : (String.ofList ds).utf8ByteSize = ds.length :=
    Address.utf8ByteSize_ascii fun d hd => utf8Size_of_isDigit (hdigits d hd)
  have hhead : text.toList.head? = some '#' := by rw [htext, List.head?_cons]
  unfold byOffsets
  rw [if_pos hhead, htext, List.tail_cons]
  dsimp only
  rw [if_pos (all_bytes_iff.mpr hdigits), hsize]
  rfl

theorem Literal.byOffsets {text : String} {c : Color} (h : Literal text.toList c) :
    Color.byOffsets text = .ok (some c) := by
  obtain ⟨ds, htext, -, hdigits⟩ := exists_literal_iff.mp ⟨c, h⟩
  rw [byOffsets_of_digits htext hdigits]
  rw [htext] at h
  cases h with
  | @short r g b i j k hr hg hb =>
    have hred : channelAt (String.ofList [r, g, b]) 0 1 17 = _ :=
      channelAt_short [] [g, b] hdigits hr
    have hgreen : channelAt (String.ofList [r, g, b]) 1 2 17 = _ :=
      channelAt_short [r] [b] hdigits hg
    have hblue : channelAt (String.ofList [r, g, b]) 2 3 17 = _ :=
      channelAt_short [r, g] [] hdigits hb
    have hthree : [r, g, b].length = 3 := rfl
    dsimp only
    rw [if_pos hthree, hred, hgreen, hblue]
    rfl
  | @long r r' g g' b b' i i' j j' k k' hr hr' hg hg' hb hb' =>
    have hred : channelAt (String.ofList [r, r', g, g', b, b']) 0 2 1 = _ :=
      channelAt_long [] [g, g', b, b'] hdigits hr hr'
    have hgreen : channelAt (String.ofList [r, r', g, g', b, b']) 2 4 1 = _ :=
      channelAt_long [r, r'] [b, b'] hdigits hg hg'
    have hblue : channelAt (String.ofList [r, r', g, g', b, b']) 4 6 1 = _ :=
      channelAt_long [r, r', g, g'] [] hdigits hb hb'
    have hthree : [r, r', g, g', b, b'].length ≠ 3 := by simp
    have hsix : [r, r', g, g', b, b'].length = 6 := rfl
    dsimp only
    rw [if_neg hthree, if_pos hsix, hred, hgreen, hblue]
    rfl

theorem byOffsets_eq_none {text : String} (h : ¬IsLiteral text) :
    byOffsets text = .ok none := by
  by_cases hhead : text.toList.head? = some '#'
  · obtain ⟨ds, htext⟩ := List.head?_eq_some_iff.mp hhead
    by_cases hdigits : ∀ d ∈ ds, Hex.IsDigit d
    · have hthree : ds.length ≠ 3 := fun hlength => h ⟨ds, htext, .inl hlength, hdigits⟩
      have hsix : ds.length ≠ 6 := fun hlength => h ⟨ds, htext, .inr hlength, hdigits⟩
      rw [byOffsets_of_digits htext hdigits]
      dsimp only
      rw [if_neg hthree, if_neg hsix]
    · unfold byOffsets
      rw [if_pos hhead, htext, List.tail_cons]
      dsimp only
      rw [if_neg (mt all_bytes_iff.mp hdigits)]
      rfl
  · unfold byOffsets
    rw [if_neg hhead]
    rfl

/-- Exactly the literals are colors, and a reading by byte offsets gets through and agrees. A color
that is read is written as the canonical form of the literal and read back from it, so two literals
mean the same color exactly if they have the same canonical form. -/
theorem literals_canonical (text : String) :
    ((∃ c, ofText? text = some c) ↔ IsLiteral text) ∧
    byOffsets text = .ok (ofText? text) ∧
    (∀ c, ofText? text = some c → c.text = canonical text ∧ ofText? c.text = some c) ∧
    ∀ other, IsLiteral text → IsLiteral other →
      (ofText? text = ofText? other ↔ canonical text = canonical other) := by
  have hread (t : String) : (∃ c, ofText? t = some c) ↔ IsLiteral t := by
    simp only [ofText?_eq_some_iff, exists_literal_iff]
  have hback (c : Color) : ofText? c.text = some c := ofText?_eq_some_iff.mpr (literal_text c)
  have hform {t : String} {c : Color} (h : ofText? t = some c) : c.text = canonical t :=
    (ofText?_eq_some_iff.mp h).text_eq
  refine ⟨hread text, ?_, fun c h => ⟨hform h, hback c⟩, ?_⟩
  · cases h : ofText? text with
    | some c => exact (ofText?_eq_some_iff.mp h).byOffsets
    | none =>
      apply byOffsets_eq_none
      intro hliteral
      obtain ⟨c, hc⟩ := (hread text).mpr hliteral
      rw [h] at hc
      cases hc
  · intro other htext hother
    obtain ⟨c, hc⟩ := (hread text).mpr htext
    obtain ⟨d, hd⟩ := (hread other).mpr hother
    constructor
    · intro hsame
      rw [hc, hd] at hsame
      rw [← hform hc, ← hform hd, Option.some.inj hsame]
    · intro hsame
      rw [← hform hc, ← hform hd] at hsame
      rw [hc, hd, ← hback c, ← hback d, hsame]

/-- Three digits and the same three doubled in the other case; and two characters of three bytes in
all, which are no literal. -/
theorem literals_canonical_doubled :
    (IsLiteral "#fA0" ∧ IsLiteral "#FFaa00" ∧ canonical "#fA0" = canonical "#FFaa00" ∧
      ofText? "#fA0" = ofText? "#FFaa00") ∧
    (ofText? "#fA0" = some ⟨255, 170, 0⟩ ∧ text ⟨255, 170, 0⟩ = canonical "#fA0") ∧
    ¬IsLiteral "#é0" ∧ byOffsets "#é0" = .ok none := by
  obtain ⟨hiff, -, hform, hsame⟩ := literals_canonical "#fA0"
  have hread : ofText? "#fA0" = some ⟨255, 170, 0⟩ := by decide
  have hlong : ofText? "#FFaa00" = some ⟨255, 170, 0⟩ := by decide
  have hrefused : ofText? "#é0" = none := by decide
  have hshort := hiff.mp ⟨_, hread⟩
  have hother := (literals_canonical "#FFaa00").1.mp ⟨_, hlong⟩
  have hcanonical : canonical "#fA0" = canonical "#FFaa00" := by decide
  refine ⟨⟨hshort, hother, hcanonical, (hsame _ hshort hother).mpr hcanonical⟩,
    ⟨hread, (hform _ hread).1⟩, ?_, ?_⟩
  · intro hliteral
    obtain ⟨c, hc⟩ := (literals_canonical "#é0").1.mpr hliteral
    rw [hrefused] at hc
    cases hc
  · rw [(literals_canonical "#é0").2.1, hrefused]

end Color

end Cartosheet
