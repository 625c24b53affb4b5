import Cartosheet.Proofs.JsonText

namespace Cartosheet

namespace Json

/-- The value of a number. A few texts that are not numbers of the grammar are read as well, such as
one with zeros in front. -/
def number? (cs : List Char) : Option ℚ :=
  if cs.head? = some '-' then (Decimal.ofUnsigned? cs.tail).map (·.signedValue true)
  else (Decimal.ofUnsigned? cs).map (·.signedValue false)

def scalar? (cs : List Char) : Option Json :=
  if cs = ['n', 'u', 'l', 'l'] then some .null
  else if cs = ['t', 'r', 'u', 'e'] then some (.boolean true)
  else if cs = ['f', 'a', 'l', 's', 'e'] then some (.boolean false)
  else (number? cs).map .number

/-- The characters of numbers and words. -/
def isPlain (c : Char) : Bool := c.isAlphanum || c = '-' || c = '+' || c = '.'

/-- The code of four digits, and what follows them. -/
def code? (cs : List Char) : Option (Nat × List Char) :=
  let ds := cs.take 4
  if ds.length = 4 ∧ ds.all Hex.isDigit = true then some (Hex.number ds, cs.drop 4) else none

/-- The second escape of a pair, and the character of both. -/
def pair? (high : Nat) (cs : List Char) : Option (Char × List Char) :=
  if cs.take 2 = ['\\', 'u'] then
    (code? (cs.drop 2)).bind fun low =>
      if 0xDC00 ≤ low.1 ∧ low.1 < 0xE000 then
        some (Char.ofNat (0x10000 + 0x400 * (high - 0xD800) + (low.1 - 0xDC00)), low.2)
      else none
  else none

/-- The character of an escape, behind its backslash. -/
def escape? : List Char → Option (Char × List Char)
  | [] => none
  | c :: cs =>
    if c = 'u' then
      (code? cs).bind fun code =>
        if 0xD800 ≤ code.1 ∧ code.1 < 0xDC00 then pair? code.1 code.2
        else if code.1.isValidChar then some (Char.ofNat code.1, code.2)
        else none
    else (shortEscapes.lookup c).map (·, cs)

/-- The first character of a string, and what follows it. -/
def character? : List Char → Option (Char × List Char)
  | [] => none
  | c :: cs => if c = '\\' then escape? cs else if c.toNat < 0x20 then none else some (c, cs)

theorem code?_append {ds rest : List Char} {n : Nat} (h : IsCode ds n) :
    code? (ds ++ rest) = some (n, rest) := by
  have hall : ds.all Hex.isDigit = true := by
    apply List.all_eq_true.mpr
    intro d hd
    exact (h.digits d hd).isDigit
  have htake : (ds ++ rest).take 4 = ds := List.take_left' h.length
  have hdrop : (ds ++ rest).drop 4 = rest := List.drop_left' h.length
  unfold code?
  dsimp only
  rw [htake, hdrop, if_pos ⟨h.length, hall⟩, h.number]

theorem escape?_short {letter c : Char} {rest : List Char} (h : (letter, c) ∈ shortEscapes) :
    escape? (letter :: rest) = some (c, rest) := by
  have hall : shortEscapes.all (fun p => p.1 ≠ 'u' && shortEscapes.lookup p.1 = some p.2) = true :=
    rfl
  have hentry := List.all_eq_true.mp hall _ h
  simp only [ne_eq, decide_not, Bool.and_eq_true, Bool.not_eq_true', decide_eq_false_iff_not,
    decide_eq_true_eq] at hentry
  rw [escape?, if_neg hentry.1, hentry.2]
  rfl

/-- A character is no half of a pair. -/
theorem escape?_code {ds rest : List Char} {c : Char} (h : IsCode ds c.toNat) :
    escape? ('u' :: (ds ++ rest)) = some (c, rest) := by
  have hvalid : c.toNat.isValidChar := c.valid
  have hsingle : ¬(0xD800 ≤ c.toNat ∧ c.toNat < 0xDC00) := by
    unfold Nat.isValidChar at hvalid
    omega
  rw [escape?, if_pos rfl, code?_append h, Option.bind_some, if_neg hsingle, if_pos hvalid,
    Char.ofNat_toNat]

theorem escape?_pair {ds es rest : List Char} {high low : Nat} {c : Char} (hds : IsCode ds high)
    (hhigh : 0xD800 ≤ high ∧ high < 0xDC00) (hes : IsCode es low)
    (hlow : 0xDC00 ≤ low ∧ low < 0xE000)
    (hc : c.toNat = 0x10000 + 0x400 * (high - 0xD800) + (low - 0xDC00)) :
    escape? ('u' :: (ds ++ '\\' :: 'u' :: (es ++ rest))) = some (c, rest) := by
  have hmark : ('\\' :: 'u' :: (es ++ rest)).take 2 = ['\\', 'u'] := rfl
  have hcode : code? (('\\' :: 'u' :: (es ++ rest)).drop 2) = some (low, rest) := code?_append hes
  rw [escape?, if_pos rfl, code?_append hds, Option.bind_some, if_pos hhigh, pair?, if_pos hmark,
    hcode, Option.bind_some, if_pos hlow, ← hc, Char.ofNat_toNat]

theorem character?_append {t : List Char} {c : Char} (h : Character t c) (rest : List Char) :
    character? (t ++ rest) = some (c, rest) := by
  cases h with
  | plain hc hquote hslash =>
    rw [List.singleton_append, character?, if_neg hslash, if_neg (by omega)]
  | short hshort => exact escape?_short hshort
  | code hcode => exact escape?_code hcode
  | pair hds hge hlt hes hge' hlt' hc =>
    rw [List.cons_append, List.cons_append, List.append_assoc]
    exact escape?_pair hds ⟨hge, hlt⟩ hes ⟨hge', hlt'⟩ hc

theorem length_code? {cs : List Char} {p : Nat × List Char} (h : code? cs = some p) :
    p.2.length ≤ cs.length := by
  unfold code? at h
  dsimp only at h
  rw [Option.ite_none_right_eq_some] at h
  obtain ⟨-, ⟨⟩⟩ := h
  simp

theorem length_pair? {high : Nat} {cs : List Char} {p : Char × List Char}
    (h : pair? high cs = some p) : p.2.length ≤ cs.length := by
  rw [pair?, Option.ite_none_right_eq_some] at h
  obtain ⟨-, h⟩ := h
  obtain ⟨low, hlow, h⟩ := Option.bind_eq_some_iff.mp h
  rw [Option.ite_none_right_eq_some] at h
  have hlength := length_code? hlow
  rw [List.length_drop] at hlength
  rw [← Option.some.inj h.2]
  exact Nat.le_trans hlength (Nat.sub_le _ _)

theorem length_escape? {cs : List Char} {p : Char × List Char} (h : escape? cs = some p) :
    p.2.length < cs.length := by
  cases cs with
  | nil => cases h
  | cons c cs =>
    rw [List.length_cons, Nat.lt_succ_iff]
    rw [escape?] at h
    split at h
    · obtain ⟨code, hcode, h⟩ := Option.bind_eq_some_iff.mp h
      have hlength := length_code? hcode
      split at h
      · exact Nat.le_trans (length_pair? h) hlength
      · rw [Option.ite_none_right_eq_some] at h
        rw [← Option.some.inj h.2]
        exact hlength
    · obtain ⟨d, -, rfl⟩ := Option.map_eq_some_iff.mp h
      exact Nat.le_refl _

theorem length_character? {cs : List Char} {p : Char × List Char} (h : character? cs = some p) :
    p.2.length < cs.length := by
  cases cs with
  | nil => cases h
  | cons c cs =>
    rw [character?] at h
    split at h
    · exact Nat.lt_succ_of_lt (length_escape? h)
    · rw [Option.ite_none_left_eq_some] at h
      obtain ⟨-, ⟨⟩⟩ := h
      exact Nat.lt_succ_self _

/-- The characters up to the closing quote, and what follows it. -/
def contents? (cs : List Char) : Option (List Char × List Char) :=
  if cs.head? = some '"' then some ([], cs.tail)
  else
    match _h : character? cs with
    | none => none
    | some p => (contents? p.2).map fun q => (p.1 :: q.1, q.2)
termination_by cs.length
decreasing_by exact length_character? _h

theorem length_contents? {cs : List Char} {q : List Char × List Char}
    (h : contents? cs = some q) : q.2.length ≤ cs.length := by
  fun_induction contents? cs generalizing q with
  | case1 cs hhead =>
    cases h
    simp
  | case2 => cases h
  | case3 cs hhead p hp ih =>
    obtain ⟨q, hq, rfl⟩ := Option.map_eq_some_iff.mp h
    have := ih hq
    have := length_character? hp
    dsimp only
    omega

/-- A character of a string is not mistaken for the closing quote. -/
theorem Character.head? {t : List Char} {c : Char} (h : Character t c) :
    ∃ d ds, t = d :: ds ∧ d ≠ '"' := by
  cases h with
  | plain hc hquote hslash => exact ⟨_, _, rfl, hquote⟩
  | short | code | pair => exact ⟨_, _, rfl, by decide⟩

theorem contents?_character {t u : List Char} {c : Char} (h : Character t c) :
    contents? (t ++ u) = (contents? u).map fun q => (c :: q.1, q.2) := by
  obtain ⟨d, ds, rfl, hd⟩ := h.head?
  have hhead : (d :: ds ++ u).head? ≠ some '"' := by simpa using hd
  have hread := character?_append h u
  rw [contents?, if_neg hhead]
  split
  · rename_i hnone
    rw [hread] at hnone
    cases hnone
  · rename_i p hp
    rw [hread] at hp
    cases hp
    rfl

theorem contents?_append {t cs : List Char} (h : Contents t cs) (rest : List Char) :
    contents? (t ++ '"' :: rest) = some (cs, rest) := by
  induction h with
  | nil =>
    have hhead : ('"' :: rest).head? = some '"' := rfl
    rw [List.nil_append, contents?, if_pos hhead, List.tail_cons]
  | cons hcharacter hcontents ih =>
    rw [List.append_assoc, contents?_character hcharacter, ih]
    rfl

theorem IsWhole.digits {cs : List Char} (h : IsWhole cs) :
    ∃ d ds, cs = d :: ds ∧ ∀ c ∈ cs, c.isDigit = true := by
  rcases h with rfl | ⟨hne, -, hdigits⟩
  · exact ⟨_, _, rfl, List.all_eq_true.mp rfl⟩
  · obtain ⟨d, ds, rfl⟩ := List.exists_cons_of_ne_nil hne
    exact ⟨d, ds, rfl, hdigits⟩

/-- A number begins with a digit or a minus sign. -/
theorem Number.begins {t : List Char} {q : ℚ} (h : Number t q) :
    ∃ c cs, t = c :: cs ∧ (c = '-' ∨ c.isDigit = true) := by
  cases h with
  | mk hsign hwhole hpoint hfraction hpower =>
    obtain ⟨d, ds, rfl, hdigits⟩ := hwhole.digits
    rcases hsign with rfl | rfl
    · exact ⟨d, _, rfl, .inr (hdigits d (by simp))⟩
    · exact ⟨'-', _, rfl, .inl rfl⟩

theorem number?_of_number {t : List Char} {q : ℚ} (h : Number t q) : number? t = some q := by
  cases h with
  | @mk sign whole point fraction power e hsign hwhole hpoint hfraction hpower =>
    obtain ⟨d, ds, rfl, hdigits⟩ := hwhole.digits
    have hunsigned := Decimal.ofUnsigned?_eq_some_iff.mpr
      (Decimal.Unsigned.mk hdigits hpoint hpower (by simp))
    rcases hsign with rfl | rfl
    · have hhead : ([] ++ (d :: ds ++ (point ++ power))).head? ≠ some '-' := by
        have hd := ne_of_property (hdigits d (by simp)) (rfl : '-'.isDigit = false)
        simpa using hd
      rw [number?, if_neg hhead, List.nil_append, hunsigned]
      rfl
    · have hhead : (['-'] ++ (d :: ds ++ (point ++ power))).head? = some '-' := rfl
      rw [number?, if_pos hhead, List.singleton_append, List.tail_cons, hunsigned]
      rfl

theorem scalar?_of_number {t : List Char} {q : ℚ} (h : Number t q) :
    scalar? t = some (.number q) := by
  have hread := number?_of_number h
  obtain ⟨c, cs, rfl, hc⟩ := h.begins
  have hne {d : Char} (hdash : d ≠ '-') (hdigit : d.isDigit = false) (ds : List Char) :
      c :: cs ≠ d :: ds := by
    rintro ⟨⟩
    rcases hc with hc | hc
    · exact hdash hc
    · exact ne_of_property hc hdigit rfl
  rw [scalar?, if_neg (hne (by decide) rfl _), if_neg (hne (by decide) rfl _),
    if_neg (hne (by decide) rfl _), hread]
  rfl

theorem isPlain_of_isDigit {c : Char} (h : c.isDigit = true) : isPlain c = true := by
  simp [isPlain, Char.isAlphanum, h]

theorem isPlain_of_isBlank {c : Char} (h : isBlank c = true) : isPlain c = false := by
  simp only [isBlank, Bool.or_eq_true, decide_eq_true_eq, or_assoc] at h
  rcases h with rfl | rfl | rfl | rfl <;> rfl

theorem isBlank_of_isPlain {c : Char} (h : isPlain c = true) : isBlank c = false := by
  cases hblank : isBlank c with
  | false => rfl
  | true =>
    rw [isPlain_of_isBlank hblank] at h
    cases h

theorem plain_of_isFraction {point fraction : List Char} (h : Decimal.IsFraction point fraction) :
    ∀ c ∈ point, isPlain c = true := by
  cases h with
  | absent => simp
  | written hdigits =>
    exact List.forall_mem_cons.mpr ⟨rfl, fun c hc => isPlain_of_isDigit (hdigits c hc)⟩

theorem plain_of_isPower {power : List Char} {e : ℤ} (h : Decimal.IsPower power e) :
    ∀ c ∈ power, isPlain c = true := by
  cases h with
  | absent => simp
  | written hmark hwhole =>
    cases hwhole with
    | mk hsign hne hdigits =>
      refine List.forall_mem_cons.mpr ⟨?_, List.forall_mem_append.mpr ⟨?_, ?_⟩⟩
      · rcases hmark with rfl | rfl <;> rfl
      · rcases hsign with rfl | rfl | rfl
        · simp
        · exact List.all_eq_true.mp rfl
        · exact List.all_eq_true.mp rfl
      · exact fun c hc => isPlain_of_isDigit (hdigits c hc)

theorem Number.plain {t : List Char} {q : ℚ} (h : Number t q) : ∀ c ∈ t, isPlain c = true := by
  cases h with
  | mk hsign hwhole hpoint hfraction hpower =>
    obtain ⟨-, -, -, hdigits⟩ := hwhole.digits
    refine List.forall_mem_append.mpr ⟨?_, List.forall_mem_append.mpr
      ⟨fun c hc => isPlain_of_isDigit (hdigits c hc), List.forall_mem_append.mpr
        ⟨plain_of_isFraction hpoint, plain_of_isPower hpower⟩⟩⟩
    rcases hsign with rfl | rfl
    · simp
    · exact List.all_eq_true.mp rfl

/-- A list that is still open, with what it holds so far. -/
inductive Frame where
  | array (items : List Json)
  | object (members : List (String × Json)) (key : String)

/-- What has to come next: a value, a key, the colon behind a key, or what can follow a value. -/
inductive Phase where
  | value
  | key (members : List (String × Json))
  | colon (members : List (String × Json)) (key : String)
  | after (v : Json)

structure State where
  phase : Phase
  stack : List Frame

/-- Whether a mark closes a list that was only just opened. -/
def closes (mark : Char) (cs : List Char) : Bool := (cs.dropWhile isBlank).head? = some mark

/-- The first step into a value. -/
def enter (stack : List Frame) (c : Char) (cs : List Char) : Option (State × List Char) :=
  if c = '[' then
    if closes ']' cs then some (⟨.after (.array []), stack⟩, (cs.dropWhile isBlank).tail)
    else some (⟨.value, .array [] :: stack⟩, cs)
  else if c = '{' then
    if closes '}' cs then some (⟨.after (.object []), stack⟩, (cs.dropWhile isBlank).tail)
    else some (⟨.key [], stack⟩, cs)
  else if c = '"' then
    (contents? cs).map fun q => (⟨.after (.string (String.ofList q.1)), stack⟩, q.2)
  else
    (scalar? (c :: cs.takeWhile isPlain)).map fun v => (⟨.after v, stack⟩, cs.dropWhile isPlain)

/-- The step behind a value in a list: another one follows, or the list ends. -/
def proceed (v : Json) (stack : List Frame) (c : Char) : Frame → Option State
  | .array items =>
    if c = ',' then some ⟨.value, .array (items ++ [v]) :: stack⟩
    else if c = ']' then some ⟨.after (.array (items ++ [v])), stack⟩
    else none
  | .object members key =>
    if c = ',' then some ⟨.key (members ++ [(key, v)]), stack⟩
    else if c = '}' then some ⟨.after (.object (members ++ [(key, v)])), stack⟩
    else none

def step (s : State) (c : Char) (cs : List Char) : Option (State × List Char) :=
  match s.phase, s.stack with
  | .value, stack => enter stack c cs
  | .key members, stack =>
    if c = '"' then
      (contents? cs).map fun q => (⟨.colon members (String.ofList q.1), stack⟩, q.2)
    else none
  | .colon members key, stack =>
    if c = ':' then some (⟨.value, .object members key :: stack⟩, cs) else none
  | .after v, frame :: stack => (proceed v stack c frame).map (·, cs)
  | .after _, [] => none

theorem length_enter {stack : List Frame} {c : Char} {cs : List Char} {p : State × List Char}
    (h : enter stack c cs = some p) : p.2.length ≤ cs.length := by
  have hdrop (f : Char → Bool) : (cs.dropWhile f).length ≤ cs.length :=
    (List.dropWhile_suffix f).length_le
  have htail : (cs.dropWhile isBlank).tail.length ≤ cs.length :=
    Nat.le_trans (by simp) (hdrop isBlank)
  unfold enter at h
  split at h
  · split at h <;> cases h
    · exact htail
    · exact Nat.le_refl _
  split at h
  · split at h <;> cases h
    · exact htail
    · exact Nat.le_refl _
  split at h
  · obtain ⟨q, hq, rfl⟩ := Option.map_eq_some_iff.mp h
    exact length_contents? hq
  · obtain ⟨v, -, rfl⟩ := Option.map_eq_some_iff.mp h
    exact hdrop isPlain

theorem length_step {s : State} {c : Char} {cs : List Char} {p : State × List Char}
    (h : step s c cs = some p) : p.2.length ≤ cs.length := by
  unfold step at h
  split at h
  · exact length_enter h
  · rw [Option.ite_none_right_eq_some] at h
    obtain ⟨q, hq, rfl⟩ := Option.map_eq_some_iff.mp h.2
    exact length_contents? hq
  · rw [Option.ite_none_right_eq_some] at h
    obtain ⟨-, ⟨⟩⟩ := h
    exact Nat.le_refl _
  · obtain ⟨s', -, rfl⟩ := Option.map_eq_some_iff.mp h
    exact Nat.le_refl _
  · cases h

/-- The value at the end of a text, if nothing is open there. -/
def State.result? : State → Option Json
  | ⟨.after v, []⟩ => some v
  | _ => none

def read (s : State) : List Char → Option Json
  | [] => s.result?
  | c :: cs =>
    if isBlank c then read s cs
    else
      match _h : step s c cs with
      | none => none
      | some p => read p.1 p.2
termination_by cs => cs.length
decreasing_by
  · exact Nat.lt_succ_self _
  · exact Nat.lt_succ_of_le (length_step _h)

def decode (text : String) : Option Json := read ⟨.value, []⟩ text.toList

theorem read_gap {s : State} {w rest : List Char} (h : Gap w) :
    read s (w ++ rest) = read s rest := by
  induction w with
  | nil => rfl
  | cons c w ih =>
    rw [List.cons_append, read, if_pos (h c (by simp)), ih fun d hd => h d (by simp [hd])]

theorem read_step {s s' : State} {c : Char} {cs rest : List Char} (hc : isBlank c = false)
    (h : step s c cs = some (s', rest)) : read s (c :: cs) = read s' rest := by
  rw [read, if_neg (by simp [hc])]
  split
  · rename_i hnone
    rw [h] at hnone
    cases hnone
  · rename_i p hp
    rw [h] at hp
    cases hp
    rfl

/-- What can follow a number or a word. -/
def Ends (rest : List Char) : Prop := rest.head?.any isPlain = false

theorem Ends.gap {w rest : List Char} (hw : Gap w) (h : Ends rest) : Ends (w ++ rest) := by
  cases w with
  | nil => exact h
  | cons c w => exact isPlain_of_isBlank (hw c (by simp))

/-- Behind the blanks at its beginning stands no mark that closes a list. -/
def Opens (t : List Char) : Prop :=
  ∃ w c cs, t = w ++ c :: cs ∧ Gap w ∧ isBlank c = false ∧ c ≠ ']' ∧ c ≠ '}'

theorem closes_append {w cs : List Char} {mark c : Char} (hw : Gap w) (hc : isBlank c = false) :
    closes mark (w ++ c :: cs) = decide (c = mark) := by
  have hstop : (c :: cs).head?.any isBlank = false := hc
  have hdrop := dropWhile_stop hw hstop
  simp [closes, hdrop]

theorem Opens.closes {t : List Char} (h : Opens t) (rest : List Char) :
    closes ']' (t ++ rest) = false ∧ closes '}' (t ++ rest) = false := by
  obtain ⟨w, c, cs, rfl, hw, hc, hbracket, hbrace⟩ := h
  rw [List.append_assoc, List.cons_append, closes_append hw hc, closes_append hw hc]
  exact ⟨decide_eq_false hbracket, decide_eq_false hbrace⟩

theorem Number.opens {t : List Char} {q : ℚ} (h : Number t q) : Opens t := by
  have hplain := h.plain
  obtain ⟨c, cs, rfl, -⟩ := h.begins
  have hc := hplain c (by simp)
  exact ⟨[], c, cs, rfl, gap_nil, isBlank_of_isPlain hc, ne_of_property hc rfl,
    ne_of_property hc rfl⟩

theorem Spells.opens {t : List Char} {p : Part} (h : Spells t p) : Opens t := by
  have hstart {c : Char} {cs : List Char} (hc : isBlank c = false) (hbracket : c ≠ ']')
      (hbrace : c ≠ '}') : Opens (c :: cs) :=
    ⟨[], c, cs, rfl, gap_nil, hc, hbracket, hbrace⟩
  have hmore {t : List Char} (u : List Char) (ht : Opens t) : Opens (t ++ u) := by
    obtain ⟨w, c, cs, rfl, hw⟩ := ht
    exact ⟨w, c, cs ++ u, by simp, hw⟩
  have hpad {w t : List Char} (hw : Gap w) (ht : Opens t) : Opens (w ++ t) := by
    obtain ⟨w', c, cs, rfl, hw', hc⟩ := ht
    exact ⟨w ++ w', c, cs, by simp, List.forall_mem_append.mpr ⟨hw, hw'⟩, hc⟩
  induction h with
  | null | yes | no | string | noItems | array | noMembers | object =>
    exact hstart rfl (by decide) (by decide)
  | number h => exact h.opens
  | element hw _ _ ih => exact hpad hw (hmore _ ih)
  | lastItem _ ih => exact ih
  | items _ _ ih _ => exact hmore _ ih
  | member hw => exact hpad hw (hstart rfl (by decide) (by decide))
  | lastMember _ ih => exact ih
  | members _ _ ih _ => exact hmore _ ih

/-- What the decoder makes of a part of a text, whatever is still open around it. The items of a
list are added to those that it holds. -/
def Decodes (t : List Char) : Part → Prop
  | .value v => ∀ stack rest, Ends rest →
      read ⟨.value, stack⟩ (t ++ rest) = read ⟨.after v, stack⟩ rest
  | .element v => ∀ stack rest, Ends rest →
      read ⟨.value, stack⟩ (t ++ rest) = read ⟨.after v, stack⟩ rest
  | .items vs => ∀ us stack rest,
      read ⟨.value, .array us :: stack⟩ (t ++ ']' :: rest) =
        read ⟨.after (.array (us ++ vs)), stack⟩ rest
  | .member key v => ∀ ms stack rest, Ends rest →
      read ⟨.key ms, stack⟩ (t ++ rest) = read ⟨.after v, .object ms key :: stack⟩ rest
  | .members ns => ∀ ms stack rest,
      read ⟨.key ms, stack⟩ (t ++ '}' :: rest) = read ⟨.after (.object (ms ++ ns)), stack⟩ rest

variable {t u w w' : List Char} {v : Json}

theorem decodes_scalar {c : Char} {cs : List Char} (hplain : ∀ d ∈ c :: cs, isPlain d = true)
    (h : scalar? (c :: cs) = some v) : Decodes (c :: cs) (.value v) := by
  intro stack rest hrest
  have hc : isPlain c = true := hplain c (by simp)
  have hcs : ∀ d ∈ cs, isPlain d = true := fun d hd => hplain d (by simp [hd])
  have hne {d : Char} (hd : isPlain d = false) : c ≠ d := ne_of_property hc hd
  apply read_step (isBlank_of_isPlain hc)
  change enter stack c (cs ++ rest) = _
  rw [enter, if_neg (hne rfl), if_neg (hne rfl), if_neg (hne rfl), takeWhile_stop hcs hrest,
    dropWhile_stop hcs hrest, h]
  rfl

theorem decodes_number {q : ℚ} (h : Number t q) : Decodes t (.value (.number q)) := by
  have hread := scalar?_of_number h
  have hplain := h.plain
  obtain ⟨c, cs, rfl, -⟩ := h.begins
  exact decodes_scalar hplain hread

theorem decodes_string {s : String} (h : Contents t s.toList) :
    Decodes ('"' :: (t ++ ['"'])) (.value (.string s)) := by
  intro stack rest _
  have hread := contents?_append h rest
  rw [List.cons_append, List.append_assoc, List.singleton_append]
  apply read_step rfl
  change enter stack '"' (t ++ '"' :: rest) = _
  simp [enter, hread]

theorem decodes_noItems (hw : Gap w) : Decodes ('[' :: (w ++ [']'])) (.value (.array [])) := by
  intro stack rest _
  have hstop : (']' :: rest).head?.any isBlank = false := rfl
  rw [List.cons_append, List.append_assoc, List.singleton_append]
  apply read_step rfl
  change enter stack '[' (w ++ ']' :: rest) = _
  rw [enter, if_pos rfl, closes_append hw rfl, if_pos (by simp), dropWhile_stop hw hstop]
  rfl

theorem decodes_array {vs : List Json} (hopens : Opens t) (h : Decodes t (.items vs)) :
    Decodes ('[' :: (t ++ [']'])) (.value (.array vs)) := by
  intro stack rest _
  -- The bracket is not closed at once, so the first item is next.
  have hstep : step ⟨.value, stack⟩ '[' (t ++ ']' :: rest) =
      some (⟨.value, .array [] :: stack⟩, t ++ ']' :: rest) := by
    change enter stack '[' (t ++ ']' :: rest) = _
    rw [enter, if_pos rfl, (hopens.closes _).1]
    rfl
  rw [List.cons_append, List.append_assoc, List.singleton_append, read_step rfl hstep]
  exact h [] stack rest

theorem decodes_noMembers (hw : Gap w) :
    Decodes ('{' :: (w ++ ['}'])) (.value (.object [])) := by
  intro stack rest _
  have hstop : ('}' :: rest).head?.any isBlank = false := rfl
  rw [List.cons_append, List.append_assoc, List.singleton_append]
  apply read_step rfl
  change enter stack '{' (w ++ '}' :: rest) = _
  rw [enter, if_neg (by decide), if_pos rfl, closes_append hw rfl, if_pos (by simp),
    dropWhile_stop hw hstop]
  rfl

theorem decodes_object {ms : List (String × Json)} (hopens : Opens t)
    (h : Decodes t (.members ms)) : Decodes ('{' :: (t ++ ['}'])) (.value (.object ms)) := by
  intro stack rest _
  have hstep : step ⟨.value, stack⟩ '{' (t ++ '}' :: rest) =
      some (⟨.key [], stack⟩, t ++ '}' :: rest) := by
    change enter stack '{' (t ++ '}' :: rest) = _
    rw [enter, if_neg (by decide), if_pos rfl, (hopens.closes _).2]
    rfl
  rw [List.cons_append, List.append_assoc, List.singleton_append, read_step rfl hstep]
  exact h [] stack rest

theorem decodes_element (hw : Gap w) (h : Decodes t (.value v)) (hw' : Gap w') :
    Decodes (w ++ (t ++ w')) (.element v) := by
  intro stack rest hrest
  rw [List.append_assoc, List.append_assoc, read_gap hw, h stack _ (hrest.gap hw'),
    read_gap hw']

theorem decodes_lastItem (h : Decodes t (.element v)) : Decodes t (.items [v]) := by
  intro us stack rest
  have hends : Ends (']' :: rest) := rfl
  rw [h _ _ hends]
  exact read_step rfl rfl

theorem decodes_items {vs : List Json} (h : Decodes t (.element v)) (hu : Decodes u (.items vs)) :
    Decodes (t ++ ',' :: u) (.items (v :: vs)) := by
  intro us stack rest
  have hends : Ends (',' :: (u ++ ']' :: rest)) := rfl
  have hstep : step ⟨.after v, .array us :: stack⟩ ',' (u ++ ']' :: rest) =
      some (⟨.value, .array (us ++ [v]) :: stack⟩, u ++ ']' :: rest) := rfl
  rw [List.append_assoc, List.cons_append, h _ _ hends, read_step rfl hstep, hu,
    List.append_assoc, List.singleton_append]

theorem decodes_member {k : List Char} {key : String} (hw : Gap w) (hk : Contents k key.toList)
    (hw' : Gap w') (h : Decodes t (.element v)) :
    Decodes (w ++ '"' :: (k ++ '"' :: (w' ++ ':' :: t))) (.member key v) := by
  intro ms stack rest hrest
  have hkey : step ⟨.key ms, stack⟩ '"' (k ++ '"' :: (w' ++ ':' :: (t ++ rest))) =
      some (⟨.colon ms key, stack⟩, w' ++ ':' :: (t ++ rest)) := by
    have hread := contents?_append hk (w' ++ ':' :: (t ++ rest))
    simp [step, hread]
  have hcolon : step ⟨.colon ms key, stack⟩ ':' (t ++ rest) =
      some (⟨.value, .object ms key :: stack⟩, t ++ rest) := rfl
  have htext : w ++ '"' :: (k ++ '"' :: (w' ++ ':' :: t)) ++ rest =
      w ++ '"' :: (k ++ '"' :: (w' ++ ':' :: (t ++ rest))) := by simp
  rw [htext, read_gap hw, read_step rfl hkey, read_gap hw', read_step rfl hcolon]
  exact h _ rest hrest

theorem decodes_lastMember {key : String} (h : Decodes t (.member key v)) :
    Decodes t (.members [(key, v)]) := by
  intro ms stack rest
  have hends : Ends ('}' :: rest) := rfl
  rw [h _ _ _ hends]
  exact read_step rfl rfl

theorem decodes_members {key : String} {ns : List (String × Json)} (h : Decodes t (.member key v))
    (hu : Decodes u (.members ns)) : Decodes (t ++ ',' :: u) (.members ((key, v) :: ns)) := by
  intro ms stack rest
  have hends : Ends (',' :: (u ++ '}' :: rest)) := rfl
  have hstep : step ⟨.after v, .object ms key :: stack⟩ ',' (u ++ '}' :: rest) =
      some (⟨.key (ms ++ [(key, v)]), stack⟩, u ++ '}' :: rest) := rfl
  rw [List.append_assoc, List.cons_append, h _ _ _ hends, read_step rfl hstep, hu,
    List.append_assoc, List.singleton_append]

/-- One lemma above for each rule of the grammar. -/
theorem Spells.decodes {p : Part} (h : Spells t p) : Decodes t p := by
  induction h with
  | null => exact decodes_scalar (List.all_eq_true.mp rfl) rfl
  | yes => exact decodes_scalar (List.all_eq_true.mp rfl) rfl
  | no => exact decodes_scalar (List.all_eq_true.mp rfl) rfl
  | number h => exact decodes_number h
  | string h => exact decodes_string h
  | noItems hw => exact decodes_noItems hw
  | array h ih => exact decodes_array h.opens ih
  | noMembers hw => exact decodes_noMembers hw
  | object h ih => exact decodes_object h.opens ih
  | element hw _ hw' ih => exact decodes_element hw ih hw'
  | lastItem _ ih => exact decodes_lastItem ih
  | items _ _ ih ihu => exact decodes_items ih ihu
  | member hw hk hw' _ ih => exact decodes_member hw hk hw' ih
  | lastMember _ ih => exact decodes_lastMember ih
  | members _ _ ih ihu => exact decodes_members ih ihu

/-- A text is decoded to the value that it spells. -/
theorem decode_of_spells {text : String} (h : Spells text.toList (.element v)) :
    decode text = some v := by
  have hread := h.decodes [] [] rfl
  rw [List.append_nil] at hread
  rw [decode, hread, read]
  rfl

/-- No text spells two values. -/
theorem Spells.unique {v v' : Json} (h : Spells t (.element v)) (h' : Spells t (.element v')) :
    v = v' := by
  rw [← String.toList_ofList (l := t)] at h h'
  have hsame := decode_of_spells h
  rw [decode_of_spells h'] at hsame
  exact (Option.some.inj hsame).symm

end Json

end Cartosheet
