import Cartosheet.Proofs.ClosingMarks
import Cartosheet.Proofs.NumberTokens

namespace Cartosheet

/-- An unescaped text begins with a name that stands for itself, empty if none begins there. -/
theorem exists_name {cs : List Char} (h : Unescaped cs) :
    ∃ w rest, cs = w ++ rest ∧ (∀ c ∈ w, isNameChar c = true) ∧
      rest.head?.any isNameChar = false ∧ name cs = ⟨w, w⟩ := by
  obtain ⟨w, rest, rfl, hw, hstop⟩ := exists_run isNameChar cs
  have hrest : name rest = .empty := by
    cases rest with
    | nil => rw [name]
    | cons c rest => exact name_eq_empty hstop (h c (by simp)).1
  refine ⟨w, rest, rfl, hw, hstop, name_append ?_ hrest⟩
  intro c hc
  exact ⟨hw c hc, (h c (by simp [hc])).2.1⟩

namespace Outline

variable {cs mid rest w x : List Char}

theorem isNameStart_eq_false {c : Char} (h : isNameChar c = false) :
    isNameStart c = false ∧ c ≠ '-' := by
  simp only [isNameChar, Bool.or_eq_false_iff, decide_eq_false_iff_not] at h
  exact ⟨h.1.1, h.2⟩

theorem beginsName_of_stop (h : x.head?.any isNameChar = false) : beginsName x = false := by
  cases x with
  | nil => rfl
  | cons c x =>
    obtain ⟨hstart, hyphen⟩ := isNameStart_eq_false h
    simp [beginsName, hstart, hyphen]

/-- Whether a name begins is settled by the word. -/
theorem beginsName_append (h : x.head?.any isNameChar = false) :
    beginsName (w ++ x) = beginsName w := by
  cases w with
  | nil => exact beginsName_of_stop h
  | cons c w =>
    cases w with
    | cons d w => rfl
    | nil =>
      cases x with
      | nil => rfl
      | cons d x =>
        obtain ⟨hstart, hyphen⟩ := isNameStart_eq_false h
        simp [beginsName, hstart, hyphen]

theorem startsName_eq (h : Unescaped cs) : startsName cs = beginsName cs := by
  cases cs with
  | nil => rfl
  | cons c cs =>
    have hc : c ≠ '\\' := (h c (by simp)).1
    by_cases hyphen : c = '-'
    · subst hyphen
      cases cs with
      | nil => rfl
      | cons d cs =>
        have hd : d ≠ '\\' := (h d (by simp)).1
        simp [startsName, beginsName, isNameStart, hd]
    · simp [startsName, beginsName, hc, hyphen]

/-- Whatever the outline of what follows, with these characters before it they are loose. -/
def Leads (x mid : List Char) : Prop :=
  ∀ outer ps rest, Divides outer mid ps rest →
    Divides outer (x ++ mid) (x.map .loose ++ ps) rest

theorem Leads.of_piece (h : Piece (x ++ mid) (x.map .loose) mid) : Leads x mid :=
  fun _ _ _ hmid => .piece h hmid

theorem Leads.append {y : List Char} (hx : Leads x (y ++ mid)) (hy : Leads y mid) :
    Leads (x ++ y) mid := by
  intro outer ps rest hmid
  have h := hx outer _ rest (hy outer ps rest hmid)
  rwa [← List.append_assoc, ← List.append_assoc, ← List.map_append] at h

/-- Characters of a word, where the word goes on behind them but no name begins there. -/
theorem leads_word {sign : List Char} (hsign : sign = [] ∨ sign = ['#'] ∨ sign = ['@'])
    (hne : sign ++ x ≠ []) (hx : ∀ c ∈ x, isNameChar c = true) (hmid : beginsName mid = false)
    (hname : sign = [] → beginsName (x ++ mid) = false) : Leads (sign ++ x) mid := by
  intro outer ps rest h
  obtain ⟨w, mid', rfl, hchars, hstop⟩ := exists_run isNameChar mid
  -- the rest of the word comes off the outline of what follows
  obtain ⟨ps', rfl, hrest⟩ : ∃ ps', ps = w.map .loose ++ ps' ∧ Divides outer mid' ps' rest := by
    cases w with
    | nil => exact ⟨ps, rfl, h⟩
    | cons c w =>
      rw [beginsName_append hstop] at hmid
      refine Divides.of_piece (.word (.inl rfl) (by simp) hchars hstop ?_) h
      intro _ hbegins
      rw [hmid] at hbegins
      cases hbegins
  have hword : Piece (sign ++ ((x ++ w) ++ mid')) ((sign ++ (x ++ w)).map .loose) mid' := by
    refine .word hsign ?_ ?_ hstop ?_
    · rw [← List.append_assoc]
      exact List.append_ne_nil_of_left_ne_nil hne w
    · intro c hc
      exact (List.mem_append.mp hc).elim (hx c) (hchars c)
    · intro hs hbegins
      rw [← List.append_assoc, beginsName_append hstop, hbegins] at hname
      cases hname hs
  simpa using Divides.piece hword hrest

/-- A sign with a word behind it, or with the beginning of a word that is no name. -/
theorem leads_signed {d : Char} (hd : d = '#' ∨ d = '@') (hw : ∀ c ∈ w, isNameChar c = true)
    (hmid : beginsName mid = false) : Leads (d :: w) mid := by
  have hsign : [d] = [] ∨ [d] = ['#'] ∨ [d] = ['@'] := by simpa using hd
  have h : Leads ([d] ++ w) mid := leads_word hsign (by simp) hw hmid (by simp)
  exact h

theorem leads_names (hne : x ≠ []) (hx : ∀ c ∈ x, isNameChar c = true)
    (hmid : beginsName mid = false) (hname : beginsName (x ++ mid) = false) : Leads x mid := by
  have h : Leads ([] ++ x) mid := leads_word (.inl rfl) hne hx hmid fun _ => hname
  exact h

/-- A whole word, if it is no name or no parenthesis follows it. -/
theorem Leads.of_word (hne : w ≠ []) (hw : ∀ c ∈ w, isNameChar c = true)
    (hstop : mid.head?.any isNameChar = false)
    (hcall : beginsName w = true → mid.head? ≠ some '(') : Leads w mid := by
  have h : Piece ([] ++ (w ++ mid)) (([] ++ w).map .loose) mid :=
    .word (.inl rfl) hne hw hstop fun _ => hcall
  exact .of_piece h

theorem isOther_of_isBlank {c : Char} (h : isBlank c = true) : isOther c = true := by
  simp only [isBlank, isNewline, Bool.or_eq_true, decide_eq_true_eq] at h
  rcases h with (rfl | rfl) | (rfl | rfl) | rfl <;> rfl

/-- A character that begins neither a comment nor a mark. -/
theorem leads_other {c : Char} (hc : isOther c = true) (hslash : c ≠ '/') (hangle : c ≠ '<') :
    Leads [c] mid :=
  .of_piece (.other hc (not_isPrefix_cons hslash) (not_isPrefix_cons hangle))

theorem leads_blanks (hx : ∀ c ∈ x, isBlank c = true) : Leads x mid := by
  induction x with
  | nil => exact fun _ _ _ h => h
  | cons c x ih =>
    have hc : isBlank c = true := hx c (by simp)
    refine Leads.append (x := [c]) (leads_other (isOther_of_isBlank hc) ?_ ?_)
      (ih fun d hd => hx d (by simp [hd]))
    · exact ne_of_property hc rfl
    · exact ne_of_property hc rfl

/-- Characters that are loose with more of a word behind them, whatever that is, as long as no name
begins where they end. -/
def Firm (x : List Char) : Prop :=
  ∀ w mid, (∀ c ∈ w, isNameChar c = true) → beginsName mid = false → Leads (x ++ w) mid

namespace Firm

variable {y : List Char}

theorem leads (h : Firm x) (hmid : beginsName mid = false) : Leads x mid := by
  have hx := h [] mid (by simp) hmid
  rwa [List.append_nil] at hx

theorem names (h : Firm x) (hw : ∀ c ∈ w, isNameChar c = true) : Firm (x ++ w) := by
  intro v mid hv hmid
  rw [List.append_assoc]
  refine h (w ++ v) mid ?_ hmid
  intro c hc
  exact (List.mem_append.mp hc).elim (hw c) (hv c)

theorem other {c : Char} (h : Firm x) (hc : isOther c = true) (hslash : c ≠ '/')
    (hangle : c ≠ '<') : Firm (c :: x) := by
  intro w mid hw hmid
  exact Leads.append (x := [c]) (leads_other hc hslash hangle) (h w mid hw hmid)

/-- One text behind another, where no name begins between them. -/
theorem append (hx : Firm x) (hy : Firm y) (hbegins : ∀ v, beginsName (y ++ v) = false) :
    Firm (x ++ y) := by
  intro w mid hw hmid
  rw [List.append_assoc]
  refine (hx.leads ?_).append (hy w mid hw hmid)
  rw [List.append_assoc]
  exact hbegins _

end Firm

theorem isNameStart_of_isDigit {c : Char} (h : c.isDigit = true) : isNameStart c = false := by
  have halpha : c.isAlpha = false := by
    cases halpha : c.isAlpha with
    | false => rfl
    | true =>
      rw [isDigit_eq_false_of_isAlpha halpha] at h
      cases h
  have hnine : c.val ≤ '9'.val := by grind [Char.isDigit]
  have hsmall : c.toNat < 0x80 := Nat.lt_of_le_of_lt (UInt32.le_iff_toNat_le.mp hnine) (by decide)
  simp [isNameStart, halpha, ne_of_property h (d := '_') rfl, ne_of_property h (d := '\x00') rfl,
    hsmall]

theorem isNameChar_of_isDigit {c : Char} (h : c.isDigit = true) : isNameChar c = true := by
  simp [isNameChar, h]

/-- Digits begin no name, with or without a hyphen before them. -/
theorem beginsName_digits (hne : x ≠ []) (hx : ∀ c ∈ x, c.isDigit = true) (v : List Char) :
    beginsName (x ++ v) = false ∧ beginsName ('-' :: (x ++ v)) = false := by
  cases x with
  | nil => exact absurd rfl hne
  | cons c x =>
    have hc := hx c (by simp)
    have hyphen : c ≠ '-' := ne_of_property hc rfl
    have hbegins : isNameStart '-' = false := rfl
    simp [beginsName, isNameStart_of_isDigit hc, hyphen, hbegins]

theorem firm_digits (hne : x ≠ []) (hx : ∀ c ∈ x, c.isDigit = true) : Firm x := by
  intro w mid hw hmid
  refine leads_names (by simp [hne]) ?_ hmid ?_
  · intro c hc
    exact (List.mem_append.mp hc).elim (fun hc => isNameChar_of_isDigit (hx c hc)) (hw c)
  · rw [List.append_assoc]
    exact (beginsName_digits hne hx _).1

open Decimal (IsSign IsFraction IsPower)

theorem Firm.power {power : List Char} {e : Int} (h : Firm x) (hpower : IsPower power e) :
    Firm (x ++ power) := by
  cases hpower with
  | absent => rwa [List.append_nil]
  | @written mark _ _ hmark hwhole =>
    obtain ⟨hsign, hne, hdigits⟩ := hwhole
    have hmark' : isNameChar mark = true := by rcases hmark with rfl | rfl <;> rfl
    have hnames (c : Char) (hc : c ∈ _) : isNameChar c = true :=
      isNameChar_of_isDigit (hdigits c hc)
    rcases hsign with rfl | rfl | rfl
    · exact h.names (by simpa [hmark'] using hnames)
    · have hmarked : Firm (x ++ [mark]) := h.names (by simpa using hmark')
      have hplus : Firm ('+' :: _) := (firm_digits hne hdigits).other rfl (by decide) (by decide)
      simpa using hmarked.append hplus fun _ => rfl
    · have hhyphen : isNameChar '-' = true := rfl
      exact h.names (by simpa [hmark', hhyphen] using hnames)

theorem Firm.sign {sign : List Char} (h : Firm x) (hsign : IsSign sign)
    (hbegins : ∀ v, beginsName (x ++ v) = false ∧ beginsName ('-' :: (x ++ v)) = false) :
    Firm (sign ++ x) := by
  rcases hsign with rfl | rfl | rfl
  · exact h
  · exact h.other rfl (by decide) (by decide)
  · intro w mid hw hmid
    have hhyphen : Leads ['-'] (x ++ (w ++ mid)) :=
      leads_names (by simp) (by simp [isNameChar]) (hbegins _).1 (hbegins _).2
    rw [← List.append_assoc] at hhyphen
    exact hhyphen.append (h w mid hw hmid)

theorem firm_point (hne : x ≠ []) (hx : ∀ c ∈ x, c.isDigit = true) : Firm ('.' :: x) :=
  (firm_digits hne hx).other rfl (by decide) (by decide)

/-- A number with any unit, or with none where no unit begins. -/
theorem firm_numberPart (h : startsNumber cs = true) : Firm (numberPart cs) := by
  obtain ⟨sign, whole, point, fraction, power, e, hparts, hsign, hwhole, hfraction, hpoint, hpower,
    hne⟩ := numberPart_eq h
  rw [hparts, ← List.append_assoc whole]
  by_cases hnil : whole = []
  · subst hnil
    cases hfraction with
    | absent => exact absurd rfl hne
    | written hdigits =>
      refine Firm.sign ((firm_point hne hdigits).power hpower) hsign fun v => ?_
      exact ⟨rfl, rfl⟩
  · have hmantissa : Firm (whole ++ point) := by
      cases hfraction with
      | absent =>
        rw [List.append_nil]
        exact firm_digits hnil hwhole
      | written hdigits =>
        have hfilled : fraction ≠ [] := fun hempty => absurd (hpoint hempty) (by simp)
        exact (firm_digits hnil hwhole).append (firm_point hfilled hdigits) fun _ => rfl
    refine Firm.sign (hmantissa.power hpower) hsign fun v => ?_
    rw [List.append_assoc, List.append_assoc]
    exact beginsName_digits hnil hwhole _

/-- What a lexeme at the start of a text is for the outline of that text, and what is left behind
it. -/
inductive Outlined : List Char → Lexeme → List Char → Prop
  | loose {kind : TokenKind} {raw rest : List Char} : Leads raw rest →
      Outlined (raw ++ rest) (.plain kind raw) rest
  | bracket {c : Char} {rest : List Char} : isBracket c = true →
      Outlined (c :: rest) (.plain .character [c]) rest
  | whole {kind : TokenKind} {raw rest : List Char} : kind ≠ .character →
      Piece (raw ++ rest) [.whole kind raw] rest → Outlined (raw ++ rest) (.plain kind raw) rest
  | call {w rest : List Char} : IsName w → ¬isUrlWord w →
      Outlined (w ++ '(' :: rest) ⟨.other, w ++ ['('], w ++ ['('], true⟩ rest

theorem Outlined.text {l : Lexeme} (h : Outlined cs l rest) : l.text = l.raw := by
  cases h <;> rfl

theorem Outlined.raw_append {l : Lexeme} (h : Outlined cs l rest) : l.raw ++ rest = cs := by
  cases h with
  | loose => rfl
  | bracket => rfl
  | whole => rfl
  | call => simp

open Lexeme (plain ofHash ofAt ofNumber ofName markPart first)

theorem outlined_ofHash (h : Unescaped cs) : ∃ rest, Outlined ('#' :: cs) (ofHash cs) rest := by
  unfold ofHash
  split
  · obtain ⟨w, rest, rfl, hw, hstop, hname⟩ := exists_name h
    dsimp only
    rw [hname]
    exact ⟨rest, .loose (leads_signed (.inl rfl) hw (beginsName_of_stop hstop))⟩
  · rename_i hnone
    rw [startsName_eq h, Bool.or_eq_true, not_or, Bool.not_eq_true] at hnone
    have hleads : Leads ['#'] cs := leads_signed (.inl rfl) (by simp) hnone.1
    exact ⟨cs, .loose hleads⟩

theorem outlined_ofAt (h : Unescaped cs) : ∃ rest, Outlined ('@' :: cs) (ofAt cs) rest := by
  unfold ofAt
  split
  · obtain ⟨w, rest, rfl, hw, hstop, hname⟩ := exists_name h
    rw [hname]
    exact ⟨rest, .loose (leads_signed (.inr rfl) hw (beginsName_of_stop hstop))⟩
  · rename_i hnone
    rw [startsName_eq h, Bool.not_eq_true] at hnone
    have hleads : Leads ['@'] cs := leads_signed (.inr rfl) (by simp) hnone
    exact ⟨cs, .loose hleads⟩

theorem outlined_ofNumber (h : Unescaped cs) (hs : startsNumber cs = true) :
    ∃ rest, Outlined cs (ofNumber cs) rest := by
  have hfirm := firm_numberPart hs
  obtain ⟨rest, hcs⟩ := isPrefix_numberPart cs
  have hdrop : (numberPart cs ++ rest).drop (numberPart cs).length = rest := List.drop_left
  rw [hcs] at hdrop
  have hrest : Unescaped rest := h.of_suffix ⟨_, hcs⟩
  unfold ofNumber
  dsimp only
  rw [hdrop]
  generalize numberPart cs = number at hfirm hcs
  subst hcs
  split
  · rename_i hpercent
    obtain ⟨rest', rfl⟩ := List.head?_eq_some_iff.mp hpercent
    have hleads : Leads (number ++ ['%']) rest' :=
      (hfirm.leads rfl).append (leads_other rfl (by decide) (by decide))
    have hlexeme : Outlined _ (plain .other _) _ := .loose hleads
    rw [List.append_assoc] at hlexeme
    exact ⟨rest', hlexeme⟩
  split
  · obtain ⟨w, rest', rfl, hw, hstop, hname⟩ := exists_name hrest
    have hlexeme : Outlined _ (plain .other _) rest' :=
      .loose (hfirm w rest' hw (beginsName_of_stop hstop))
    rw [List.append_assoc] at hlexeme
    rw [hname]
    exact ⟨rest', hlexeme⟩
  · rename_i hnone
    rw [startsName_eq hrest] at hnone
    exact ⟨rest, .loose (hfirm.leads (Bool.eq_false_iff.mpr hnone))⟩

theorem outlined_ofName (h : Unescaped cs) (hs : startsName cs = true) :
    ∃ rest, Outlined cs (ofName cs) rest := by
  obtain ⟨w, rest, rfl, hw, hstop, hvalue⟩ := exists_name h
  have hrest : Unescaped rest := h.of_suffix (List.suffix_append w rest)
  have hname : IsName w := by
    refine ⟨hw, ?_⟩
    rwa [startsName_eq h, beginsName_append hstop] at hs
  unfold ofName
  dsimp only
  rw [hvalue, List.drop_left]
  split
  · rename_i hopen
    obtain ⟨rest, rfl⟩ := List.head?_eq_some_iff.mp hopen
    split
    · rename_i hurl
      obtain ⟨inner, text, rest', rfl, hcloses, haddress⟩ := closes_unquotedAddress? hrest.tail
      rw [List.tail_cons, haddress]
      have hpiece := Piece.address hname hurl hcloses
      rw [← List.cons_append, ← List.append_assoc] at hpiece
      have hlexeme := Outlined.whole (addressKind_ne_character inner) hpiece
      refine ⟨rest', ?_⟩
      simpa [addressKind] using hlexeme
    · rename_i hurl
      exact ⟨rest, .call hname hurl⟩
  · rename_i hopen
    obtain ⟨c, w', hw, -⟩ := hname.cons
    exact ⟨rest, .loose (.of_word (by simp [hw]) hname.chars hstop fun _ => hopen)⟩

theorem outlined_markPart {c : Char} (h : markPart (c :: cs) ≠ []) :
    ∃ rest, Outlined (c :: cs) (plain .other (markPart (c :: cs))) rest := by
  have hother {c : Char} {mid : List Char} (hc : ['=', '>', '$', '*', '^', '|', '~'].contains c) :
      Leads [c] mid := by
    simp only [List.contains_eq_mem, List.mem_cons, List.not_mem_nil, or_false,
      decide_eq_true_eq] at hc
    rcases hc with rfl | rfl | rfl | rfl | rfl | rfl | rfl <;>
      exact leads_other rfl (by decide) (by decide)
  revert h
  unfold markPart
  split
  · rename_i htake
    rw [htake]
    intro _
    obtain ⟨rest, hcs⟩ : ['-', '-', '>'] <+: c :: cs := htake ▸ List.take_prefix 3 (c :: cs)
    have hyphens : Leads ['-', '-'] ('>' :: rest) :=
      .of_word (by simp) (by simp [isNameChar]) rfl fun _ => by simp
    exact ⟨rest, hcs ▸ .loose (hyphens.append (hother rfl))⟩
  split
  · rename_i htake
    rw [htake]
    intro _
    obtain ⟨rest, hcs⟩ : ['<', '!', '-', '-'] <+: c :: cs := htake ▸ List.take_prefix 4 (c :: cs)
    exact ⟨rest, hcs ▸ .loose (.of_piece .mark)⟩
  split
  · rename_i hpair
    intro _
    obtain ⟨hhead, htail⟩ := (Bool.and_eq_true _ _).mp hpair
    obtain ⟨rest, rfl⟩ := List.head?_eq_some_iff.mp (of_decide_eq_true htail)
    have hc : ['=', '>', '$', '*', '^', '|', '~'].contains c = true := by
      simp only [List.head?_cons, Option.any_some, Bool.or_eq_true, decide_eq_true_eq] at hhead
      rcases hhead with (((rfl | rfl) | rfl) | rfl) | rfl <;> rfl
    have hleads : Leads ([c] ++ ['=']) rest := (hother hc).append (hother rfl)
    exact ⟨rest, .loose hleads⟩
  · intro h
    exact absurd rfl h

theorem startsNumber_of_isDigit {c : Char} (hc : c.isDigit = true) :
    startsNumber (c :: cs) = true := by
  have hplus : c ≠ '+' := ne_of_property hc rfl
  have hminus : c ≠ '-' := ne_of_property hc rfl
  have hpoint : c ≠ '.' := ne_of_property hc rfl
  simp [startsNumber, signPart, hplus, hminus, hpoint, hc]

theorem beginsName_of_hyphen (h : beginsName ('-' :: cs) = false) : beginsName cs = false := by
  cases cs with
  | nil => rfl
  | cons d cs =>
    have hd : (isNameStart d || d = '-') = false := h
    rw [Bool.or_eq_false_iff] at hd
    rw [beginsName, hd.1, hd.2]
    rfl

/-- A character that begins nothing longer is a bracket, a hyphen on its own or no part of a
word. -/
theorem outlined_character {c : Char} (h : Unescaped (c :: cs))
    (hcomment : ¬(c = '/' && cs.head? = some '*') = true) (hhash : c ≠ '#') (hat : c ≠ '@')
    (hnumber : ¬startsNumber (c :: cs) = true) (hmark : markPart (c :: cs) = [])
    (hname : ¬startsName (c :: cs) = true) :
    ∃ rest, Outlined (c :: cs) (plain .character [c]) rest := by
  refine ⟨cs, ?_⟩
  rw [startsName_eq h, Bool.not_eq_true] at hname
  cases hbracket : isBracket c with
  | true => exact .bracket hbracket
  | false =>
    by_cases hyphen : c = '-'
    · subst hyphen
      have hleads : Leads ['-'] cs :=
        leads_names (by simp) (by simp [isNameChar]) (beginsName_of_hyphen hname) hname
      exact .loose hleads
    · have hdigit : c.isDigit = false :=
        Bool.eq_false_iff.mpr fun hdigit => hnumber (startsNumber_of_isDigit hdigit)
      have hchar : isNameChar c = false := by
        simp [isNameChar, (Bool.or_eq_false_iff.mp hname).1, hdigit, hyphen]
      have hpiece : Piece ([c] ++ cs) [.loose c] cs := by
        refine .other ?_ ?_ ?_
        · simp [isOther, isWordHead, hbracket, hchar, hhash, hat]
        · rintro ⟨rest, heq⟩
          cases heq
          exact hcomment rfl
        · rintro ⟨rest, heq⟩
          cases heq
          simp [markPart] at hmark
      exact .loose (.of_piece hpiece)

/-- Every lexeme of an unescaped text has its place in the outline. -/
theorem outlined_first {c : Char} (h : Unescaped (c :: cs)) :
    ∃ rest, Outlined (c :: cs) (first c cs) rest := by
  unfold first
  split
  · rename_i hblank
    obtain ⟨blanks, rest, rfl, hblanks, hstop⟩ := exists_run isBlank cs
    have hleads : Leads (c :: blanks) rest :=
      leads_blanks (List.forall_mem_cons.mpr ⟨hblank, hblanks⟩)
    rw [takeWhile_stop hblanks hstop]
    exact ⟨rest, .loose hleads⟩
  split
  · rename_i hopen
    simp only [Bool.and_eq_true, decide_eq_true_eq, List.head?_eq_some_iff] at hopen
    obtain ⟨rfl, cs, rfl⟩ := hopen
    obtain ⟨inner, rest, hcs, hcloses⟩ := closes_commentBody cs
    have hlexeme : Outlined ('/' :: '*' :: commentBody cs ++ rest) (plain .comment _) rest :=
      .whole (by decide) (.comment hcloses)
    rw [List.cons_append, List.cons_append, ← hcs] at hlexeme
    exact ⟨rest, hlexeme⟩
  rename_i hcomment
  split
  · rename_i hquote
    simp [isQuote, h c (by simp)] at hquote
  split
  · rename_i hhash
    subst hhash
    exact outlined_ofHash h.tail
  rename_i hhash
  split
  · rename_i hat
    subst hat
    exact outlined_ofAt h.tail
  rename_i hat
  split
  · rename_i hnumber
    exact outlined_ofNumber h hnumber
  rename_i hnumber
  split
  · rename_i hmark
    exact outlined_markPart (by simpa using hmark)
  rename_i hmark
  split
  · rename_i hname
    exact outlined_ofName h hname
  rename_i hname
  exact outlined_character h hcomment hhash hat hnumber (by simpa using hmark) hname

end Outline

end Cartosheet
