import Cartosheet.Proofs.AddressWrapper

namespace Cartosheet

/-- The three pairs of brackets. -/
inductive Bracket where
  | round
  | square
  | curly
  deriving DecidableEq, Repr

namespace Bracket

def opening : Bracket → Char
  | round => '('
  | square => '['
  | curly => '{'

def closing : Bracket → Char
  | round => ')'
  | square => ']'
  | curly => '}'

theorem opening_injective {b b' : Bracket} (h : b.opening = b'.opening) : b = b' := by
  cases b <;> cases b' <;> first | rfl | cases h

theorem closing_injective {b b' : Bracket} (h : b.closing = b'.closing) : b = b' := by
  cases b <;> cases b' <;> first | rfl | cases h

theorem opening_ne_closing (b b' : Bracket) : b.opening ≠ b'.closing := by
  cases b <;> cases b' <;> decide

end Bracket

def isBracket (c : Char) : Bool := ['(', ')', '[', ']', '{', '}'].contains c

theorem isBracket_opening (b : Bracket) : isBracket b.opening = true := by
  cases b <;> rfl

theorem isBracket_closing (b : Bracket) : isBracket b.closing = true := by
  cases b <;> rfl

namespace Outline

/-- What a text is made of: characters that are no brackets, brackets, and stretches that are one
token whatever they hold. -/
inductive Part where
  | loose (c : Char)
  | bracket (c : Char)
  | whole (kind : TokenKind) (text : List Char)
  deriving DecidableEq, Repr

def Part.text : Part → List Char
  | loose c => [c]
  | bracket c => [c]
  | whole _ text => text

/-- The text that the parts make up. -/
def spelled (parts : List Part) : List Char := parts.flatMap Part.text

@[simp] theorem spelled_nil : spelled [] = [] := rfl

@[simp] theorem spelled_cons (p : Part) (ps : List Part) :
    spelled (p :: ps) = p.text ++ spelled ps := rfl

@[simp] theorem spelled_append (ps qs : List Part) :
    spelled (ps ++ qs) = spelled ps ++ spelled qs :=
  List.flatMap_append

@[simp] theorem spelled_loose (cs : List Char) : spelled (cs.map .loose) = cs := by
  induction cs with
  | nil => rfl
  | cons c cs ih => simp [Part.text, ih]

/-- What stands before the first `mark`, and the text through that mark; all there is to come if it
holds no such mark. -/
inductive Closes (mark : List Char) : List Char → List Char → List Char → Prop
  | found {inner rest : List Char} : ¬mark <:+: (inner ++ mark).dropLast →
      Closes mark inner (inner ++ mark) rest
  | ended {inner : List Char} : ¬mark <:+: inner → Closes mark inner inner []

/-- Whether a name begins here: neither a digit nor a lone hyphen begins one. -/
def beginsName : List Char → Bool
  | [] => false
  | c :: cs => isNameStart c || (c = '-' && cs.head?.any fun d => isNameStart d || d = '-')

/-- A name that a call can have. -/
structure IsName (w : List Char) : Prop where
  chars : ∀ c ∈ w, isNameChar c = true
  begins : beginsName w = true

/-- An address with no blanks before it: nothing that breaks it, and blanks at its end alone. -/
def isBare (a : List Char) : Bool :=
  a.all (!breaksAddress ·) && (a.dropWhile (!isBlank ·)).all isBlank

/-- What an address is by what stands in its parentheses; a broken one is no token of the
language. -/
def addressKind (inner : List Char) : TokenKind :=
  if isBare (inner.dropWhile isBlank) then .uri else .other

/-- What a word begins with, or the sign before it. -/
def isWordHead (c : Char) : Bool := isNameChar c || c = '#' || c = '@'

/-- Characters that are neither brackets nor part of a word. -/
def isOther (c : Char) : Bool := !isBracket c && !isWordHead c

/-- The start of a text that begins with neither a bracket nor a call, its parts, and what is left
behind them. -/
inductive Piece : List Char → List Part → List Char → Prop
  /-- All characters of a word, with a `#` or `@` before it. A name has no parenthesis behind it. -/
  | word {sign w rest : List Char} : sign = [] ∨ sign = ['#'] ∨ sign = ['@'] → sign ++ w ≠ [] →
      (∀ c ∈ w, isNameChar c = true) → rest.head?.any isNameChar = false →
      (sign = [] → beginsName w = true → rest.head? ≠ some '(') →
      Piece (sign ++ (w ++ rest)) ((sign ++ w).map .loose) rest
  /-- `<!--`, after which a word begins anew. -/
  | mark {rest : List Char} :
      Piece ('<' :: '!' :: '-' :: '-' :: rest) (['<', '!', '-', '-'].map .loose) rest
  | other {c : Char} {rest : List Char} : isOther c = true → ¬['/', '*'] <+: c :: rest →
      ¬['<', '!', '-', '-'] <+: c :: rest → Piece (c :: rest) [.loose c] rest
  | comment {inner text rest : List Char} : Closes ['*', '/'] inner text rest →
      Piece ('/' :: '*' :: (text ++ rest)) [.whole .comment ('/' :: '*' :: text)] rest
  | address {w inner text rest : List Char} : IsName w → isUrlWord w →
      Closes [')'] inner text rest →
      Piece (w ++ '(' :: (text ++ rest)) [.whole (addressKind inner) (w ++ '(' :: text)] rest

/-- The parts of a text up to where the block ends that it stands in, with the bracket that ends it,
and what is left behind. Only its own closing bracket ends a block, or the end of the text; outside
all blocks there is no bracket to wait for. A call is one part with all of the block behind its
name. -/
inductive Divides : Option Bracket → List Char → List Part → List Char → Prop
  | ended {outer : Option Bracket} : Divides outer [] [] []
  | closed {b : Bracket} {rest : List Char} :
      Divides (some b) (b.closing :: rest) [.bracket b.closing] rest
  | stray {outer : Option Bracket} {b : Bracket} {cs rest : List Char} {ps : List Part} :
      outer ≠ some b → Divides outer cs ps rest →
      Divides outer (b.closing :: cs) (.bracket b.closing :: ps) rest
  | block {outer : Option Bracket} {b : Bracket} {cs mid rest : List Char} {ps qs : List Part} :
      Divides (some b) cs ps mid → Divides outer mid qs rest →
      Divides outer (b.opening :: cs) (.bracket b.opening :: (ps ++ qs)) rest
  | piece {outer : Option Bracket} {cs mid rest : List Char} {ps qs : List Part} :
      Piece cs ps mid → Divides outer mid qs rest → Divides outer cs (ps ++ qs) rest
  | call {outer : Option Bracket} {w cs mid rest : List Char} {ps qs : List Part} : IsName w →
      ¬isUrlWord w → Divides (some .round) cs ps mid → Divides outer mid qs rest →
      Divides outer (w ++ '(' :: cs) (.whole .other (w ++ '(' :: spelled ps) :: qs) rest

variable {cs mid rest w x : List Char}

theorem IsName.cons (h : IsName w) : ∃ c w', w = c :: w' ∧ isNameChar c = true := by
  cases w with
  | nil => cases h.begins
  | cons c w => exact ⟨c, w, rfl, h.chars c (by simp)⟩

theorem addressKind_ne_character (inner : List Char) : addressKind inner ≠ .character := by
  unfold addressKind
  split <;> decide

theorem isBracket_of_isNameChar {c : Char} (h : isNameChar c = true) : isBracket c = false :=
  contains_eq_false h rfl

/-- A closing mark ends the text where it first stands. -/
theorem Closes.unique {mark inner inner' text text' rest' : List Char}
    (h : Closes mark inner text rest) (h' : Closes mark inner' text' rest')
    (heq : text ++ rest = text' ++ rest') : inner = inner' ∧ text = text' ∧ rest = rest' := by
  -- a text that goes on past a mark holds that mark before its last character
  have hle {a b t : List Char} (hb : ¬mark <:+: (b ++ mark).dropLast)
      (ht : b ++ mark = a ++ mark ++ t) : t = [] := by
    cases t with
    | nil => rfl
    | cons c t =>
      rw [ht, List.dropLast_append_cons] at hb
      exact absurd ⟨a, (c :: t).dropLast, rfl⟩ hb
  cases h with
  | found hfirst =>
    cases h' with
    | found hfirst' =>
      have htext : inner ++ mark = inner' ++ mark := by
        rcases List.append_eq_append_iff.mp heq with ⟨t, ht, -⟩ | ⟨t, ht, -⟩
        · rw [hle hfirst' ht, List.append_nil] at ht
          exact ht.symm
        · rw [hle hfirst ht, List.append_nil] at ht
          exact ht
      rw [htext] at heq
      exact ⟨List.append_cancel_right htext, htext, List.append_cancel_left heq⟩
    | ended hnone =>
      rw [List.append_nil] at heq
      exact absurd ⟨inner, rest, heq⟩ hnone
  | ended hnone =>
    rw [List.append_nil] at heq
    cases h' with
    | found => exact absurd ⟨inner', rest', heq.symm⟩ hnone
    | ended =>
      rw [List.append_nil] at heq
      exact ⟨heq, heq, rfl⟩

/-- A word reaches as far as its characters go. -/
theorem word_unique {w' rest' : List Char} (hw : ∀ c ∈ w, isNameChar c = true)
    (hrest : rest.head?.any isNameChar = false) (hw' : ∀ c ∈ w', isNameChar c = true)
    (hrest' : rest'.head?.any isNameChar = false) (h : w ++ rest = w' ++ rest') :
    w = w' ∧ rest = rest' := by
  have hword : (w ++ rest).takeWhile isNameChar = w := takeWhile_stop hw hrest
  rw [h, takeWhile_stop hw' hrest'] at hword
  subst hword
  exact ⟨rfl, List.append_cancel_left h⟩

theorem isOther_eq_false {c : Char} (h : isWordHead c = true) : isOther c = false := by
  simp [isOther, h]

theorem isBracket_eq_false {c : Char} (h : isWordHead c = true) : isBracket c = false := by
  simp only [isWordHead, Bool.or_eq_true, decide_eq_true_eq] at h
  rcases h with (h | rfl) | rfl
  · exact isBracket_of_isNameChar h
  · rfl
  · rfl

theorem isBracket_of_isOther {c : Char} (h : isOther c = true) : isBracket c = false := by
  simp only [isOther, Bool.and_eq_true, Bool.not_eq_true'] at h
  exact h.1

theorem word_cons {sign : List Char} (hsign : sign = [] ∨ sign = ['#'] ∨ sign = ['@'])
    (hne : sign ++ w ≠ []) (hw : ∀ c ∈ w, isNameChar c = true) :
    ∃ c w', sign ++ w = c :: w' ∧ isWordHead c = true := by
  rcases hsign with rfl | rfl | rfl
  · cases w with
    | nil => exact absurd rfl hne
    | cons c w => exact ⟨c, w, rfl, by simp [isWordHead, hw c]⟩
  · exact ⟨'#', w, rfl, rfl⟩
  · exact ⟨'@', w, rfl, rfl⟩

/-- The sign before a word is told by the first character. -/
theorem sign_eq {sign : List Char} (hsign : sign = [] ∨ sign = ['#'] ∨ sign = ['@'])
    (hne : sign ++ w ≠ []) (hw : ∀ c ∈ w, isNameChar c = true) (x : List Char) :
    ((sign ++ (w ++ x)).take 1).filter (fun c => c = '#' || c = '@') = sign := by
  rcases hsign with rfl | rfl | rfl
  · cases w with
    | nil => exact absurd rfl hne
    | cons c w =>
      have hc := hw c (by simp)
      simp [ne_of_property hc (d := '#') rfl, ne_of_property hc (d := '@') rfl]
  · rfl
  · rfl

namespace Piece

variable {ps ps' : List Part} {rest' : List Char}

theorem spelled_append (h : Piece cs ps rest) : spelled ps ++ rest = cs := by
  cases h <;> simp [Part.text]

theorem cons (h : Piece cs ps rest) : ∃ c cs', cs = c :: cs' ∧ isBracket c = false := by
  cases h with
  | word hsign hne hw =>
    obtain ⟨c, w', hword, hc⟩ := word_cons hsign hne hw
    rw [← List.append_assoc, hword]
    exact ⟨c, _, rfl, isBracket_eq_false hc⟩
  | mark => exact ⟨'<', _, rfl, rfl⟩
  | other hc => exact ⟨_, _, rfl, isBracket_of_isOther hc⟩
  | comment => exact ⟨'/', _, rfl, rfl⟩
  | address hname =>
    obtain ⟨c, w', rfl, hc⟩ := hname.cons
    exact ⟨c, _, rfl, isBracket_of_isNameChar hc⟩

theorem isBracket_of_loose {c : Char} (h : Piece cs ps rest) (hc : .loose c ∈ ps) :
    isBracket c = false := by
  cases h with
  | @word sign w _ hsign _ hw =>
    have hmem : c ∈ sign ++ w := by simpa using hc
    rcases List.mem_append.mp hmem with hmem | hmem
    · rcases hsign with rfl | rfl | rfl
      · cases hmem
      · rw [List.mem_singleton.mp hmem]
        rfl
      · rw [List.mem_singleton.mp hmem]
        rfl
    · exact isBracket_of_isNameChar (hw c hmem)
  | mark =>
    have hmark : ['<', '!', '-', '-'].all (!isBracket ·) = true := rfl
    simpa using List.all_eq_true.mp hmark c (by simpa using hc)
  | other hother =>
    rw [List.mem_singleton] at hc
    cases hc
    exact isBracket_of_isOther hother
  | comment => simp at hc
  | address => simp at hc

/-- A word is passed over, or it is the name before an address. -/
theorem of_word {sign : List Char} (hsign : sign = [] ∨ sign = ['#'] ∨ sign = ['@'])
    (hne : sign ++ w ≠ []) (hw : ∀ c ∈ w, isNameChar c = true)
    (hx : x.head?.any isNameChar = false) (h : Piece (sign ++ (w ++ x)) ps rest) :
    (ps = (sign ++ w).map .loose ∧ rest = x ∧
        (sign = [] → beginsName w = true → x.head? ≠ some '(')) ∨
      sign = [] ∧ IsName w ∧ isUrlWord w ∧ ∃ inner text, x = '(' :: (text ++ rest) ∧
        Closes [')'] inner text rest ∧ ps = [.whole (addressKind inner) (w ++ '(' :: text)] := by
  obtain ⟨d, w', hd, hhead⟩ := word_cons hsign hne hw
  have hcons : sign ++ (w ++ x) = d :: (w' ++ x) := by rw [← List.append_assoc, hd]; rfl
  have hother := isOther_eq_false hhead
  have hsame := sign_eq hsign hne hw x
  generalize hcs : sign ++ (w ++ x) = cs at h
  rw [hcs] at hsame hcons
  cases h with
  | word hsign' hne' hv hrest hcall =>
    rw [sign_eq hsign' hne' hv] at hsame
    subst hsame
    obtain ⟨rfl, rfl⟩ := word_unique hw hx hv hrest (List.append_cancel_left hcs)
    exact .inl ⟨rfl, rfl, hcall⟩
  | mark =>
    rw [← (List.cons.inj hcons).1] at hother
    cases hother
  | other hc =>
    rw [← (List.cons.inj hcons).1, hc] at hother
    cases hother
  | comment =>
    rw [← (List.cons.inj hcons).1] at hother
    cases hother
  | @address v inner text _ hname hurl hcloses =>
    obtain ⟨c, v', hv, -⟩ := hname.cons
    rw [← List.nil_append (v ++ _), sign_eq (.inl rfl) (by simp [hv]) hname.chars] at hsame
    subst hsame
    obtain ⟨rfl, rfl⟩ := word_unique hw hx hname.chars rfl hcs
    exact .inr ⟨rfl, hname, hurl, inner, text, rfl, hcloses, rfl⟩

/-- What begins with a character of no word. -/
theorem of_isOther {c : Char} (hc : isOther c = true) (h : Piece (c :: x) ps rest) :
    (c :: x = '<' :: '!' :: '-' :: '-' :: rest ∧ ps = ['<', '!', '-', '-'].map .loose) ∨
      (¬['/', '*'] <+: c :: x ∧ ¬['<', '!', '-', '-'] <+: c :: x ∧ ps = [.loose c] ∧ rest = x) ∨
      ∃ inner text, c :: x = '/' :: '*' :: (text ++ rest) ∧ Closes ['*', '/'] inner text rest ∧
        ps = [.whole .comment ('/' :: '*' :: text)] := by
  generalize hcs : c :: x = cs at h
  cases h with
  | word hsign hne hw =>
    obtain ⟨d, w', hd, hhead⟩ := word_cons hsign hne hw
    rw [← List.append_assoc, hd] at hcs
    rw [(List.cons.inj hcs).1, isOther_eq_false hhead] at hc
    cases hc
  | mark => exact .inl ⟨rfl, rfl⟩
  | other _ hcomment hmark =>
    cases hcs
    exact .inr (.inl ⟨hcomment, hmark, rfl, rfl⟩)
  | comment hcloses => exact .inr (.inr ⟨_, _, rfl, hcloses, rfl⟩)
  | address hname =>
    obtain ⟨d, w', rfl, hd⟩ := hname.cons
    rw [(List.cons.inj hcs).1, isOther_eq_false (by simp [isWordHead, hd])] at hc
    cases hc

/-- A text begins with one piece at most. -/
theorem unique (h : Piece cs ps rest) (h' : Piece cs ps' rest') : ps = ps' ∧ rest = rest' := by
  cases h with
  | word hsign hne hw hrest hcall =>
    rcases of_word hsign hne hw hrest h' with ⟨rfl, rfl, -⟩ | ⟨hs, hname, -, _, _, rfl, -⟩
    · exact ⟨rfl, rfl⟩
    · exact absurd rfl (hcall hs hname.begins)
  | mark =>
    rcases of_isOther rfl h' with ⟨heq, rfl⟩ | ⟨-, hmark, -⟩ | ⟨_, _, heq, -⟩
    · cases heq
      exact ⟨rfl, rfl⟩
    · exact absurd ⟨_, rfl⟩ hmark
    · cases heq
  | other hc hcomment hmark =>
    rcases of_isOther hc h' with ⟨heq, -⟩ | ⟨-, -, rfl, rfl⟩ | ⟨_, _, heq, -⟩
    · exact absurd ⟨_, heq.symm⟩ hmark
    · exact ⟨rfl, rfl⟩
    · exact absurd ⟨_, heq.symm⟩ hcomment
  | comment hcloses =>
    rcases of_isOther rfl h' with ⟨heq, -⟩ | ⟨hcomment, -⟩ | ⟨_, _, heq, hcloses', rfl⟩
    · cases heq
    · exact absurd ⟨_, rfl⟩ hcomment
    · simp only [List.cons.injEq, true_and] at heq
      obtain ⟨-, rfl, rfl⟩ := hcloses.unique hcloses' heq
      exact ⟨rfl, rfl⟩
  | address hname hurl hcloses =>
    obtain ⟨c, w', hw, -⟩ := hname.cons
    rw [← List.nil_append (_ ++ _)] at h'
    rcases of_word (.inl rfl) (by simp [hw]) hname.chars rfl h' with
      ⟨-, -, hcall⟩ | ⟨-, -, -, _, _, heq, hcloses', rfl⟩
    · exact absurd rfl (hcall rfl hname.begins)
    · obtain ⟨rfl, rfl, rfl⟩ := hcloses.unique hcloses' (List.cons.inj heq).2
      exact ⟨rfl, rfl⟩

/-- No piece begins with a call. -/
theorem not_call (hname : IsName w) (hurl : ¬isUrlWord w) : ¬Piece (w ++ '(' :: x) ps rest := by
  intro h
  obtain ⟨c, w', hw, -⟩ := hname.cons
  rw [← List.nil_append (w ++ _)] at h
  rcases of_word (.inl rfl) (by simp [hw]) hname.chars rfl h with ⟨-, -, hcall⟩ | ⟨-, -, hurl', -⟩
  · exact hcall rfl hname.begins rfl
  · exact hurl hurl'

end Piece

namespace Divides

variable {outer : Option Bracket} {ps ps' : List Part} {rest' : List Char}

theorem spelled_append (h : Divides outer cs ps rest) : spelled ps ++ rest = cs := by
  induction h with
  | ended => rfl
  | closed => rfl
  | stray _ _ ih => simpa [Part.text] using ih
  | block _ _ ih ih' => simp [Part.text, ← ih, ← ih']
  | piece hp _ ih => simp [← hp.spelled_append, ← ih]
  | call _ _ _ _ ih ih' => simp [Part.text, ← ih, ← ih']

theorem suffix (h : Divides outer cs ps rest) : rest <:+ cs := ⟨spelled ps, h.spelled_append⟩

theorem of_nil (h : Divides outer [] ps rest) : ps = [] ∧ rest = [] := by
  generalize hcs : [] = cs at h
  cases h with
  | ended => exact ⟨rfl, rfl⟩
  | closed => cases hcs
  | stray => cases hcs
  | block => cases hcs
  | piece hp =>
    obtain ⟨c, cs', rfl, -⟩ := hp.cons
    cases hcs
  | call => simp at hcs

theorem of_closing {b : Bracket} (h : Divides outer (b.closing :: x) ps rest) :
    (outer = some b ∧ ps = [.bracket b.closing] ∧ rest = x) ∨
      outer ≠ some b ∧ ∃ qs, ps = .bracket b.closing :: qs ∧ Divides outer x qs rest := by
  have hbracket := isBracket_closing b
  generalize hcs : b.closing :: x = cs at h
  cases h with
  | ended => cases hcs
  | closed =>
    obtain ⟨hb, rfl⟩ := List.cons.inj hcs
    rw [Bracket.closing_injective hb]
    exact .inl ⟨rfl, rfl, rfl⟩
  | stray houter hrest =>
    obtain ⟨hb, rfl⟩ := List.cons.inj hcs
    rw [Bracket.closing_injective hb]
    exact .inr ⟨houter, _, rfl, hrest⟩
  | block => exact absurd (List.cons.inj hcs).1.symm (Bracket.opening_ne_closing _ _)
  | piece hp =>
    obtain ⟨c, cs', rfl, hc⟩ := hp.cons
    rw [(List.cons.inj hcs).1, hc] at hbracket
    cases hbracket
  | call hname =>
    obtain ⟨c, w', rfl, hc⟩ := hname.cons
    rw [(List.cons.inj hcs).1, isBracket_of_isNameChar hc] at hbracket
    cases hbracket

theorem of_opening {b : Bracket} (h : Divides outer (b.opening :: x) ps rest) :
    ∃ qs mid qs', ps = .bracket b.opening :: (qs ++ qs') ∧ Divides (some b) x qs mid ∧
      Divides outer mid qs' rest := by
  have hbracket := isBracket_opening b
  generalize hcs : b.opening :: x = cs at h
  cases h with
  | ended => cases hcs
  | closed => exact absurd (List.cons.inj hcs).1 (Bracket.opening_ne_closing _ _)
  | stray => exact absurd (List.cons.inj hcs).1 (Bracket.opening_ne_closing _ _)
  | block hinside hrest =>
    obtain ⟨hb, rfl⟩ := List.cons.inj hcs
    cases Bracket.opening_injective hb
    exact ⟨_, _, _, rfl, hinside, hrest⟩
  | piece hp =>
    obtain ⟨c, cs', rfl, hc⟩ := hp.cons
    rw [(List.cons.inj hcs).1, hc] at hbracket
    cases hbracket
  | call hname =>
    obtain ⟨c, w', rfl, hc⟩ := hname.cons
    rw [(List.cons.inj hcs).1, isBracket_of_isNameChar hc] at hbracket
    cases hbracket

/-- Where no bracket comes first, a piece or a call does. -/
theorem of_not_bracket {c : Char} (hc : isBracket c = false) (h : Divides outer (c :: x) ps rest) :
    (∃ qs mid qs', ps = qs ++ qs' ∧ Piece (c :: x) qs mid ∧ Divides outer mid qs' rest) ∨
      ∃ w y qs mid qs', c :: x = w ++ '(' :: y ∧ IsName w ∧ ¬isUrlWord w ∧
        ps = .whole .other (w ++ '(' :: spelled qs) :: qs' ∧ Divides (some .round) y qs mid ∧
        Divides outer mid qs' rest := by
  generalize hcs : c :: x = cs at h
  cases h with
  | ended => cases hcs
  | closed =>
    rw [(List.cons.inj hcs).1, isBracket_closing] at hc
    cases hc
  | stray =>
    rw [(List.cons.inj hcs).1, isBracket_closing] at hc
    cases hc
  | block =>
    rw [(List.cons.inj hcs).1, isBracket_opening] at hc
    cases hc
  | piece hp hrest => exact .inl ⟨_, _, _, rfl, hp, hrest⟩
  | call hname hurl hinside hrest =>
    exact .inr ⟨_, _, _, _, _, rfl, hname, hurl, rfl, hinside, hrest⟩

theorem of_piece {qs : List Part} (hp : Piece cs qs mid) (h : Divides outer cs ps rest) :
    ∃ qs', ps = qs ++ qs' ∧ Divides outer mid qs' rest := by
  obtain ⟨c, cs', rfl, hc⟩ := hp.cons
  rcases h.of_not_bracket hc with
    ⟨_, _, qs', rfl, hp', hrest⟩ | ⟨w, y, _, _, _, hcall, hname, hurl, -⟩
  · obtain ⟨rfl, rfl⟩ := hp.unique hp'
    exact ⟨qs', rfl, hrest⟩
  · rw [hcall] at hp
    exact absurd hp (Piece.not_call hname hurl)

theorem of_call (hname : IsName w) (hurl : ¬isUrlWord w)
    (h : Divides outer (w ++ '(' :: x) ps rest) :
    ∃ qs mid qs', ps = .whole .other (w ++ '(' :: spelled qs) :: qs' ∧
      Divides (some .round) x qs mid ∧ Divides outer mid qs' rest := by
  obtain ⟨c, w', rfl, hc⟩ := hname.cons
  rcases h.of_not_bracket (isBracket_of_isNameChar hc) with
    ⟨_, _, _, -, hp, -⟩ | ⟨v, y, qs, mid, qs', hcall, hname', -, rfl, hinside, hrest⟩
  · exact absurd hp (Piece.not_call hname hurl)
  · obtain ⟨rfl, htail⟩ := word_unique hname.chars rfl hname'.chars rfl hcall
    cases htail
    exact ⟨qs, mid, qs', rfl, hinside, hrest⟩

/-- A text has only one outline. -/
theorem unique (h : Divides outer cs ps rest) (h' : Divides outer cs ps' rest') :
    ps = ps' ∧ rest = rest' := by
  induction h generalizing ps' rest' with
  | ended =>
    obtain ⟨rfl, rfl⟩ := h'.of_nil
    exact ⟨rfl, rfl⟩
  | closed =>
    rcases h'.of_closing with ⟨-, rfl, rfl⟩ | ⟨houter, -⟩
    · exact ⟨rfl, rfl⟩
    · exact absurd rfl houter
  | stray houter _ ih =>
    rcases h'.of_closing with ⟨houter', -⟩ | ⟨-, qs, rfl, hrest⟩
    · exact absurd houter' houter
    · obtain ⟨rfl, rfl⟩ := ih hrest
      exact ⟨rfl, rfl⟩
  | block _ _ ih ih' =>
    obtain ⟨qs, mid, qs', rfl, hinside, hrest⟩ := h'.of_opening
    obtain ⟨rfl, rfl⟩ := ih hinside
    obtain ⟨rfl, rfl⟩ := ih' hrest
    exact ⟨rfl, rfl⟩
  | piece hp _ ih =>
    obtain ⟨qs', rfl, hrest⟩ := h'.of_piece hp
    obtain ⟨rfl, rfl⟩ := ih hrest
    exact ⟨rfl, rfl⟩
  | call hname hurl _ _ ih ih' =>
    obtain ⟨qs, mid, qs', rfl, hinside, hrest⟩ := h'.of_call hname hurl
    obtain ⟨rfl, rfl⟩ := ih hinside
    obtain ⟨rfl, rfl⟩ := ih' hrest
    exact ⟨rfl, rfl⟩

/-- Outside all blocks the whole text is divided. -/
theorem rest_eq_nil (h : Divides none cs ps rest) : rest = [] := by
  generalize houter : none = outer at h
  induction h with
  | ended => rfl
  | closed => cases houter
  | stray _ _ ih => exact ih houter
  | block _ _ _ ih => exact ih houter
  | piece _ _ ih => exact ih houter
  | call _ _ _ _ _ ih => exact ih houter

/-- No bracket is loose. -/
theorem isBracket_of_loose {c : Char} (h : Divides outer cs ps rest) (hc : .loose c ∈ ps) :
    isBracket c = false := by
  induction h with
  | ended => cases hc
  | closed => simp at hc
  | stray _ _ ih => exact ih (by simpa using hc)
  | block _ _ ih ih' =>
    rcases List.mem_append.mp (by simpa using hc) with hc | hc
    · exact ih hc
    · exact ih' hc
  | piece hp _ ih =>
    rcases List.mem_append.mp hc with hc | hc
    · exact hp.isBracket_of_loose hc
    · exact ih hc
  | call _ _ _ _ _ ih => exact ih (by simpa using hc)

end Divides

end Outline

end Cartosheet
