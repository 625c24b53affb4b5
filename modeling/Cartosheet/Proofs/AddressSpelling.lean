import Cartosheet.Declaration.Reader
import Cartosheet.Proofs.AddressWrapper
import Cartosheet.Proofs.PrintedText

namespace Cartosheet

theorem isAlpha_of_toLower {c : Char} (h : c.toLower.isAlpha = true) : c.isAlpha = true := by
  by_cases hupper : c.val ≥ 'A'.val ∧ c.val ≤ 'Z'.val
  · exact Bool.or_eq_true_iff.mpr (.inl (decide_eq_true hupper))
  · have hsame : c.toLower = c := dif_neg hupper
    rwa [hsame] at h

theorem isAlpha_of_isUrlWord {u : List Char} (h : isUrlWord u) : ∀ c ∈ u, c.isAlpha = true := by
  intro c hc
  have hmem : c.toLower ∈ u.map Char.toLower := List.mem_map_of_mem hc
  rw [h] at hmem
  have hletters : ['u', 'r', 'l'].all Char.isAlpha = true := rfl
  exact isAlpha_of_toLower (List.all_eq_true.mp hletters _ hmem)

namespace Address

/-- Characters that stand for themselves in an address, bare or in quotes: neither quotes, blanks,
parentheses and backslashes nor control characters. -/
def isPlain (c : Char) : Bool :=
  !isQuote c && !isBlank c && c ≠ '(' && c ≠ ')' && c ≠ '\\' && 0x20 ≤ c.toNat && c.toNat ≠ 0x7f

/-- An address as it stands in a wrapper: bare, or between two equal quotes. -/
inductive Spelling (a : List Char) : List Char → Prop
  | bare : Spelling a a
  | quoted {q : Char} : isQuote q = true → Spelling a (q :: (a ++ [q]))

variable {a body u w w' : List Char}

theorem isPlain_iff (c : Char) :
    isPlain c = true ↔ isQuote c = false ∧ isBlank c = false ∧ c ≠ '(' ∧ c ≠ ')' ∧ c ≠ '\\' ∧
      0x20 ≤ c.toNat ∧ c.toNat ≠ 0x7f := by
  simp [isPlain, and_assoc]

theorem isQuote_of_isPlain {c : Char} (h : isPlain c = true) : isQuote c = false :=
  ((isPlain_iff c).mp h).1

theorem isBlank_of_isPlain {c : Char} (h : isPlain c = true) : isBlank c = false :=
  ((isPlain_iff c).mp h).2.1

theorem breaksAddress_of_isPlain {c : Char} (h : isPlain c = true) : breaksAddress c = false := by
  obtain ⟨hquote, -, hparen, -, -, hlow, hdelete⟩ := (isPlain_iff c).mp h
  have hdel : c ≠ '\x7f' := by
    rintro rfl
    exact hdelete rfl
  have htab : c ≠ '\x0b' := by
    rintro rfl
    exact absurd hlow (by decide)
  simp only [breaksAddress, hquote, hparen, hdel, htab, decide_false, Bool.or_false,
    Bool.or_eq_false_iff, Bool.and_eq_false_iff, decide_eq_false_iff_not, true_and]
  omega

theorem Spelling.enclosed (h : Spelling a body) (hplain : ∀ c ∈ a, isPlain c = true) :
    Enclosed a body := by
  cases h with
  | bare =>
    refine .bare ?_
    intro c hc
    exact ⟨isQuote_of_isPlain (hplain c hc), isBlank_of_isPlain (hplain c hc)⟩
  | @quoted q hq =>
    refine .quoted hq ?_
    intro hmem
    rw [isQuote_of_isPlain (hplain q hmem)] at hq
    cases hq

theorem ofWrapper?_wrapper (ha : a ≠ []) (hplain : ∀ c ∈ a, isPlain c = true)
    (hbody : Spelling a body) (hu : isUrlWord u) (hw : ∀ c ∈ w, isBlank c = true)
    (hw' : ∀ c ∈ w', isBlank c = true) :
    ofWrapper? (String.ofList (wrapper u w body w')) = some (String.ofList a) :=
  ofWrapper?_of_enclosed ha (hbody.enclosed hplain) hu hw hw'

end Address

theorem addressEnd_blanks {w : List Char} (hw : ∀ c ∈ w, isBlank c = true) (rest : List Char) :
    addressEnd (w ++ ')' :: rest) = (w ++ [')'], true) := by
  have htake : (w ++ ')' :: rest).takeWhile isBlank = w := takeWhile_stop hw rfl
  simp [addressEnd, htake]

/-- A bare address is read through its closing parenthesis. -/
theorem addressBody_plain {a w : List Char} (ha : ∀ c ∈ a, Address.isPlain c = true)
    (hw : ∀ c ∈ w, isBlank c = true) (rest : List Char) :
    addressBody (a ++ (w ++ ')' :: rest)) = (a ++ (w ++ [')']), true) := by
  induction a with
  | nil =>
    cases w with
    | nil =>
      rw [List.nil_append, List.nil_append, addressBody, if_pos rfl]
      rfl
    | cons c w =>
      have hc := hw c (by simp)
      rw [List.nil_append, List.cons_append, addressBody, if_neg (ne_of_property hc rfl),
        if_pos hc, ← List.cons_append, addressEnd_blanks hw]
      rfl
  | cons c a ih =>
    have hc := ha c (by simp)
    obtain ⟨-, hblank, -, hparen, hescape, -⟩ := (Address.isPlain_iff c).mp hc
    have hbreaks := Address.breaksAddress_of_isPlain hc
    rw [List.cons_append, addressBody, if_neg hparen, if_neg (by simp [hblank]),
      if_neg (by simp [hbreaks, hescape])]
    simp [hescape, ih fun d hd => ha d (by simp [hd])]

namespace Lexeme

variable {a u w w' rest : List Char}

theorem arguments_blanks {awaited : List Char} (hw : ∀ c ∈ w, isBlank c = true)
    (hrest : rest.head?.any isBlank = false) (ha : awaited ≠ []) :
    arguments awaited (w ++ rest) = w ++ arguments awaited rest := by
  cases w with
  | nil => rfl
  | cons c w =>
    have hrun : (w ++ rest).takeWhile isBlank = w :=
      takeWhile_stop (fun d hd => hw d (by simp [hd])) hrest
    have hfirst : first c (w ++ rest) = plain .whitespace (c :: w) := by
      rw [first, if_pos (hw c (by simp)), hrun]
    exact arguments_of_first hfirst rfl ha

theorem first_quoted {q : Char} (hq : isQuote q = true) (ha : ∀ c ∈ a, Address.isPlain c = true)
    (rest : List Char) :
    first q (a ++ q :: rest) = ⟨.string, q :: (a ++ [q]), '"' :: (a ++ ['"']), false⟩ := by
  have hbody : stringBody q (a ++ q :: rest) = (⟨a ++ [q], a⟩, true) := by
    refine stringBody_unescaped ?_ rest
    intro c hc
    obtain ⟨hquote, hblank, -, -, hescape, hlow, -⟩ := (Address.isPlain_iff c).mp (ha c hc)
    refine ⟨?_, hescape, ?_, ?_⟩
    · rintro rfl
      rw [hq] at hquote
      cases hquote
    · rintro rfl
      exact absurd hlow (by decide)
    · exact (Bool.or_eq_false_iff.mp hblank).2
  have hstring : first q (a ++ q :: rest) = ofString q (a ++ q :: rest) := by
    rcases Bool.or_eq_true_iff.mp hq with h | h <;> rw [of_decide_eq_true h] <;> rfl
  rw [hstring, ofString, hbody]
  rfl

theorem arguments_close : arguments [')'] [')'] = [')'] := by
  have hfirst : first ')' ([] ++ []) = plain .character [')'] := first_standsAlone rfl []
  have hclose : arguments [')'] [')'] = [')'] ++ arguments [] [] :=
    arguments_of_first hfirst rfl (by simp)
  rw [hclose, arguments]
  rfl

/-- A quoted address, the blanks around it and the closing parenthesis are all that a call takes
in. -/
theorem arguments_quoted {q : Char} (hq : isQuote q = true)
    (ha : ∀ c ∈ a, Address.isPlain c = true) (hw : ∀ c ∈ w, isBlank c = true)
    (hw' : ∀ c ∈ w', isBlank c = true) :
    arguments [')'] (w ++ (q :: (a ++ [q]) ++ (w' ++ [')']))) =
      w ++ (q :: (a ++ [q]) ++ (w' ++ [')'])) := by
  have hfirst := first_quoted hq ha (w' ++ [')'])
  rw [List.append_cons a q] at hfirst
  have hstring : arguments [')'] (q :: (a ++ [q] ++ (w' ++ [')']))) =
      q :: (a ++ [q]) ++ arguments [')'] (w' ++ [')']) :=
    arguments_of_first hfirst rfl (by simp)
  have hquote : (q :: (a ++ [q] ++ (w' ++ [')']))).head?.any isBlank = false :=
    Address.isBlank_of_isQuote hq
  rw [List.cons_append, arguments_blanks hw hquote (by simp), hstring,
    arguments_blanks hw' rfl (by simp), arguments_close]
  rfl

theorem name_urlWord (hu : isUrlWord u) (rest : List Char) : name (u ++ '(' :: rest) = ⟨u, u⟩ := by
  apply name_append
  · intro c hc
    have halpha : c.isAlpha = true := isAlpha_of_isUrlWord hu c hc
    exact ⟨by simp [isNameChar, isNameStart, halpha], ne_of_property halpha rfl⟩
  · exact name_eq_empty rfl (by decide)

/-- Without a quote the address belongs to the lexeme. -/
theorem ofName_bare (hu : isUrlWord u) {raw : List Char}
    (h : unquotedAddress? rest = some (raw, true)) :
    ofName (u ++ '(' :: rest) = plain .uri (u ++ '(' :: raw) := by
  have hname := name_urlWord hu rest
  rw [isUrlWord] at hu
  simp [ofName, hname, hu, h]

/-- With a quote the lexeme is the start of a call. -/
theorem ofName_quoted (hu : isUrlWord u) (h : unquotedAddress? rest = none) :
    ofName (u ++ '(' :: rest) = ⟨.uri, u ++ ['('], u ++ ['('], true⟩ := by
  have hname := name_urlWord hu rest
  rw [isUrlWord] at hu
  simp [ofName, hname, hu, h]

theorem unquotedAddress?_bare (hne : a ≠ []) (ha : ∀ c ∈ a, Address.isPlain c = true)
    (hw : ∀ c ∈ w, isBlank c = true) (hw' : ∀ c ∈ w', isBlank c = true) :
    unquotedAddress? (w ++ (a ++ (w' ++ [')']))) = some (w ++ (a ++ (w' ++ [')'])), true) := by
  obtain ⟨c, cs, rfl⟩ := List.exists_cons_of_ne_nil hne
  have hc := ha c (by simp)
  have htake : (w ++ (c :: cs ++ (w' ++ [')']))).takeWhile isBlank = w :=
    takeWhile_stop hw (Address.isBlank_of_isPlain hc)
  have hquote : (c :: cs ++ (w' ++ [')'])).head?.any isQuote = false :=
    Address.isQuote_of_isPlain hc
  rw [unquotedAddress?, htake, List.drop_left, hquote, addressBody_plain ha hw']
  rfl

theorem unquotedAddress?_quoted {q : Char} (hq : isQuote q = true)
    (hw : ∀ c ∈ w, isBlank c = true) (rest : List Char) :
    unquotedAddress? (w ++ q :: rest) = none := by
  have htake : (w ++ q :: rest).takeWhile isBlank = w :=
    takeWhile_stop hw (Address.isBlank_of_isQuote hq)
  have hquote : (q :: rest).head?.any isQuote = true := hq
  rw [unquotedAddress?, htake, List.drop_left, hquote]
  rfl

/-- However the address is spelled, the wrapper is one lexeme that stands for itself. -/
theorem firstWhole_wrapper {body : List Char} (hne : a ≠ [])
    (ha : ∀ c ∈ a, Address.isPlain c = true) (hbody : Address.Spelling a body) (hu : isUrlWord u)
    (hw : ∀ c ∈ w, isBlank c = true) (hw' : ∀ c ∈ w', isBlank c = true) {c : Char}
    {cs : List Char} (h : Address.wrapper u w body w' = c :: cs) :
    firstWhole c cs = plain .uri (c :: cs) := by
  have hfirst : first c cs = ofName (Address.wrapper u w body w') := by
    rw [h]
    apply first_of_isAlpha
    cases u with
    | nil => cases hu
    | cons d u =>
      obtain ⟨rfl, -⟩ := List.cons.inj h
      exact isAlpha_of_isUrlWord hu d (by simp)
  rw [firstWhole, hfirst]
  cases hbody with
  | bare =>
    rw [← h, Address.wrapper, ofName_bare hu (unquotedAddress?_bare hne ha hw hw')]
    rfl
  | @quoted q hq =>
    have hcall := ofName_quoted hu (unquotedAddress?_quoted hq hw (a ++ [q] ++ (w' ++ [')'])))
    have hdrop : (c :: cs).drop (u ++ ['(']).length = w ++ (q :: (a ++ [q]) ++ (w' ++ [')'])) := by
      rw [← h, Address.wrapper, List.append_cons u '(' (w ++ _)]
      exact List.drop_left
    rw [Address.wrapper, List.cons_append, hcall]
    change plain .uri (u ++ ['('] ++ arguments [')'] ((c :: cs).drop (u ++ ['(']).length)) = _
    rw [hdrop, arguments_quoted hq ha hw hw', ← List.append_cons, ← h]
    rfl

end Lexeme

/-- Bare or in either pair of quotes, in any case of `url` and with any blanks just inside the
parentheses, an address is one token and the value that the token gives is the address. -/
theorem Address.spellings_agree {a body u w w' : List Char} (ha : a ≠ [])
    (hplain : ∀ c ∈ a, isPlain c = true) (hbody : Spelling a body) (hu : isUrlWord u)
    (hw : ∀ c ∈ w, isBlank c = true) (hw' : ∀ c ∈ w', isBlank c = true) :
    ∃ t, Token.scan (String.ofList (wrapper u w body w')) = [t] ∧ t.kind = .uri ∧
      ∀ (p : Property) (name : Token) (important : Bool), p.grammar = .uri →
        Entry.build p name [t] important =
          .ok ⟨p, .uri (String.ofList a), important, name.position⟩ := by
  have hraw := ofWrapper?_wrapper ha hplain hbody hu hw hw'
  refine ⟨⟨.uri, String.ofList (wrapper u w body w'), .start⟩, ?_, rfl, ?_⟩
  · cases hcs : wrapper u w body w' with
    | nil => simp [wrapper] at hcs
    | cons c cs =>
      have hfirst := Lexeme.firstWhole_wrapper ha hplain hbody hu hw hw' hcs
      rw [Token.scan, String.toList_ofList, Token.scanFrom, hfirst]
      simp [Lexeme.plain, Token.scanFrom]
  · intro p name important hp
    simp [Entry.build, hp, Grammar.read, Grammar.readSingle, hraw]

/-- An address with the marks of comments and blocks in it, in single quotes. -/
theorem Address.spellings_agree_comment :
    let a := ['x', '/', '*', ';', '}', 'é']
    let w := [' ', '\t']
    let w' := ['\r', '\n']
    let source := String.ofList (wrapper ['u', 'R', 'L'] w ('\'' :: (a ++ ['\''])) w')
    let file : Property := ⟨"point-file", .uri⟩
    (∀ c ∈ a, isPlain c = true) ∧ isUrlWord ['u', 'R', 'L'] ∧ (∀ c ∈ w, isBlank c = true) ∧
      (∀ c ∈ w', isBlank c = true) ∧
      ∃ t, Token.scan source = [t] ∧ t.kind = .uri ∧
        Entry.build file t [t] false = .ok ⟨file, .uri (String.ofList a), false, t.position⟩ := by
  intro a w w' source file
  have hplain : ∀ c ∈ a, isPlain c = true := List.all_eq_true.mp rfl
  have hw : ∀ c ∈ w, isBlank c = true := List.all_eq_true.mp rfl
  have hw' : ∀ c ∈ w', isBlank c = true := List.all_eq_true.mp rfl
  have hquoted : Spelling a ('\'' :: (a ++ ['\''])) := .quoted rfl
  have hu : isUrlWord ['u', 'R', 'L'] := rfl
  obtain ⟨t, hscan, hkind, hbuild⟩ := spellings_agree (by simp [a]) hplain hquoted hu hw hw'
  exact ⟨hplain, hu, hw, hw', t, hscan, hkind, hbuild file t false rfl⟩

end Cartosheet
