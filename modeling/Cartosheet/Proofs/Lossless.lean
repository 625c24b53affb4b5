import Cartosheet.Proofs.LexemeOutline
import Cartosheet.Proofs.LineBreaks
import Cartosheet.Proofs.NestedBlocks

namespace Cartosheet

open Outline (Part Divides Outlined spelled)

theorem exists_bracket {c : Char} (h : isBracket c = true) :
    ∃ b : Bracket, c = b.opening ∨ c = b.closing := by
  simp only [isBracket, List.contains_eq_mem, List.mem_cons, List.not_mem_nil, or_false,
    decide_eq_true_eq] at h
  rcases h with rfl | rfl | rfl | rfl | rfl | rfl
  · exact ⟨.round, .inl rfl⟩
  · exact ⟨.round, .inr rfl⟩
  · exact ⟨.square, .inl rfl⟩
  · exact ⟨.square, .inr rfl⟩
  · exact ⟨.curly, .inl rfl⟩
  · exact ⟨.curly, .inr rfl⟩

namespace Lexeme

variable {c : Char} {cs mid : List Char}

/-- Without escapes a lexeme's text is what was read. -/
theorem text_firstWhole (h : Unescaped (c :: cs)) :
    (firstWhole c cs).text = (firstWhole c cs).raw := by
  obtain ⟨rest, hfirst⟩ := Outline.outlined_first h
  unfold firstWhole
  dsimp only
  split
  · rfl
  · exact hfirst.text

theorem arguments_nil (cs : List Char) : arguments [] cs = [] := by
  cases cs <;> rw [arguments]
  rfl

theorem first_opening (b : Bracket) (cs : List Char) :
    first b.opening cs = plain .character [b.opening] := by
  cases b <;> exact first_standsAlone rfl cs

theorem first_closing (b : Bracket) (cs : List Char) :
    first b.closing cs = plain .character [b.closing] := by
  cases b <;> exact first_standsAlone rfl cs

theorem settle_opening (b : Bracket) (awaited : List Char) :
    (plain .character [b.opening]).settle awaited = b.closing :: awaited := by
  cases b <;> rfl

theorem settle_closing (b : Bracket) (awaited : List Char) :
    (plain .character [b.closing]).settle (b.closing :: awaited) = awaited := by
  cases b <;> rfl

theorem settle_stray {b b' : Bracket} (h : b' ≠ b) (awaited : List Char) :
    (plain .character [b.closing]).settle (b'.closing :: awaited) = b'.closing :: awaited := by
  cases b <;> cases b' <;> first | rfl | exact absurd rfl h

theorem settle_unbracketed {kind : TokenKind} {raw : List Char}
    (h : ∀ c ∈ raw, isBracket c = false) (b : Bracket) (awaited : List Char) :
    (plain kind raw).settle (b.closing :: awaited) = b.closing :: awaited := by
  have hne {c : Char} (hc : isBracket c = true) : raw ≠ [c] := by
    rintro rfl
    rw [h c (by simp)] at hc
    cases hc
  unfold settle
  simp only [plain, Bool.false_eq_true, if_false, List.take_succ_cons, List.take_zero,
    hne (c := '(') rfl, hne (c := '[') rfl, hne (c := '{') rfl, hne (isBracket_closing b), ite_self]

theorem settle_whole {kind : TokenKind} {raw : List Char} (h : kind ≠ .character)
    (awaited : List Char) : (plain kind raw).settle awaited = awaited := by
  simp [settle, plain, h]

theorem settle_call {l : Lexeme} (h : l.isCall = true) (awaited : List Char) :
    l.settle awaited = Bracket.round.closing :: awaited :=
  if_pos h

end Lexeme

namespace Token

/-- The texts of the tokens one after the other. -/
def texts (ts : List Token) : List Char := ts.flatMap (·.text.toList)

@[simp] theorem texts_cons (t : Token) (ts : List Token) :
    texts (t :: ts) = t.text.toList ++ texts ts := rfl

@[simp] theorem texts_append (ts us : List Token) : texts (ts ++ us) = texts ts ++ texts us :=
  List.flatMap_append

theorem texts_scanFrom (p : Position) {cs : List Char} (h : Unescaped cs) :
    texts (scanFrom p cs) = cs := by
  fun_induction scanFrom p cs with
  | case1 => rfl
  | case2 p c cs l ih =>
    have htext : l.text = l.raw := Lexeme.text_firstWhole h
    rw [texts_cons, ih (h.drop _), String.toList_ofList, htext]
    exact Lexeme.firstWhole_raw_append c cs

theorem text_ne_empty (p : Position) {cs : List Char} (h : Unescaped cs) :
    ∀ t ∈ scanFrom p cs, t.text ≠ "" := by
  fun_induction scanFrom p cs with
  | case1 => simp
  | case2 p c cs l ih =>
    have htext : l.text = l.raw := Lexeme.text_firstWhole h
    intro t ht
    rcases List.mem_cons.mp ht with rfl | ht
    · rw [Ne, String.ofList_eq_empty_iff, htext]
      exact Lexeme.raw_firstWhole_ne_nil c cs
    · exact ih (h.drop _) t ht

/-- A token stands where the texts of those before it end. -/
theorem position_scanFrom {p : Position} {cs : List Char} (h : Unescaped cs)
    {before after : List Token} {t : Token} (hscan : scanFrom p cs = before ++ t :: after) :
    t.position = p.advance (texts before) := by
  fun_induction scanFrom p cs generalizing before with
  | case1 => simp at hscan
  | case2 p c cs l ih =>
    cases before with
    | nil =>
      cases hscan
      rfl
    | cons u before =>
      rw [List.cons_append] at hscan
      obtain ⟨rfl, hrest⟩ := List.cons.inj hscan
      have htext : l.text = l.raw := Lexeme.text_firstWhole h
      have hunsplit : Unsplit l.raw ((c :: cs).drop l.raw.length) := Lexeme.unsplit_firstWhole c cs
      rw [← texts_scanFrom (p.advance l.raw) (h.drop l.raw.length), hrest, texts_append] at hunsplit
      rw [ih (h.drop _) hrest, texts_cons, String.toList_ofList, htext,
        Position.advance_append hunsplit.left]

/-- Tokens that show the parts of an outline, in order: a bracket as a character, a stretch that is
one token as that token, and loose characters in runs. -/
inductive Renders : List Part → List Token → Prop
  | nil : Renders [] []
  | loose {cs : List Char} {ps : List Part} {t : Token} {ts : List Token} :
      t.text = String.ofList cs → Renders ps ts → Renders (cs.map .loose ++ ps) (t :: ts)
  | bracket {c : Char} {ps : List Part} {t : Token} {ts : List Token} : t.kind = .character →
      t.text = String.singleton c → Renders ps ts → Renders (.bracket c :: ps) (t :: ts)
  | whole {kind : TokenKind} {text : List Char} {ps : List Part} {t : Token} {ts : List Token} :
      t.kind = kind → t.text = String.ofList text → Renders ps ts →
      Renders (.whole kind text :: ps) (t :: ts)

theorem Renders.append {ps qs : List Part} {ts us : List Token} (h : Renders ps ts)
    (h' : Renders qs us) : Renders (ps ++ qs) (ts ++ us) := by
  induction h with
  | nil => exact h'
  | loose htext _ ih =>
    rw [List.append_assoc]
    exact .loose htext ih
  | bracket hkind htext _ ih => exact .bracket hkind htext ih
  | whole hkind htext _ ih => exact .whole hkind htext ih

/-- A text is read along its outline: its tokens render the parts, and a call that awaits the end of
the same block takes them in. -/
structure Follows (outer : Option Bracket) (cs : List Char) (ps : List Part) (rest : List Char) :
    Prop where
  divides : Divides outer cs ps rest
  tokens (p : Position) : ∃ ts q, scanFrom p cs = ts ++ scanFrom q rest ∧ Renders ps ts
  arguments (b : Bracket) (awaited : List Char) : outer = some b →
    Lexeme.arguments (b.closing :: awaited) cs = spelled ps ++ Lexeme.arguments awaited rest

namespace Follows

variable {outer : Option Bracket} {c : Char} {cs mid rest : List Char} {ps qs : List Part}

theorem ended : Follows outer [] [] [] := by
  refine ⟨.ended, fun p => ⟨[], p, rfl, .nil⟩, fun b awaited _ => ?_⟩
  rw [Lexeme.arguments, Lexeme.arguments]
  rfl

/-- One lexeme that neither opens nor closes a block. -/
theorem lexeme {kind : TokenKind} {raw : List Char}
    (hfirst : Lexeme.first c cs = .plain kind raw) (hcs : c :: cs = raw ++ mid)
    (hdivides : Divides outer mid qs rest → Divides outer (c :: cs) (ps ++ qs) rest)
    (hspelled : spelled ps = raw)
    (hrenders : ∀ p, Renders ps [⟨kind, String.ofList raw, p⟩])
    (hsettle : ∀ b awaited, outer = some b →
      (Lexeme.plain kind raw).settle (b.closing :: awaited) = b.closing :: awaited)
    (h : Follows outer mid qs rest) : Follows outer (c :: cs) (ps ++ qs) rest := by
  refine ⟨hdivides h.divides, fun p => ?_, fun b awaited hb => ?_⟩
  · obtain ⟨ts, q, hscan, hts⟩ := h.tokens (p.advance raw)
    refine ⟨_ :: ts, q, ?_, (hrenders p).append hts⟩
    rw [scanFrom_of_first hfirst rfl, hcs]
    simp [Lexeme.plain, hscan]
  · rw [Lexeme.arguments_of_first hfirst hcs (by simp), hsettle b awaited hb, h.arguments b awaited hb,
      Outline.spelled_append, hspelled, List.append_assoc]
    rfl

theorem loose {kind : TokenKind} {raw : List Char} (hfirst : Lexeme.first c cs = .plain kind raw)
    (hcs : c :: cs = raw ++ mid) (hleads : Outline.Leads raw mid)
    (h : Follows outer mid qs rest) : Follows outer (c :: cs) (raw.map .loose ++ qs) rest := by
  have hdivides := hleads outer qs rest h.divides
  rw [← hcs] at hdivides
  have hunbracketed (d : Char) (hd : d ∈ raw) : isBracket d = false :=
    hdivides.isBracket_of_loose (by simp [hd])
  have hrenders (p : Position) : Renders (raw.map .loose) [⟨kind, String.ofList raw, p⟩] := by
    have hrun : Renders (raw.map .loose ++ []) [⟨kind, String.ofList raw, p⟩] := .loose rfl .nil
    rwa [List.append_nil] at hrun
  exact h.lexeme hfirst hcs (fun _ => hdivides) (Outline.spelled_loose raw) hrenders
    fun b awaited _ => Lexeme.settle_unbracketed hunbracketed b awaited

theorem whole {kind : TokenKind} {raw : List Char} (hfirst : Lexeme.first c cs = .plain kind raw)
    (hcs : c :: cs = raw ++ mid) (hkind : kind ≠ .character)
    (hpiece : Outline.Piece (raw ++ mid) [.whole kind raw] mid) (h : Follows outer mid qs rest) :
    Follows outer (c :: cs) (.whole kind raw :: qs) rest := by
  rw [← hcs] at hpiece
  have hrenders (p : Position) : Renders [.whole kind raw] [⟨kind, String.ofList raw, p⟩] :=
    .whole rfl rfl .nil
  exact h.lexeme hfirst hcs (.piece hpiece) (by simp [Part.text]) hrenders
    fun b awaited _ => Lexeme.settle_whole hkind _

theorem closed {b : Bracket} :
    Follows (some b) (b.closing :: rest) [.bracket b.closing] rest := by
  refine ⟨.closed, fun p => ?_, ?_⟩
  · refine ⟨[_], p.advance [b.closing], ?_, .bracket (t := ⟨.character, _, p⟩) rfl rfl .nil⟩
    rw [scanFrom_of_first (Lexeme.first_closing b rest) rfl]
    rfl
  · rintro _ awaited ⟨⟩
    rw [Lexeme.arguments_of_first (Lexeme.first_closing b rest) rfl (by simp),
      Lexeme.settle_closing]
    rfl

theorem stray {b : Bracket} (houter : outer ≠ some b) (h : Follows outer cs ps rest) :
    Follows outer (b.closing :: cs) (.bracket b.closing :: ps) rest := by
  have hsettle (b' : Bracket) (awaited : List Char) (hb' : outer = some b') :
      (Lexeme.plain .character [b.closing]).settle (b'.closing :: awaited) =
        b'.closing :: awaited := by
    refine Lexeme.settle_stray ?_ awaited
    rintro rfl
    exact houter hb'
  have hrenders (p : Position) : Renders [.bracket b.closing] [⟨.character, _, p⟩] :=
    .bracket rfl rfl .nil
  exact h.lexeme (Lexeme.first_closing b cs) rfl (.stray houter) rfl hrenders hsettle

theorem block {b : Bracket} (hinside : Follows (some b) cs ps mid)
    (hrest : Follows outer mid qs rest) :
    Follows outer (b.opening :: cs) (.bracket b.opening :: (ps ++ qs)) rest := by
  refine ⟨.block hinside.divides hrest.divides, fun p => ?_, fun b' awaited hb' => ?_⟩
  · obtain ⟨ts, q, hscan, hts⟩ := hinside.tokens (p.advance [b.opening])
    obtain ⟨us, q', hscan', hus⟩ := hrest.tokens q
    refine ⟨_ :: (ts ++ us), q', ?_, .bracket (t := ⟨.character, _, p⟩) rfl rfl (hts.append hus)⟩
    rw [scanFrom_of_first (Lexeme.first_opening b cs) rfl, List.cons_append, List.append_assoc, ← hscan',
      ← hscan]
    rfl
  · rw [Lexeme.arguments_of_first (Lexeme.first_opening b cs) rfl (by simp), Lexeme.settle_opening,
      hinside.arguments b _ rfl, hrest.arguments b' awaited hb']
    simp [Lexeme.plain, Part.text]

theorem firstWhole_call {w : List Char}
    (hfirst : Lexeme.first c cs = ⟨.other, w ++ ['('], w ++ ['('], true⟩)
    (hcs : c :: cs = w ++ '(' :: mid) (hinside : Follows (some .round) mid ps rest) :
    Lexeme.firstWhole c cs = .plain .other (w ++ '(' :: spelled ps) := by
  have hdrop : (c :: cs).drop (w ++ ['(']).length = mid := by simp [hcs]
  have harguments : Lexeme.arguments [')'] mid = spelled ps ++ Lexeme.arguments [] rest :=
    hinside.arguments .round [] rfl
  rw [Lexeme.arguments_nil, List.append_nil] at harguments
  unfold Lexeme.firstWhole
  dsimp only
  rw [hfirst, if_pos rfl, hdrop, harguments, List.append_assoc]
  rfl

theorem call {w inner : List Char} (hname : Outline.IsName w) (hurl : ¬isUrlWord w)
    (hfirst : Lexeme.first c cs = ⟨.other, w ++ ['('], w ++ ['('], true⟩)
    (hcs : c :: cs = w ++ '(' :: inner) (hinside : Follows (some .round) inner ps mid)
    (hrest : Follows outer mid qs rest) :
    Follows outer (c :: cs) (.whole .other (w ++ '(' :: spelled ps) :: qs) rest := by
  have hspelled : spelled ps ++ mid = inner := hinside.divides.spelled_append
  have hdrop : (c :: cs).drop (w ++ '(' :: spelled ps).length = mid := by simp [hcs, ← hspelled]
  refine ⟨?_, fun p => ?_, fun b awaited hb => ?_⟩
  · rw [hcs]
    exact .call hname hurl hinside.divides hrest.divides
  · obtain ⟨ts, q, hscan, hts⟩ := hrest.tokens (p.advance (w ++ '(' :: spelled ps))
    refine ⟨⟨.other, String.ofList (w ++ '(' :: spelled ps), p⟩ :: ts, q, ?_, .whole rfl rfl hts⟩
    rw [scanFrom, firstWhole_call hfirst hcs hinside, List.cons_append, ← hscan]
    dsimp only [Lexeme.plain]
    rw [hdrop]
  · have hcs' : c :: cs = (w ++ ['(']) ++ inner := by simp [hcs]
    rw [Lexeme.arguments_of_first hfirst hcs' (by simp), Lexeme.settle_call rfl,
      hinside.arguments .round _ rfl, hrest.arguments b awaited hb]
    simp [Part.text]

end Follows

/-- Every unescaped text is read along its outline. -/
theorem exists_follows (outer : Option Bracket) (cs : List Char) (h : Unescaped cs) :
    ∃ ps rest, Follows outer cs ps rest := by
  cases cs with
  | nil => exact ⟨[], [], .ended⟩
  | cons c cs =>
    obtain ⟨mid, hlexeme⟩ := Outline.outlined_first h
    have hraw := Lexeme.raw_first_ne_nil c cs
    generalize hfirst : Lexeme.first c cs = l at hlexeme hraw
    have hmid : Unescaped mid := h.of_suffix ⟨l.raw, hlexeme.raw_append⟩
    have hlt : mid.length < (c :: cs).length := by
      have hlength := congrArg List.length hlexeme.raw_append
      have hpos := List.length_pos_iff.mpr hraw
      rw [List.length_append] at hlength
      omega
    generalize hcs : c :: cs = cs' at hlexeme
    cases hlexeme with
    | loose hleads =>
      obtain ⟨qs, rest, hfollows⟩ := exists_follows outer mid hmid
      rw [← hcs]
      exact ⟨_, rest, hfollows.loose hfirst hcs hleads⟩
    | bracket hb =>
      obtain ⟨rfl, rfl⟩ := List.cons.inj hcs
      obtain ⟨b, rfl | rfl⟩ := exists_bracket hb
      · obtain ⟨ps, mid', hinside⟩ := exists_follows (some b) cs hmid
        have hsuffix := hinside.divides.suffix
        have hlt' := hsuffix.length_le
        obtain ⟨qs, rest, hrest⟩ := exists_follows outer mid' (hmid.of_suffix hsuffix)
        exact ⟨_, rest, hinside.block hrest⟩
      · by_cases houter : outer = some b
        · subst houter
          exact ⟨_, cs, .closed⟩
        · obtain ⟨ps, rest, hfollows⟩ := exists_follows outer cs hmid
          exact ⟨_, rest, hfollows.stray houter⟩
    | whole hkind hpiece =>
      obtain ⟨qs, rest, hfollows⟩ := exists_follows outer mid hmid
      rw [← hcs]
      exact ⟨_, rest, hfollows.whole hfirst hcs hkind hpiece⟩
    | call hname hurl =>
      obtain ⟨ps, mid', hinside⟩ := exists_follows (some .round) mid hmid
      have hsuffix := hinside.divides.suffix
      have hlt' := hsuffix.length_le
      obtain ⟨qs, rest, hrest⟩ := exists_follows outer mid' (hmid.of_suffix hsuffix)
      rw [← hcs]
      exact ⟨_, rest, .call hname hurl hfirst hcs hinside hrest⟩
termination_by cs.length

/-- Splitting an unescaped text into tokens is lossless. No token is empty, their texts one after
the other are the text, and each stands where those before it end; read block by block it has the
same tokens; and they render the one outline of the text. So a bracket is a character of its own,
but for those of comments, addresses and calls, each of which is one token up to its end. -/
theorem scan_lossless (source : String) (h : Unescaped source.toList) :
    (∀ t ∈ scan source, t.text ≠ "") ∧ String.join ((scan source).map (·.text)) = source ∧
      (∀ before t after, scan source = before ++ t :: after →
        t.position = Position.start.advance (texts before)) ∧
      walkAll source = scan source ∧
      ∃ parts, (∀ parts', Divides none source.toList parts' [] ↔ parts' = parts) ∧
        (∀ c, .loose c ∈ parts → isBracket c = false) ∧ Renders parts (scan source) := by
  have htexts : texts (scan source) = source.toList := texts_scanFrom .start h
  refine ⟨text_ne_empty .start h, ?_, fun _ _ _ hscan => position_scanFrom h hscan,
    walkAll_eq_scan source, ?_⟩
  · rw [← String.toList_inj, String.toList_join, ← htexts, List.flatMap_map]
    rfl
  · obtain ⟨parts, rest, hfollows⟩ := exists_follows none source.toList h
    have hdivides := hfollows.divides
    obtain rfl := hdivides.rest_eq_nil
    refine ⟨parts, fun parts' => ⟨fun hparts' => (hparts'.unique hdivides).1, ?_⟩,
      fun _ => hdivides.isBracket_of_loose, ?_⟩
    · rintro rfl
      exact hdivides
    · obtain ⟨ts, q, hscan, hts⟩ := hfollows.tokens .start
      rw [scanFrom, List.append_nil] at hscan
      rw [scan, hscan]
      exact hts

/-- Brackets that cross, inside a call and outside, and brackets that never close. -/
theorem scan_lossless_crossed :
    let source := "([)]f(a[)])\x7burl(\x7b)/*]*/"
    let parts : List Part := [.bracket '(', .bracket '[', .bracket ')', .bracket ']',
      .whole .other "f(a[)])".toList, .bracket '{', .whole .uri "url(\x7b)".toList,
      .whole .comment "/*]*/".toList]
    Unescaped source.toList ∧ Divides none source.toList parts [] ∧
      Renders parts (scan source) := by
  intro source parts
  have h : Unescaped source.toList := by
    have hall : source.toList.all
        (fun c => c ≠ '\\' && c ≠ '\x00' && c ≠ '"' && c ≠ '\'') = true := by decide
    intro c hc
    simpa [and_assoc] using List.all_eq_true.mp hall c hc
  have hword : Outline.Piece ([] ++ (['a'] ++ _)) [.loose 'a'] "[)])\x7burl(\x7b)/*]*/".toList :=
    .word (.inl rfl) (by simp) (by simp [isNameChar, isNameStart]) rfl (by simp)
  have hurl : Outline.IsName ['u', 'r', 'l'] := ⟨by simp [isNameChar, isNameStart], rfl⟩
  have haddress : Outline.Closes [')'] ['{'] ['{', ')'] "/*]*/".toList := .found (by simp)
  have hcomment : Outline.Closes ['*', '/'] [']'] "]*/".toList [] :=
    .found (by simp [List.infix_cons_iff])
  -- the call with the rest of the block that it stands in
  have hcall : Divides (some .round) "f(a[)])\x7burl(\x7b)/*]*/".toList
      (.whole .other "f(a[)])".toList :: parts.drop 5) [] :=
    .call (w := ['f']) ⟨by simp [isNameChar, isNameStart], rfl⟩ (by simp [isUrlWord])
      (.piece hword (.block (b := .square) (.stray (b := .round) (by decide) .closed)
        (.closed (b := .round))))
      (.block (b := .curly)
        (.piece (.address hurl rfl haddress) (.piece (.comment hcomment) .ended)) .ended)
  have hopen := Divides.block (b := .round)
    (.block (b := .square) (.stray (b := .round) (by decide) (.closed (b := .square))) hcall)
    (.ended : Divides none [] [] [])
  have hsource :
      source.toList = '(' :: '[' :: ')' :: ']' :: "f(a[)])\x7burl(\x7b)/*]*/".toList := by
    decide
  have hdivides : Divides none source.toList parts [] := by
    rw [hsource]
    exact hopen
  obtain ⟨-, -, -, -, parts', hunique, -, hrenders⟩ := scan_lossless source h
  rw [← (hunique parts).mp hdivides] at hrenders
  exact ⟨h, hdivides, hrenders⟩

end Token

end Cartosheet
