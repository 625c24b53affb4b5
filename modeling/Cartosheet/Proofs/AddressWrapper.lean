import Cartosheet.Proofs.LexemeText
import Cartosheet.Value.Quoting

namespace Cartosheet

/-- Trimming takes off the blanks around a text that neither begins nor ends with one. -/
theorem trimBlanks_padded {body w w' : List Char} (hbody : body ≠ [])
    (hfirst : body.head?.any isBlank = false) (hlast : body.getLast?.any isBlank = false)
    (hw : ∀ c ∈ w, isBlank c = true) (hw' : ∀ c ∈ w', isBlank c = true) :
    trimBlanks (w ++ (body ++ w')) = body := by
  have hlead : (w ++ (body ++ w')).dropWhile isBlank = body ++ w' := by
    apply dropWhile_stop hw
    obtain ⟨c, cs, rfl⟩ := List.exists_cons_of_ne_nil hbody
    exact hfirst
  have htrail : (w'.reverse ++ body.reverse).dropWhile isBlank = body.reverse := by
    apply dropWhile_stop
    · simpa using hw'
    · rwa [List.head?_reverse]
  rw [trimBlanks, hlead, List.reverse_append, htrail, List.reverse_reverse]

/-- Trimming takes off nothing but blanks. -/
theorem exists_padding (cs : List Char) :
    ∃ w w', (∀ c ∈ w, isBlank c = true) ∧ (∀ c ∈ w', isBlank c = true) ∧
      cs = w ++ (trimBlanks cs ++ w') := by
  have hblank {ds : List Char} : ∀ c ∈ ds.takeWhile isBlank, isBlank c = true := by
    intro c hc
    exact List.all_eq_true.mp List.all_takeWhile c hc
  refine ⟨cs.takeWhile isBlank, ((cs.dropWhile isBlank).reverse.takeWhile isBlank).reverse,
    hblank, ?_, ?_⟩
  · intro c hc
    exact hblank c (List.mem_reverse.mp hc)
  · rw [trimBlanks, ← List.reverse_append, List.takeWhile_append_dropWhile, List.reverse_reverse,
      List.takeWhile_append_dropWhile]

/-- The letters of `url`, each in either case. -/
def isUrlWord (u : List Char) : Prop := u.map Char.toLower = ['u', 'r', 'l']

namespace Address

/-- A wrapper with blanks on both sides of what it holds. -/
def wrapper (u w body w' : List Char) : List Char := u ++ '(' :: (w ++ (body ++ (w' ++ [')'])))

/-- What may stand in a wrapper for an address: the address bare, if it has neither quotes nor
blanks, or the address between two equal quotes that do not occur in it. -/
inductive Enclosed (a : List Char) : List Char → Prop
  | bare : (∀ c ∈ a, isQuote c = false ∧ isBlank c = false) → Enclosed a a
  | quoted {q : Char} : isQuote q = true → q ∉ a → Enclosed a (q :: (a ++ [q]))

variable {a body u w w' : List Char}

theorem isBlank_of_isQuote {q : Char} (h : isQuote q = true) : isBlank q = false := by
  rcases Bool.or_eq_true_iff.mp h with hq | hq <;> rw [of_decide_eq_true hq] <;> rfl

theorem Enclosed.ne_nil (h : Enclosed a body) (ha : a ≠ []) : body ≠ [] := by
  cases h with
  | bare => exact ha
  | quoted => simp

/-- A body neither begins nor ends with a blank, so trimming leaves it whole. -/
theorem Enclosed.ends_not_blank (h : Enclosed a body) :
    body.head?.any isBlank = false ∧ body.getLast?.any isBlank = false := by
  cases h with
  | bare hclean =>
    have hinside (found : Option Char) (hf : ∀ c, found = some c → c ∈ a) :
        found.any isBlank = false := by
      cases found with
      | none => rfl
      | some c => exact (hclean c (hf c rfl)).2
    exact ⟨hinside _ fun _ => List.mem_of_head?, hinside _ fun _ => List.mem_of_getLast?⟩
  | quoted hq =>
    have hlast : ∀ q, (q :: (a ++ [q])).getLast? = some q := by
      intro q
      rw [← List.cons_append, List.getLast?_concat]
    rw [hlast]
    exact ⟨isBlank_of_isQuote hq, isBlank_of_isQuote hq⟩

theorem ofBody?_eq_some_iff : ofBody? body = some a ↔ a ≠ [] ∧ Enclosed a body := by
  constructor
  · intro h
    cases body with
    | nil => cases h
    | cons c cs =>
      rw [ofBody?] at h
      split at h
      · rename_i hq
        dsimp only at h
        split at h
        · rename_i hcond
          simp only [Bool.and_eq_true, Bool.not_eq_true', decide_eq_true_eq,
            List.contains_eq_mem, decide_eq_false_iff_not, List.isEmpty_eq_false_iff] at hcond
          obtain ⟨⟨hlast, hinside⟩, hne⟩ := hcond
          obtain ⟨address, rfl⟩ := List.getLast?_eq_some_iff.mp hlast
          rw [List.dropLast_concat] at h hinside hne
          cases h
          exact ⟨hne, .quoted hq hinside⟩
        · cases h
      · split at h
        · cases h
        · rename_i hclean
          cases h
          refine ⟨by simp, .bare ?_⟩
          intro d hd
          simpa using fun hbad => hclean (List.any_eq_true.mpr ⟨d, hd, hbad⟩)
  · rintro ⟨ha, h⟩
    cases h with
    | bare hclean =>
      obtain ⟨c, cs, rfl⟩ := List.exists_cons_of_ne_nil ha
      have hany : (c :: cs).any (fun d => isQuote d || isBlank d) = false := by
        rw [List.any_eq_false]
        intro d hd
        simp [hclean d hd]
      rw [ofBody?, if_neg (by simp [hclean c (by simp)]), if_neg (by simp [hany])]
    | quoted hq hinside => simp [ofBody?, hq, hinside, ha]

/-- Only what stands between the parentheses counts. -/
theorem ofWrapper?_parenthesized (hu : isUrlWord u) (inner : List Char) :
    ofWrapper? (String.ofList (u ++ '(' :: (inner ++ [')']))) =
      (ofBody? (trimBlanks inner)).map String.ofList := by
  have hopen : (u ++ ['(']).length = 4 := by
    simpa using congrArg List.length hu
  have hword : (u ++ ['(']).map Char.toLower = opening := by
    rw [List.map_append, hu]
    rfl
  rw [ofWrapper?, String.toList_ofList, List.append_cons, List.take_left' hopen,
    List.drop_left' hopen]
  simp [hword]

theorem ofWrapper?_of_enclosed (ha : a ≠ []) (hbody : Enclosed a body) (hu : isUrlWord u)
    (hw : ∀ c ∈ w, isBlank c = true) (hw' : ∀ c ∈ w', isBlank c = true) :
    ofWrapper? (String.ofList (wrapper u w body w')) = some (String.ofList a) := by
  obtain ⟨hfirst, hlast⟩ := hbody.ends_not_blank
  have hparts : wrapper u w body w' = u ++ '(' :: ((w ++ (body ++ w')) ++ [')']) := by
    simp [wrapper]
  rw [hparts, ofWrapper?_parenthesized hu,
    trimBlanks_padded (hbody.ne_nil ha) hfirst hlast hw hw', ofBody?_eq_some_iff.mpr ⟨ha, hbody⟩]
  rfl

theorem toLower_eq_paren {c : Char} (h : c.toLower = '(') : c = '(' := by
  by_cases hupper : c.val ≥ 'A'.val ∧ c.val ≤ 'Z'.val
  · have hval : c.toLower.val = c.val + 32 := congrArg Char.val (dif_pos hupper)
    rw [h] at hval
    grind
  · have hsame : c.toLower = c := dif_neg hupper
    rwa [hsame] at h

/-- Four characters that are `url(` but for the case are the word and the parenthesis. -/
theorem exists_urlWord {f : List Char} (h : f.map Char.toLower = opening) :
    ∃ u, isUrlWord u ∧ f = u ++ ['('] := by
  have hsplit : f.map Char.toLower = ['u', 'r', 'l'] ++ ['('] := h
  obtain ⟨u, p, rfl, hu, hp⟩ := List.map_eq_append_iff.mp hsplit
  obtain ⟨c, rfl, hc⟩ := List.map_eq_singleton_iff.mp hp
  exact ⟨u, hu, by rw [toLower_eq_paren hc]⟩

theorem parenthesized_of_ofWrapper? {raw address : String} (h : ofWrapper? raw = some address) :
    ∃ u inner, isUrlWord u ∧ raw = String.ofList (u ++ '(' :: (inner ++ [')'])) := by
  unfold ofWrapper? at h
  dsimp only at h
  split at h
  · rename_i hends
    rw [Bool.and_eq_true, decide_eq_true_eq, decide_eq_true_eq] at hends
    obtain ⟨u, hu, htake⟩ := exists_urlWord hends.1
    obtain ⟨inner, hdrop⟩ := List.getLast?_eq_some_iff.mp hends.2
    refine ⟨u, inner, hu, ?_⟩
    apply String.toList_inj.mp
    rw [String.toList_ofList, ← List.take_append_drop 4 raw.toList, htake, hdrop,
      ← List.append_cons]
  · cases h

/-- The text takes apart into a wrapper and an address that is not empty. -/
def Wraps (raw address : String) : Prop :=
  address ≠ "" ∧ ∃ u w body w', isUrlWord u ∧ (∀ c ∈ w, isBlank c = true) ∧
    (∀ c ∈ w', isBlank c = true) ∧ Enclosed address.toList body ∧
    raw = String.ofList (wrapper u w body w')

theorem ofWrapper?_eq_some_iff {raw address : String} :
    ofWrapper? raw = some address ↔ Wraps raw address := by
  constructor
  · intro h
    obtain ⟨u, inner, hu, rfl⟩ := parenthesized_of_ofWrapper? h
    rw [ofWrapper?_parenthesized hu] at h
    obtain ⟨a, hbody, rfl⟩ := Option.map_eq_some_iff.mp h
    obtain ⟨ha, henclosed⟩ := ofBody?_eq_some_iff.mp hbody
    obtain ⟨w, w', hw, hw', hinner⟩ := exists_padding inner
    refine ⟨?_, u, w, trimBlanks inner, w', hu, hw, hw', ?_, ?_⟩
    · rwa [ne_eq, String.ofList_eq_empty_iff]
    · rwa [String.toList_ofList]
    · have hclosed : inner ++ [')'] = w ++ (trimBlanks inner ++ w') ++ [')'] :=
        congrArg (· ++ [')']) hinner
      rw [wrapper, hclosed, List.append_assoc, List.append_assoc]
  · rintro ⟨hne, u, w, body, w', hu, hw, hw', henclosed, rfl⟩
    have ha : address.toList ≠ [] := by
      rwa [ne_eq, String.toList_eq_nil_iff]
    rw [ofWrapper?_of_enclosed ha henclosed hu hw hw', String.ofList_toList]

theorem utf8Size_of_toLower {c : Char} (h : c.toLower.utf8Size = 1) : c.utf8Size = 1 := by
  rw [Char.utf8Size_eq_one_iff] at h ⊢
  by_cases hupper : c.val ≥ 'A'.val ∧ c.val ≤ 'Z'.val
  · grind
  · have hsame : c.toLower = c := dif_neg hupper
    rwa [hsame] at h

theorem utf8ByteSize_ascii {cs : List Char} (h : ∀ c ∈ cs, c.utf8Size = 1) :
    (String.ofList cs).utf8ByteSize = cs.length := by
  induction cs with
  | nil => rfl
  | cons c cs ih =>
    rw [String.ofList_cons, String.utf8ByteSize_append, String.utf8ByteSize_singleton,
      h c (by simp), ih fun d hd => h d (by simp [hd]), List.length_cons, Nat.add_comm]

theorem utf8ByteSize_opening (hu : isUrlWord u) :
    (String.ofList (u ++ ['('])).utf8ByteSize = 4 := by
  have hlength : (u ++ ['(']).length = 4 := by
    simpa using congrArg List.length hu
  rw [← hlength]
  apply utf8ByteSize_ascii
  intro c hc
  have hsmall : (['u', 'r', 'l'] ++ ['(']).all (·.utf8Size = 1) = true := rfl
  have hmem : c.toLower ∈ (u ++ ['(']).map Char.toLower := List.mem_map_of_mem hc
  rw [List.map_append, hu] at hmem
  exact utf8Size_of_toLower (of_decide_eq_true (List.all_eq_true.mp hsmall _ hmem))

/-- A part of a text lies between two positions, neither of them inside a character. -/
theorem exists_positions {raw before part after : String} (h : raw = before ++ (part ++ after)) :
    ∃ start stop : raw.Pos, start.offset = before.rawEndPos ∧
      stop.offset = (before ++ part).rawEndPos ∧ start ≤ stop ∧
      String.extract start stop = part := by
  have hstop : raw = before ++ part ++ after := by
    rw [h, String.append_assoc]
  let start : raw.Pos := ⟨before.rawEndPos,
    String.Pos.Raw.isValid_iff_exists_append.mpr ⟨before, part ++ after, h, rfl⟩⟩
  let stop : raw.Pos := ⟨(before ++ part).rawEndPos,
    String.Pos.Raw.isValid_iff_exists_append.mpr ⟨before ++ part, after, hstop, rfl⟩⟩
  obtain ⟨hle, hpart⟩ := String.copy_slice_eq_iff_splits.mpr
    ⟨before, after, (⟨h, rfl⟩ : start.Splits _ _), (⟨hstop, rfl⟩ : stop.Splits _ _)⟩
  exact ⟨start, stop, rfl, rfl, hle, (String.extract_eq_copy_slice start stop hle).trans hpart⟩

theorem Enclosed.exists_append (h : Enclosed a body) : ∃ q q', body = q ++ (a ++ q') := by
  cases h with
  | bare => exact ⟨[], [], by simp⟩
  | @quoted q => exact ⟨[q], [q], rfl⟩

/-- The opening is four bytes long, and the address lies behind it between two positions. -/
theorem Wraps.exists_positions {raw address : String} (h : Wraps raw address) :
    ∃ opened start stop : raw.Pos, opened.offset.byteIdx = 4 ∧ opened ≤ start ∧ start ≤ stop ∧
      String.extract start stop = address := by
  obtain ⟨-, u, w, body, w', hu, -, -, henclosed, hraw⟩ := h
  obtain ⟨q, q', rfl⟩ := henclosed.exists_append
  have hparts : raw = String.ofList (u ++ ['(']) ++
      (String.ofList (w ++ q) ++ (address ++ String.ofList (q' ++ (w' ++ [')'])))) := by
    rw [hraw, wrapper]
    apply String.toList_inj.mp
    simp
  obtain ⟨opened, -, hopened, -⟩ := Address.exists_positions hparts
  obtain ⟨start, stop, hstart, -, hle, hextract⟩ :=
    Address.exists_positions (hparts.trans String.append_assoc.symm)
  refine ⟨opened, start, stop, ?_, ?_, hle, hextract⟩
  · rw [hopened, String.byteIdx_rawEndPos, utf8ByteSize_opening hu]
  · rw [String.Pos.le_iff, hopened, hstart, String.Pos.Raw.le_iff, String.byteIdx_rawEndPos,
      String.byteIdx_rawEndPos, String.utf8ByteSize_append]
    exact Nat.le_add_right _ _

/-- Exactly the wrappers hold an address, the only one that they can be taken apart for; and neither
the opening nor the address begins or ends inside a character. -/
theorem ofWrapper?_exact (raw address : String) :
    (ofWrapper? raw = some address ↔ Wraps raw address) ∧
    (∀ other, Wraps raw address → Wraps raw other → address = other) ∧
    (Wraps raw address → ∃ opened start stop : raw.Pos, opened.offset.byteIdx = 4 ∧
      opened ≤ start ∧ start ≤ stop ∧ String.extract start stop = address) := by
  refine ⟨ofWrapper?_eq_some_iff, ?_, Wraps.exists_positions⟩
  intro other h hother
  rw [← ofWrapper?_eq_some_iff] at h hother
  rw [h] at hother
  exact Option.some.inj hother

/-- A quote of the other kind, a parenthesis and blanks inside the address, and characters of two
and three bytes at its ends. -/
theorem ofWrapper?_exact_quoted :
    let raw := "uRL(\t\"é' ) x€\"\n )"
    let address := "é' ) x€"
    Wraps raw address ∧ ofWrapper? raw = some address ∧
      (∀ other, Wraps raw other → address = other) ∧
      ∃ opened start stop : raw.Pos, opened.offset.byteIdx = 4 ∧ opened ≤ start ∧ start ≤ stop ∧
        String.extract start stop = address := by
  intro raw address
  have hw : ∀ c ∈ ['\t'], isBlank c = true := List.all_eq_true.mp rfl
  have hw' : ∀ c ∈ ['\n', ' '], isBlank c = true := List.all_eq_true.mp rfl
  have hinside : '"' ∉ address.toList := by decide
  have hwraps : Wraps raw address :=
    ⟨by decide, ['u', 'R', 'L'], ['\t'], '"' :: (address.toList ++ ['"']), ['\n', ' '], rfl, hw, hw',
      .quoted rfl hinside, by decide⟩
  obtain ⟨hexact, hunique, hcuts⟩ := ofWrapper?_exact raw address
  exact ⟨hwraps, hexact.mpr hwraps, fun other => hunique other hwraps, hcuts hwraps⟩

end Address

end Cartosheet
