import Cartosheet.Token.Scan

namespace Cartosheet

/-- One leading part after another. -/
theorem isPrefix_append {α : Type} {xs ys zs : List α} (hx : xs <+: zs)
    (hy : ys <+: zs.drop xs.length) : xs ++ ys <+: zs := by
  obtain ⟨rest, rfl⟩ := hx
  rw [List.drop_left] at hy
  exact (List.prefix_append_right_inj xs).mpr hy

theorem isPrefix_cons {α : Type} {x : α} {xs ys : List α} (h : xs <+: ys) : x :: xs <+: x :: ys :=
  List.cons_prefix_cons.mpr ⟨rfl, h⟩

theorem not_isPrefix_cons {α : Type} {x y : α} {xs ys : List α} (h : y ≠ x) :
    ¬x :: xs <+: y :: ys :=
  fun hxs => h (List.cons_prefix_cons.mp hxs).1.symm

/-- A run is all that has its property, if what follows does not begin with more of it. -/
theorem takeWhile_stop {α : Type} {p : α → Bool} {xs ys : List α} (hx : ∀ x ∈ xs, p x = true)
    (hy : ys.head?.any p = false) : (xs ++ ys).takeWhile p = xs := by
  rw [List.takeWhile_append_of_pos hx]
  cases ys with
  | nil => rw [List.takeWhile_nil, List.append_nil]
  | cons y ys => rw [List.takeWhile_cons_of_neg (by simpa using hy), List.append_nil]

theorem dropWhile_stop {α : Type} {p : α → Bool} {xs ys : List α} (hx : ∀ x ∈ xs, p x = true)
    (hy : ys.head?.any p = false) : (xs ++ ys).dropWhile p = ys := by
  rw [List.dropWhile_append_of_pos hx]
  cases ys with
  | nil => rfl
  | cons y ys => rw [List.dropWhile_cons_of_neg (by simpa using hy)]

/-- Every list begins with such a run. -/
theorem exists_run {α : Type} (p : α → Bool) (xs : List α) :
    ∃ run rest, xs = run ++ rest ∧ (∀ x ∈ run, p x = true) ∧ rest.head?.any p = false := by
  induction xs with
  | nil => exact ⟨[], [], rfl, by simp, rfl⟩
  | cons x xs ih =>
    cases hx : p x with
    | false => exact ⟨[], x :: xs, rfl, by simp, hx⟩
    | true =>
      obtain ⟨run, rest, rfl, hrun, hstop⟩ := ih
      exact ⟨x :: run, rest, rfl, by simpa [hx] using hrun, hstop⟩

/-- Where a member of two lists joined stands: in the first or behind it. -/
theorem split_append {α : Type} {xs ys before after : List α} {x : α}
    (h : xs ++ ys = before ++ x :: after) :
    (∃ rest, xs = before ++ x :: rest) ∨ ∃ lead, before = xs ++ lead ∧ ys = lead ++ x :: after := by
  rcases List.append_eq_append_iff.mp h with ⟨lead, hb, hy⟩ | ⟨rest, hx, hr⟩
  · exact .inr ⟨lead, hb, hy⟩
  · cases rest with
    | nil => exact .inr ⟨[], by simpa using hx.symm, by simpa using hr.symm⟩
    | cons y rest =>
      obtain ⟨rfl, -⟩ := List.cons.inj hr
      exact .inl ⟨rest, hx⟩

/-- A property tells two characters apart. -/
theorem ne_of_property {p : Char → Bool} {c : Char} (hc : p c = true) {d : Char}
    (hd : p d = false) : c ≠ d := by
  rintro rfl
  rw [hc] at hd
  cases hd

/-- And one from all that lack it. -/
theorem contains_eq_false {p : Char → Bool} {c : Char} (hc : p c = true) {cs : List Char}
    (h : cs.any p = false) : cs.contains c = false := by
  rw [List.contains_eq_mem, decide_eq_false_iff_not]
  intro hmem
  exact List.any_eq_false.mp h c hmem hc

theorem isDigit_eq_false_of_isAlpha {c : Char} (h : c.isAlpha = true) : c.isDigit = false := by
  rcases Bool.or_eq_true_iff.mp h with hupper | hlower
  · have hA : 'A'.val ≤ c.val := (of_decide_eq_true hupper).1
    grind [Char.isDigit]
  · have ha : 'a'.val ≤ c.val := of_decide_eq_true (Bool.and_eq_true_iff.mp hlower).1
    grind [Char.isDigit]

theorem isPrefix_lineBreak (cs : List Char) : lineBreak cs <+: cs := by
  cases cs with
  | nil => exact List.prefix_rfl
  | cons c cs =>
    rw [lineBreak]
    split
    · rename_i h
      simp only [Bool.and_eq_true, decide_eq_true_eq, List.head?_eq_some_iff] at h
      obtain ⟨rfl, rest, rfl⟩ := h
      exact ⟨rest, rfl⟩
    split
    · exact ⟨cs, rfl⟩
    · exact List.nil_prefix

theorem isPrefix_escapeEnd (cs : List Char) : escapeEnd cs <+: cs := by
  unfold escapeEnd
  split
  · exact isPrefix_lineBreak cs
  split
  · exact List.take_prefix 1 cs
  · exact List.nil_prefix

theorem isPrefix_escape (cs : List Char) : (escape cs).raw <+: cs := by
  cases cs with
  | nil => exact List.prefix_rfl
  | cons c cs =>
    rw [escape]
    split
    · refine isPrefix_append ?_ (isPrefix_escapeEnd _)
      have hdigits : ((c :: cs).take 6).takeWhile Hex.isDigit <+: (c :: cs).take 6 :=
        List.takeWhile_prefix _
      exact hdigits.trans ⟨_, List.take_append_drop 6 (c :: cs)⟩
    · exact ⟨cs, rfl⟩

theorem isPrefix_name (cs : List Char) : (name cs).raw <+: cs := by
  fun_induction name cs with
  | case1 => exact List.prefix_rfl
  | case2 => exact List.nil_prefix
  | case3 cs _ e ih => exact isPrefix_cons (isPrefix_append (isPrefix_escape cs) ih)
  | case4 c cs _ _ ih => exact isPrefix_cons ih
  | case5 => exact List.nil_prefix

/-- Characters of a name up to where none goes on are a name that stands for itself. -/
theorem name_append {w rest : List Char} (hw : ∀ c ∈ w, isNameChar c = true ∧ c ≠ '\x00')
    (hrest : name rest = .empty) : name (w ++ rest) = ⟨w, w⟩ := by
  induction w with
  | nil => exact hrest
  | cons c w ih =>
    obtain ⟨hc, hnul⟩ := hw c (by simp)
    have hescape : c ≠ '\\' := ne_of_property hc rfl
    rw [List.cons_append, name, if_neg hescape, if_pos hc, ih fun d hd => hw d (by simp [hd]),
      withoutNul, if_neg hnul]
    rfl

theorem name_eq_empty {c : Char} {cs : List Char} (hc : isNameChar c = false)
    (hescape : c ≠ '\\') : name (c :: cs) = .empty := by
  rw [name, if_neg hescape, if_neg (by simp [hc])]

theorem isPrefix_stringBody (quote : Char) (cs : List Char) :
    (stringBody quote cs).1.raw <+: cs := by
  fun_induction stringBody quote cs with
  | case1 => exact List.prefix_rfl
  | case2 cs => exact ⟨cs, rfl⟩
  | case3 => exact List.nil_prefix
  | case4 cs e p closed hp _ _ ih =>
    have he : e.raw <+: cs := by
      unfold e
      split
      · exact isPrefix_lineBreak cs
      split
      · exact List.nil_prefix
      · exact isPrefix_escape cs
    rw [hp] at ih
    exact isPrefix_cons (isPrefix_append he ih)
  | case5 c cs _ _ _ p closed hp ih =>
    rw [hp] at ih
    exact isPrefix_cons ih

theorem isPrefix_commentBody (cs : List Char) : commentBody cs <+: cs := by
  fun_induction commentBody cs with
  | case1 => exact List.prefix_rfl
  | case2 c cs h =>
    simp only [Bool.and_eq_true, decide_eq_true_eq, List.head?_eq_some_iff] at h
    obtain ⟨rfl, rest, rfl⟩ := h
    exact ⟨rest, rfl⟩
  | case3 c cs _ ih => exact isPrefix_cons ih

theorem isPrefix_signPart (cs : List Char) : signPart cs <+: cs := by
  cases cs with
  | nil => exact List.prefix_rfl
  | cons c cs =>
    simp only [signPart, List.take_succ_cons, List.take_zero, List.filter_cons, List.filter_nil]
    split
    · exact ⟨cs, rfl⟩
    · exact List.nil_prefix

theorem isPrefix_markedDigits {mark cs : List Char} (h : mark <+: cs) :
    markedDigits mark cs <+: cs := by
  unfold markedDigits
  dsimp only
  split
  · exact List.nil_prefix
  · exact isPrefix_append h <| List.takeWhile_prefix _

theorem isPrefix_fractionPart (cs : List Char) : fractionPart cs <+: cs := by
  unfold fractionPart
  split
  · rename_i h
    obtain ⟨rest, rfl⟩ := List.head?_eq_some_iff.mp h
    exact isPrefix_markedDigits ⟨rest, rfl⟩
  · exact List.nil_prefix

theorem isPrefix_exponentPart (cs : List Char) : exponentPart cs <+: cs := by
  cases cs with
  | nil => exact List.prefix_rfl
  | cons c cs =>
    rw [exponentPart]
    split
    · exact isPrefix_markedDigits (isPrefix_cons (isPrefix_signPart cs))
    · exact List.nil_prefix

theorem isPrefix_numberPart (cs : List Char) : numberPart cs <+: cs := by
  have hwhole := isPrefix_append (isPrefix_signPart cs) <| List.takeWhile_prefix Char.isDigit
  exact isPrefix_append (isPrefix_append hwhole (isPrefix_fractionPart _)) (isPrefix_exponentPart _)

theorem isPrefix_brokenAddress (cs : List Char) : brokenAddress cs <+: cs := by
  fun_induction brokenAddress cs with
  | case1 => exact List.prefix_rfl
  | case2 => exact List.prefix_rfl
  | case3 d cs => exact ⟨d :: cs, rfl⟩
  | case4 c d cs _ _ ih => exact isPrefix_cons (isPrefix_cons ih)
  | case5 c d cs _ _ ih => exact isPrefix_cons ih

theorem isPrefix_addressEnd (cs : List Char) : (addressEnd cs).1 <+: cs := by
  have hblanks : cs.takeWhile isBlank <+: cs := List.takeWhile_prefix _
  unfold addressEnd
  dsimp only
  split
  · exact hblanks
  · rename_i c rest hrest
    split
    · exact isPrefix_append hblanks ⟨rest, hrest.symm⟩
    · exact isPrefix_append hblanks (hrest ▸ isPrefix_cons (isPrefix_brokenAddress rest))

theorem isPrefix_addressBody (cs : List Char) : (addressBody cs).1 <+: cs := by
  fun_induction addressBody cs with
  | case1 => exact List.prefix_rfl
  | case2 cs => exact ⟨cs, rfl⟩
  | case3 c cs => exact isPrefix_addressEnd (c :: cs)
  | case4 c cs => exact isPrefix_cons (isPrefix_brokenAddress cs)
  | case5 c cs _ _ _ e rest whole hr ih =>
    have he : e <+: cs := by
      unfold e
      split
      · exact isPrefix_escape cs
      · exact List.nil_prefix
    rw [hr] at ih
    exact isPrefix_cons (isPrefix_append he ih)

namespace Lexeme

theorem isPrefix_ofString (quote : Char) (cs : List Char) :
    (ofString quote cs).raw <+: quote :: cs := by
  have h := isPrefix_cons (x := quote) (isPrefix_stringBody quote cs)
  unfold ofString
  dsimp only
  split <;> exact h

theorem isPrefix_ofHash (cs : List Char) : (ofHash cs).raw <+: '#' :: cs := by
  unfold ofHash
  split
  · exact isPrefix_cons (isPrefix_name cs)
  · exact ⟨cs, rfl⟩

theorem isPrefix_ofAt (cs : List Char) : (ofAt cs).raw <+: '@' :: cs := by
  unfold ofAt
  split
  · exact isPrefix_cons (isPrefix_name cs)
  · exact ⟨cs, rfl⟩

theorem isPrefix_ofNumber (cs : List Char) : (ofNumber cs).raw <+: cs := by
  have hnumber := isPrefix_numberPart cs
  unfold ofNumber
  dsimp only
  split
  · rename_i h
    obtain ⟨rest, hrest⟩ := List.head?_eq_some_iff.mp h
    exact isPrefix_append hnumber ⟨rest, hrest.symm⟩
  split
  · exact isPrefix_append hnumber (isPrefix_name _)
  · exact hnumber

theorem isPrefix_unquotedAddress? {cs raw : List Char} {whole : Bool}
    (h : unquotedAddress? cs = some (raw, whole)) : raw <+: cs := by
  unfold unquotedAddress? at h
  dsimp only at h
  split at h
  · cases h
  · cases h
    refine isPrefix_append ?_ (isPrefix_addressBody _)
    exact List.takeWhile_prefix _

theorem isPrefix_ofName (cs : List Char) : (ofName cs).raw <+: cs := by
  have hname := isPrefix_name cs
  unfold ofName
  dsimp only
  split
  · rename_i h
    obtain ⟨rest, hrest⟩ := List.head?_eq_some_iff.mp h
    have hopened : (name cs).raw ++ ['('] <+: cs := isPrefix_append hname ⟨rest, hrest.symm⟩
    split
    · split
      · rename_i raw whole hraw
        rw [hrest, List.tail_cons] at hraw
        refine isPrefix_append hopened ?_
        rw [List.length_append, ← List.drop_drop, hrest]
        exact isPrefix_unquotedAddress? hraw
      · exact hopened
    · exact hopened
  · exact hname

theorem isPrefix_markPart (cs : List Char) : markPart cs <+: cs := by
  unfold markPart
  split
  · exact List.take_prefix 3 cs
  split
  · exact List.take_prefix 4 cs
  split
  · exact List.take_prefix 2 cs
  · exact List.nil_prefix

/-- A lexeme is read from the start of the text. -/
theorem isPrefix_first (c : Char) (cs : List Char) : (first c cs).raw <+: c :: cs := by
  unfold first
  split
  · exact isPrefix_cons <| List.takeWhile_prefix _
  split
  · rename_i h
    simp only [Bool.and_eq_true, decide_eq_true_eq, List.head?_eq_some_iff] at h
    obtain ⟨rfl, rest, rfl⟩ := h
    exact isPrefix_cons (isPrefix_cons (isPrefix_commentBody rest))
  split
  · exact isPrefix_ofString c cs
  split
  · rename_i h
    subst h
    exact isPrefix_ofHash cs
  split
  · rename_i h
    subst h
    exact isPrefix_ofAt cs
  split
  · exact isPrefix_ofNumber (c :: cs)
  split
  · exact isPrefix_markPart (c :: cs)
  split
  · exact isPrefix_ofName (c :: cs)
  · exact ⟨cs, rfl⟩

/-- What a call takes in goes on behind the lexeme that it starts with. -/
theorem arguments_of_first {c : Char} {cs rest awaited : List Char} {l : Lexeme}
    (hfirst : first c cs = l) (hcs : c :: cs = l.raw ++ rest) (ha : awaited ≠ []) :
    arguments awaited (c :: cs) = l.raw ++ arguments (l.settle awaited) rest := by
  rw [arguments, if_neg (by simpa using ha), hfirst]
  dsimp only
  rw [hcs, List.drop_left]

theorem isPrefix_arguments (awaited cs : List Char) : arguments awaited cs <+: cs := by
  fun_induction arguments awaited cs with
  | case1 => exact List.prefix_rfl
  | case2 => exact List.nil_prefix
  | case3 awaited c cs _ l ih => exact isPrefix_append (isPrefix_first c cs) ih

/-- So is a call with its arguments. -/
theorem isPrefix_firstWhole (c : Char) (cs : List Char) :
    (firstWhole c cs).raw <+: c :: cs := by
  unfold firstWhole
  dsimp only
  split
  · exact isPrefix_append (isPrefix_first c cs) (isPrefix_arguments _ _)
  · exact isPrefix_first c cs

theorem firstWhole_raw_append (c : Char) (cs : List Char) :
    (firstWhole c cs).raw ++ (c :: cs).drop (firstWhole c cs).raw.length = c :: cs :=
  List.prefix_iff_eq_append.mp (isPrefix_firstWhole c cs)

theorem kind_ofString (quote : Char) (cs : List Char) :
    (ofString quote cs).kind = .string ∨ (ofString quote cs).kind = .other := by
  unfold ofString
  dsimp only
  split
  · exact .inl rfl
  · exact .inr rfl

theorem kind_ofHash (cs : List Char) :
    (ofHash cs).kind = .hash ∨ (ofHash cs).kind = .character := by
  unfold ofHash
  split
  · exact .inl rfl
  · exact .inr rfl

theorem kind_ofAt (cs : List Char) :
    (ofAt cs).kind = .other ∨ (ofAt cs).kind = .character := by
  unfold ofAt
  split
  · exact .inl rfl
  · exact .inr rfl

theorem kind_ofNumber (cs : List Char) :
    ofNumber cs = plain .number (numberPart cs) ∨ (ofNumber cs).kind = .other := by
  unfold ofNumber
  dsimp only
  split
  · exact .inr rfl
  split
  · exact .inr rfl
  · exact .inl rfl

theorem kind_ofName (cs : List Char) :
    (ofName cs).kind = .identifier ∨ (ofName cs).kind = .uri ∨ (ofName cs).kind = .other := by
  unfold ofName
  dsimp only
  split
  · split
    · split
      · rename_i raw whole _
        cases whole with
        | true => exact .inr (.inl rfl)
        | false => exact .inr (.inr rfl)
      · exact .inr (.inl rfl)
    · exact .inr (.inr rfl)
  · exact .inl rfl

end Lexeme

/-- What holds of a token for every lexeme holds of the tokens of a text. -/
theorem Token.forall_scanFrom {P : Token → Prop}
    (h : ∀ c cs p,
      P ⟨(Lexeme.firstWhole c cs).kind, String.ofList (Lexeme.firstWhole c cs).text, p⟩)
    (p : Position) (cs : List Char) : ∀ t ∈ scanFrom p cs, P t := by
  fun_induction scanFrom p cs with
  | case1 => simp
  | case2 p c cs l ih =>
    intro t ht
    rcases List.mem_cons.mp ht with rfl | ht
    · exact h c cs p
    · exact ih t ht

end Cartosheet
