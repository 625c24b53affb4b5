import Cartosheet.Proofs.SelectorGrammar
import Cartosheet.Proofs.TagOrder
import Cartosheet.Proofs.ZoomRewrite
import Cartosheet.Selector.Specificity

namespace Cartosheet

namespace Specificity

@[simp]
theorem zero_add (a : Specificity) : zero.add a = a := by simp [add, zero]

@[simp]
theorem add_zero (a : Specificity) : a.add zero = a := by simp [add, zero]

/-- All three counts together. -/
def size (a : Specificity) : Nat := a.ids + a.names + a.tests

theorem size_add (a b : Specificity) : (a.add b).size = a.size + b.size := by
  simp only [size, add]
  omega

theorem add_assoc (a b c : Specificity) : (a.add b).add c = a.add (b.add c) := by
  simp [add, Nat.add_assoc]

end Specificity

/-- The tokens outside brackets, from a place where one is open or none is. -/
def outsideBrackets (inside : Bool) : List Token → List Token
  | [] => []
  | t :: ts =>
    if t.isChar '[' then outsideBrackets true ts
    else if t.isChar ']' then outsideBrackets false ts
    else if inside then outsideBrackets true ts
    else t :: outsideBrackets false ts

/-- How often a `[`, the word `zoom` and a `=` follow one another among significant tokens. -/
def zoomEqualities : List Token → Nat
  | t :: u :: v :: ts =>
    (t.isChar '[' && u.isWord "zoom" && v.isChar '=').toNat + zoomEqualities (u :: v :: ts)
  | _ => 0

/-- What significant tokens count for: hashes; names outside brackets and stars; tests, those on one
level twice. -/
def tally (ts : List Token) : Specificity :=
  ⟨ts.countP (·.kind = .hash),
    (outsideBrackets false ts).countP (·.kind = .identifier) + ts.countP (·.isChar '*'),
    ts.countP (·.isChar '[') + zoomEqualities ts⟩

section

variable {t u v : Token} {ts us : List Token}

theorem outsideBrackets_cons (hopen : t.isChar '[' = false) (hclose : t.isChar ']' = false) :
    outsideBrackets false (t :: ts) = t :: outsideBrackets false ts := by
  simp [outsideBrackets, hopen, hclose]

/-- Up to its closing bracket a test has no part outside. -/
theorem outsideBrackets_inside (h : ∀ t ∈ ts, t.isChar '[' = false ∧ t.isChar ']' = false)
    (hclose : u.isChar ']' = true) :
    outsideBrackets true (ts ++ u :: us) = outsideBrackets false us := by
  induction ts with
  | nil => simp [outsideBrackets, hclose, Token.isChar_eq_false hclose]
  | cons t ts ih =>
    obtain ⟨ht, hts⟩ := List.forall_mem_cons.mp h
    simpa [outsideBrackets, ht] using ih hts

theorem zoomEqualities_cons (ht : t.isChar '[' = false) :
    zoomEqualities (t :: ts) = zoomEqualities ts := by
  cases ts with
  | nil => rfl
  | cons u ts =>
    cases ts with
    | nil => rfl
    | cons v ts => simp [zoomEqualities, ht]

theorem zoomEqualities_append (hts : Unbracketed ts) :
    zoomEqualities (ts ++ us) = zoomEqualities us := by
  induction ts with
  | nil => rfl
  | cons t ts ih =>
    rw [List.cons_append, zoomEqualities_cons (hts t (by simp))]
    exact ih fun v hv => hts v (by simp [hv])

/-- A token that is no bracket counts by itself. -/
theorem tally_cons (hopen : t.isChar '[' = false) (hclose : t.isChar ']' = false)
    (us : List Token) : tally (t :: us) = (tally [t]).add (tally us) := by
  have hnone : outsideBrackets false [] = [] := rfl
  have hzero : zoomEqualities [] = 0 := rfl
  simp only [tally, Specificity.add, outsideBrackets_cons hopen hclose, zoomEqualities_cons hopen,
    List.countP_cons, List.countP_nil, hopen, hnone, hzero]
  congr 1
  · omega
  · omega
  · simp

/-- Of the tokens that are no characters, hashes and identifiers count. -/
theorem tally_word (ht : t.kind ≠ .character) (us : List Token) :
    tally (t :: us) =
      (⟨(decide (t.kind = .hash)).toNat, (decide (t.kind = .identifier)).toNat, 0⟩ :
        Specificity).add (tally us) := by
  have hchar {a : Char} : t.isChar a = false := Token.isChar_of_kind ht
  have hone : tally [t] =
      ⟨(decide (t.kind = .hash)).toNat, (decide (t.kind = .identifier)).toNat, 0⟩ := by
    by_cases hhash : t.kind = .hash <;> by_cases hname : t.kind = .identifier <;>
      simp [tally, outsideBrackets, zoomEqualities, hchar, hhash, hname]
  rw [tally_cons hchar hchar, hone]

/-- Of the other characters only a star counts. -/
theorem tally_char {a : Char} (ht : t.isChar a = true) (hopen : a ≠ '[') (hclose : a ≠ ']')
    (us : List Token) :
    tally (t :: us) = (⟨0, (t.isChar '*').toNat, 0⟩ : Specificity).add (tally us) := by
  have hopen' : t.isChar '[' = false := Token.isChar_eq_false ht hopen
  have hclose' : t.isChar ']' = false := Token.isChar_eq_false ht hclose
  have hone : tally [t] = ⟨0, (t.isChar '*').toNat, 0⟩ := by
    cases hstar : t.isChar '*' <;>
      simp [tally, outsideBrackets, zoomEqualities, hopen', hclose', hstar, Token.kind_of_isChar ht]
  rw [tally_cons hopen' hclose', hone]

/-- A token that counts for nothing inside a test. -/
def Quiet (t : Token) : Prop :=
  t.kind ≠ .hash ∧ t.isChar '*' = false ∧ t.isChar '[' = false ∧ t.isChar ']' = false

theorem countP_test {p : Token → Bool} {close : Token} {inner : List Token}
    (hinner : ∀ t ∈ inner, p t = false) (hclose : p close = false) (bracket : Token)
    (us : List Token) :
    (bracket :: (inner ++ close :: us)).countP p = us.countP p + if p bracket then 1 else 0 := by
  have hzero : inner.countP p = 0 := List.countP_eq_zero.mpr fun t ht => by simp [hinner t ht]
  rw [List.countP_cons, List.countP_append, hzero, List.countP_cons_of_neg (by simp [hclose]),
    Nat.zero_add]

/-- A `[` before the word `zoom` and a `=`, and nothing more of the kind up to its `]`. -/
theorem zoomEqualities_test {bracket name op close : Token} {rest : List Token}
    (hbracket : bracket.isChar '[' = true) (hbare : Unbracketed (name :: op :: rest))
    (hclose : close.isChar ']' = true) (us : List Token) :
    zoomEqualities (bracket :: (name :: op :: rest ++ close :: us)) =
      (name.isWord "zoom" && op.isChar '=').toNat + zoomEqualities us := by
  have hafter : zoomEqualities (name :: op :: rest ++ close :: us) = zoomEqualities us := by
    rw [zoomEqualities_append hbare,
      zoomEqualities_cons (Token.isChar_eq_false hclose (by decide))]
  rw [← hafter]
  simp [zoomEqualities, hbracket]

/-- A test counts once, and once more if it is on one level. -/
theorem tally_test {bracket name op close : Token} {rest : List Token}
    (hbracket : bracket.isChar '[' = true) (hquiet : ∀ t ∈ name :: op :: rest, Quiet t)
    (hclose : close.isChar ']' = true) (us : List Token) :
    tally (bracket :: (name :: op :: rest ++ close :: us)) =
      (⟨0, 0, 1 + (name.isWord "zoom" && op.isChar '=').toNat⟩ : Specificity).add (tally us) := by
  have hhash {t : Token} {a : Char} (ht : t.isChar a = true) :
      decide (t.kind = .hash) = false := by
    simp [Token.kind_of_isChar ht]
  have hhashes := countP_test (fun t ht => decide_eq_false (hquiet t ht).1) (hhash hclose)
    bracket us
  have hstars := countP_test (fun t ht => (hquiet t ht).2.1)
    (Token.isChar_eq_false hclose (by decide)) bracket us
  have hopens := countP_test (fun t ht => (hquiet t ht).2.2.1)
    (Token.isChar_eq_false hclose (by decide)) bracket us
  have houtside : outsideBrackets false (bracket :: (name :: op :: rest ++ close :: us)) =
      outsideBrackets false us := by
    rw [outsideBrackets, if_pos hbracket]
    exact outsideBrackets_inside (fun t ht => (hquiet t ht).2.2) hclose
  have hzoom := zoomEqualities_test hbracket (fun t ht => (hquiet t ht).2.2.1) hclose us
  rw [tally, hhashes, hstars, hopens, houtside, hzoom]
  have hstar : bracket.isChar '*' = false := Token.isChar_eq_false hbracket (by decide)
  simp only [hhash hbracket, hstar, hbracket, tally, Specificity.add]
  congr 1
  · simp
  · simp
  · simp only [if_true]
    omega

end

theorem countP_significant {p : Token → Bool} (hp : ∀ t, p t = true → t.isTransparent = false)
    (ts : List Token) : (significant ts).countP p = ts.countP p := by
  rw [significant, List.countP_filter]
  apply List.countP_congr
  intro t _
  simpa using hp t

theorem outsideBrackets_significant (inside : Bool) (ts : List Token) :
    outsideBrackets inside (significant ts) = significant (outsideBrackets inside ts) := by
  fun_induction outsideBrackets inside ts with
  | case1 => rfl
  | case2 inside t ts hopen ih =>
    rw [significant_cons (Token.isTransparent_of_isChar hopen), outsideBrackets, if_pos hopen, ih]
  | case3 inside t ts hopen hclose ih =>
    rw [significant_cons (Token.isTransparent_of_isChar hclose), outsideBrackets, if_neg hopen,
      if_pos hclose, ih]
  | case4 t ts hopen hclose ih =>
    by_cases ht : t.isTransparent = true
    · simpa [significant, ht] using ih
    · simpa [significant, ht, outsideBrackets, hopen, hclose] using ih
  | case5 inside t ts hopen hclose hinside ih =>
    cases eq_false_of_ne_true hinside
    by_cases ht : t.isTransparent = true
    · simpa [significant, ht] using ih
    · simpa [significant, ht, outsideBrackets, hopen, hclose] using ih

/-- What tokens count for does not hang on whitespace and comments, and a test on one level is found
without them. -/
theorem tally_significant (ts : List Token) :
    tally (significant ts) = ⟨ts.countP (·.kind = .hash),
      (outsideBrackets false ts).countP (·.kind = .identifier) + ts.countP (·.isChar '*'),
      ts.countP (·.isChar '[') + zoomEqualities (significant ts)⟩ := by
  have hkind {k : TokenKind} (hwhitespace : k ≠ .whitespace) (hcomment : k ≠ .comment) (t : Token)
      (ht : decide (t.kind = k) = true) : t.isTransparent = false := by
    simp [Token.isTransparent, of_decide_eq_true ht, hwhitespace, hcomment]
  have hchar {a : Char} (t : Token) (ht : t.isChar a = true) : t.isTransparent = false :=
    Token.isTransparent_of_isChar ht
  rw [tally, outsideBrackets_significant, countP_significant hchar, countP_significant hchar,
    countP_significant (hkind (by simp) (by simp)), countP_significant (hkind (by simp) (by simp))]

theorem significant_uncommented (ts : List Token) :
    significant (uncommented ts) = significant ts := by
  rw [significant, uncommented, List.filter_filter, significant]
  apply List.filter_congr
  intro t _
  by_cases ht : t.kind = .comment <;> simp [Token.isTransparent, Token.isComment, ht]

theorem Blank.significant {gap : List Token} (h : Blank gap) : significant gap = [] := by
  apply List.filter_eq_nil_iff.mpr
  intro t ht
  simp [Token.isTransparent, h t ht]

theorem quiet_of_kind {t : Token} (hhash : t.kind ≠ .hash) (hchar : t.kind ≠ .character) :
    Quiet t :=
  ⟨hhash, Token.isChar_of_kind hchar, Token.isChar_of_kind hchar, Token.isChar_of_kind hchar⟩

theorem quiet_of_isChar {t : Token} {a : Char} (ht : t.isChar a = true) (hstar : a ≠ '*')
    (hopen : a ≠ '[') (hclose : a ≠ ']') : Quiet t :=
  ⟨by simp [Token.kind_of_isChar ht], Token.isChar_eq_false ht hstar,
    Token.isChar_eq_false ht hopen, Token.isChar_eq_false ht hclose⟩

namespace Selector

theorem IsOperator.quiet {ops : List Token} {op : Operator} (h : IsOperator ops op) :
    ∀ t ∈ ops, t.isTransparent = false ∧ Quiet t := by
  have hsign {t : Token} {a : Char} (ht : t.isChar a = true) (ha : a ∈ ['=', '<', '>', '!']) :
      t.isTransparent = false ∧ Quiet t := by
    refine ⟨Token.isTransparent_of_isChar ht, quiet_of_isChar ht ?_ ?_ ?_⟩ <;>
      · rintro rfl
        simp at ha
  cases h with
  | equal ht => simpa using hsign ht (by simp)
  | less ht => simpa using hsign ht (by simp)
  | greater ht => simpa using hsign ht (by simp)
  | atMost ht hu => simpa using ⟨hsign ht (by simp), hsign hu (by simp)⟩
  | atLeast ht hu => simpa using ⟨hsign ht (by simp), hsign hu (by simp)⟩
  | unequal ht hu => simpa using ⟨hsign ht (by simp), hsign hu (by simp)⟩

/-- Only an equality begins with `=`. -/
theorem IsOperator.head {ops : List Token} {op : Operator} (h : IsOperator ops op) :
    ∃ t ts, ops = t :: ts ∧ t.isChar '=' = decide (op = .equal) := by
  have hother {t : Token} {a : Char} (ht : t.isChar a = true) (ha : a ≠ '=') :
      t.isChar '=' = false := Token.isChar_eq_false ht ha
  cases h with
  | equal ht => exact ⟨_, _, rfl, ht⟩
  | less ht => exact ⟨_, _, rfl, hother ht (by decide)⟩
  | greater ht => exact ⟨_, _, rfl, hother ht (by decide)⟩
  | atMost ht => exact ⟨_, _, rfl, hother ht (by decide)⟩
  | atLeast ht => exact ⟨_, _, rfl, hother ht (by decide)⟩
  | unequal ht => exact ⟨_, _, rfl, hother ht (by decide)⟩

theorem IsScalar.quiet {t : Token} {v : Scalar} (h : IsScalar t v) :
    t.isTransparent = false ∧ Quiet t := by
  cases h with
  | number hk =>
    exact ⟨by simp [Token.isTransparent, hk], quiet_of_kind (by simp [hk]) (by simp [hk])⟩
  | string hk =>
    exact ⟨by simp [Token.isTransparent, hk], quiet_of_kind (by simp [hk]) (by simp [hk])⟩

/-- A test without its whitespace: the name, the operator, and nothing that counts up to the closing
bracket. -/
theorem IsTest.significant {ts : List Token} {test : Test} (h : IsTest ts test) :
    ∃ name op rest close, significant ts = name :: op :: rest ++ [close] ∧
      (name.isWord "zoom" && op.isChar '=') = Zoom.isExact test ∧
      (∀ t ∈ name :: op :: rest, Quiet t) ∧ close.isChar ']' = true := by
  obtain ⟨hgap, hname, hgap₁, hops, hgap₂, hvalue, hgap₃, hclose⟩ := h
  rename_i gap gap₁ gap₂ gap₃ ops name value close op v
  have hsigns : Cartosheet.significant ops = ops :=
    List.filter_eq_self.mpr fun t ht => by simp [hops.quiet t ht]
  have hquiet : ∀ t ∈ name :: ops ++ [value], Quiet t := by
    simp only [List.cons_append, List.mem_cons, List.mem_append, List.not_mem_nil, or_false]
    rintro t (rfl | ht | rfl)
    · exact quiet_of_kind (by simp [hname]) (by simp [hname])
    · exact (hops.quiet t ht).2
    · exact hvalue.quiet.2
  obtain ⟨first, others, rfl, hfirst⟩ := hops.head
  refine ⟨name, first, others ++ [value], close, ?_, ?_, by simpa using hquiet, hclose⟩
  · have hnamed : Cartosheet.significant [name] = [name] := by
      simp [Cartosheet.significant, Token.isTransparent, hname]
    have hvalued : Cartosheet.significant [value] = [value] := by
      simp [Cartosheet.significant, hvalue.quiet.1]
    have hclosed : Cartosheet.significant [close] = [close] := by
      simp [Cartosheet.significant, Token.isTransparent_of_isChar hclose]
    simp only [significant_append, hgap.significant, hgap₁.significant, hgap₂.significant,
      hgap₃.significant, hsigns, hnamed, hvalued, hclosed]
    simp
  · simp only [Token.isWord, hname, decide_true, Bool.true_and, hfirst]
    rfl

/-- What an item adds to the specificity. -/
def Item.weight : Item → Specificity
  | element _ => ⟨0, 1, 0⟩
  | name n => if n.isId then ⟨1, 0, 0⟩ else ⟨0, 1, 0⟩
  | test t => ⟨0, 0, 1 + (Zoom.isExact t).toNat⟩

theorem Name.isId_ofText {t : Token} (ht : t.kind = .hash) (hs : t.Signed) :
    (Name.ofText t.text).isId = true := by
  obtain ⟨cs, hcs⟩ := hs ht
  simp [Name.ofText, hcs, Name.isId]

/-- The tokens of an item count for what the item adds. -/
theorem IsItem.tally {ts : List Token} {item : Item} (h : IsItem ts item)
    (hs : ∀ t ∈ ts, t.Signed) (us : List Token) :
    tally (significant ts ++ us) = item.weight.add (tally us) := by
  have hsingle {t : Token} (ht : t.isTransparent = false) : significant [t] = [t] :=
    significant_cons ht []
  have hname {t : Token} (ht : t.kind = .identifier) :
      Cartosheet.tally (significant [t] ++ us) =
        (⟨0, 1, 0⟩ : Specificity).add (Cartosheet.tally us) := by
    have hword := tally_word (t := t) (by simp [ht]) us
    rw [hsingle (by simp [Token.isTransparent, ht])]
    simpa [ht] using hword
  cases h with
  | element ht => exact hname ht
  | @hash t ht =>
    have hword := tally_word (t := t) (by simp [ht]) us
    rw [hsingle (by simp [Token.isTransparent, ht]), Item.weight,
      if_pos (Name.isId_ofText ht (hs t (by simp)))]
    simpa [ht] using hword
  | universal ht =>
    have hstar := tally_char ht (by decide) (by decide) us
    rw [ht] at hstar
    rw [hsingle (Token.isTransparent_of_isChar ht)]
    exact hstar
  | @className dot t hdot ht =>
    have hdots := tally_char hdot (by decide) (by decide) (significant [t] ++ us)
    rw [Token.isChar_eq_false hdot (by decide), hname ht] at hdots
    rw [significant_cons (Token.isTransparent_of_isChar hdot)]
    exact hdots.trans (Specificity.zero_add _)
  | test hbracket htest =>
    obtain ⟨name, op, rest, close, hsignificant, hexact, hquiet, hclose⟩ := htest.significant
    rw [significant_cons (Token.isTransparent_of_isChar hbracket), hsignificant, List.cons_append,
      List.append_assoc, List.singleton_append, tally_test hbracket hquiet hclose, hexact]
    rfl

/-- An item adds no more than it has tokens. -/
theorem IsItem.size_weight {ts : List Token} {item : Item} (h : IsItem ts item) :
    item.weight.size ≤ ts.length := by
  have hname (n : Name) : (Item.weight (.name n)).size = 1 := by
    by_cases hn : n.isId = true <;> simp [Item.weight, Specificity.size, hn]
  cases h with
  | element => exact Nat.le_refl 1
  | hash => exact (hname _).le
  | universal => exact (hname _).le
  | className => exact (hname _).le.trans (Nat.le_succ 1)
  | @test bracket ts t _ htest =>
    obtain ⟨name, op, rest, close, hsignificant, -⟩ := htest.significant
    have hle : (significant ts).length ≤ ts.length := List.length_filter_le ..
    have hbool : (Zoom.isExact t).toNat ≤ 1 := Bool.toNat_le _
    simp only [hsignificant, List.length_append, List.length_cons] at hle
    simp only [Item.weight, Specificity.size, List.length_cons]
    omega

/-- What an element counts for, before its shorthand is expanded. -/
def Element.weight (e : Element) : Specificity :=
  ⟨e.ids, e.names.length - e.ids, e.tests.length + e.tests.countP Zoom.isExact⟩

def total (elements : List Element) : Specificity :=
  elements.foldl (fun sum e => sum.add e.weight) .zero

theorem total_concat (elements : List Element) (e : Element) :
    total (elements ++ [e]) = (total elements).add e.weight := by
  simp [total]

theorem Element.ids_le (e : Element) : e.ids ≤ e.names.length := List.countP_le_length

theorem Element.weight_addName (e : Element) (n : Name) :
    (e.addName n).weight = e.weight.add (Item.weight (.name n)) := by
  have hle : e.ids ≤ e.names.length := e.ids_le
  have hlength : (e.addName n).names.length = e.names.length + 1 := List.length_append
  by_cases hn : n.isId = true
  · have hids : (e.addName n).ids = e.ids + 1 := by simp [ids, addName, hn]
    rw [Item.weight, if_pos hn, weight, hids, hlength, Nat.add_sub_add_right]
    rfl
  · have hids : (e.addName n).ids = e.ids := by simp [ids, addName, hn]
    rw [Item.weight, if_neg hn, weight, hids, hlength, Nat.sub_add_comm hle]
    rfl

theorem Element.weight_addTest (e : Element) (t : Test) :
    (e.addTest t).weight = e.weight.add (Item.weight (.test t)) := by
  have hlength : (e.addTest t).tests.length = e.tests.length + 1 := List.length_append
  have hexact : (e.addTest t).tests.countP Zoom.isExact =
      e.tests.countP Zoom.isExact + (Zoom.isExact t).toNat := by
    by_cases ht : Zoom.isExact t = true <;> simp [addTest, ht]
  rw [weight, hlength, hexact, Nat.add_add_add_comm]
  rfl

theorem total_joinLast {change : Element → Element} {w : Specificity}
    (h : ∀ e : Element, (change e).weight = e.weight.add w) (elements : List Element) :
    total (joinLast change elements) = (total elements).add w := by
  rcases elements.eq_nil_or_concat' with rfl | ⟨es, e, rfl⟩
  · have hempty : (change {}).weight = w := (h {}).trans (Specificity.zero_add w)
    exact congrArg Specificity.zero.add hempty
  · rw [joinLast_concat, total_concat, total_concat, h, Specificity.add_assoc]

/-- An item adds its weight, whichever element it joins. -/
theorem total_join (item : Item) (elements : List Element) :
    total (item.join elements) = (total elements).add item.weight := by
  cases item with
  | element tag => exact total_concat elements _
  | name n => exact total_joinLast (fun e => e.weight_addName n) elements
  | test t => exact total_joinLast (fun e => e.weight_addTest t) elements

theorem total_joined {ts : List Token} {items : List Item} (h : IsItems ts items)
    (hs : ∀ t ∈ ts, t.Signed) (elements : List Element) :
    total (joined elements items) = (total elements).add (tally (significant ts)) := by
  induction h generalizing elements with
  | nil hgap =>
    rw [hgap.significant]
    exact (Specificity.add_zero _).symm
  | @cons gap ts us item items hgap hitem _ ih =>
    have hrest := ih (fun t ht => hs t (by simp [ht])) (item.join elements)
    rw [total_join, Specificity.add_assoc] at hrest
    rw [significant_append, significant_append, hgap.significant, List.nil_append,
      hitem.tally (fun t ht => hs t (by simp [ht]))]
    exact hrest

theorem size_joined {ts : List Token} {items : List Item} (h : IsItems ts items)
    (elements : List Element) :
    (total (joined elements items)).size ≤ (total elements).size + ts.length := by
  induction h generalizing elements with
  | nil => exact Nat.le_add_right ..
  | @cons gap ts us item items _ hitem _ ih =>
    have hrest : (total (joined elements (item :: items))).size ≤ _ := ih (item.join elements)
    have hle := hitem.size_weight
    rw [total_join, Specificity.size_add] at hrest
    simp only [List.length_append]
    omega

/-- The expansion of shorthand adds the tests that the weights count beforehand. -/
theorem specificity_of_convertZoom {mercator : Bool} {s₀ s : Selector}
    (hbare : ∀ e, s₀.descendant = some e → e.IsBare) (h : s₀.convertZoom mercator = (s, none)) :
    s.specificity = total s₀.elements := by
  have hs : (s₀.convertZoom mercator).1 = s := congrArg Prod.fst h
  have hfault : (Zoom.expandAll mercator s₀.tests).fault = none := congrArg Prod.snd h
  have hfirst : Specificity.ofElement s.first = s₀.first.weight := by
    rw [← hs]
    simp only [Specificity.ofElement, convertZoom, Zoom.length_tests hfault]
    rfl
  have hlast : ∀ e, s₀.descendant = some e → Specificity.ofElement e = e.weight := by
    intro e he
    simp [Specificity.ofElement, Element.weight, (hbare e he).1]
  have hdescendant : s.descendant = s₀.descendant := by
    rw [← hs]
    rfl
  cases hd : s₀.descendant with
  | none => simp [specificity, total, elements, hdescendant, hd, hfirst]
  | some e => simp [specificity, total, elements, hdescendant, hd, hfirst, hlast e hd]

/-- A selector counts the hashes of its tokens, the names outside brackets with the stars, and the
tests, those on one level twice. No element has more ids than names, and the counts together do not
exceed the number of tokens. -/
theorem specificity_of_tokens {mercator : Bool} {source : String} {ts : List Token}
    {stop : Position} {s : Selector} (hts : ts ⊆ Token.scan source)
    (h : ofTokens mercator ts stop = .ok s) :
    s.specificity = ⟨ts.countP (·.kind = .hash),
        (outsideBrackets false ts).countP (·.kind = .identifier) + ts.countP (·.isChar '*'),
        ts.countP (·.isChar '[') + zoomEqualities (significant ts)⟩ ∧
      (∀ e ∈ s.elements, e.ids ≤ e.names.length) ∧
      s.specificity.ids + s.specificity.names + s.specificity.tests ≤ ts.length := by
  obtain ⟨items, hitems, -, hbuild⟩ := isItems_of_ofTokens h
  obtain ⟨s₀, hs₀, hconvert⟩ := build_eq_ok_iff.mp hbuild
  obtain ⟨helements, -, hbare⟩ := ofElements_eq_ok hs₀
  have htotal : s.specificity = total (joined [] items) := by
    rw [specificity_of_convertZoom hbare hconvert, helements]
  have hsigned : ∀ t ∈ uncommented ts, t.Signed := fun t ht =>
    Token.signed_scanFrom _ _ t (hts (List.mem_of_mem_filter ht))
  refine ⟨?_, fun e _ => e.ids_le, ?_⟩
  · rw [htotal, total_joined hitems hsigned, significant_uncommented, tally_significant]
    exact Specificity.zero_add _
  · have hsize := size_joined hitems []
    have hlength : (uncommented ts).length ≤ ts.length := List.length_filter_le ..
    have hzero : (total []).size = 0 := rfl
    rw [← htotal, hzero, Nat.zero_add] at hsize
    exact hsize.trans hlength

/-- Four names, two written tests and one that the level adds. -/
theorem specificity_of_tokens_roads :
    let ts := Token.scan "#roads*[ zoom = 10 ]/* wide */.major[lanes>2] name"
    ∃ s, ofTokens true ts .start = .ok s ∧ s.specificity = ⟨1, 3, 3⟩ ∧ 7 ≤ ts.length := by
  intro ts
  have hread : (ofTokens true ts .start).toBool = true := by decide +kernel
  cases h : ofTokens true ts .start with
  | error f =>
    rw [h] at hread
    cases hread
  | ok s =>
    obtain ⟨hspecificity, -, hsize⟩ := specificity_of_tokens (List.Subset.refl ts) h
    have hcounts : s.specificity = ⟨1, 3, 3⟩ := hspecificity.trans (by decide +kernel)
    rw [hcounts] at hsize
    exact ⟨s, rfl, hcounts, hsize⟩

end Selector

end Cartosheet
