import Cartosheet.Proofs.SelectorItems
import Cartosheet.Proofs.WrittenZoom

namespace Cartosheet

/-- The tokens without comments. -/
def uncommented (ts : List Token) : List Token := ts.filter (!·.isComment)

theorem uncommented_cons {t : Token} (ht : t.isComment = false) (ts : List Token) :
    uncommented (t :: ts) = t :: uncommented ts :=
  List.filter_cons_of_pos (by simp [ht])

theorem uncommented_eq_self {ts : List Token} (h : ∀ t ∈ ts, t.isComment = false) :
    uncommented ts = ts :=
  List.filter_eq_self.mpr fun t ht => by simp [h t ht]

/-- What transparent tokens leave is whitespace. -/
theorem uncommented_dropWhile (ts : List Token) :
    ∃ gap, Blank gap ∧ uncommented ts = gap ++ uncommented (ts.dropWhile Token.isTransparent) := by
  refine ⟨uncommented (ts.takeWhile Token.isTransparent), ?_, ?_⟩
  · intro t ht
    obtain ⟨hmem, hcomment⟩ := List.mem_filter.mp ht
    have htransparent : t.isTransparent = true := List.mem_takeWhile_imp hmem
    simp only [Token.isComment, Bool.not_eq_true', decide_eq_false_iff_not] at hcomment
    simpa [Token.isTransparent, hcomment] using htransparent
  · rw [uncommented, uncommented, uncommented, ← List.filter_append,
      List.takeWhile_append_dropWhile]

theorem uncommented_pastComments (ts : List Token) :
    uncommented (ts.dropWhile Token.isComment) = uncommented ts := by
  induction ts with
  | nil => rfl
  | cons t ts ih =>
    cases ht : t.isComment with
    | false => rw [List.dropWhile_cons_of_neg (by simp [ht])]
    | true =>
      rw [List.dropWhile_cons_of_pos ht, ih, uncommented, uncommented,
        List.filter_cons_of_neg (by simp [ht])]

namespace Cursor

variable {c d : Cursor} {t : Token}

/-- Before the next significant token there is only whitespace. -/
theorem uncommented_of_next (h : c.nextSignificant = (some t, d)) :
    ∃ gap, Blank gap ∧ uncommented c.pending = gap ++ t :: uncommented d.pending := by
  obtain ⟨gap, hgap, hpending⟩ := uncommented_dropWhile c.pending
  refine ⟨gap, hgap, ?_⟩
  cases hd : c.pending.dropWhile Token.isTransparent with
  | nil =>
    rw [nextSignificant, nextPast_nil hd] at h
    cases h
  | cons u us =>
    rw [nextSignificant, nextPast_cons hd] at h
    cases h
    have ht : t.isTransparent = false := Token.not_skipped_of_dropWhile hd
    have hcomment : t.isComment = false := by
      by_contra hcomment
      rw [Token.isTransparent_of_isComment (by simpa using hcomment)] at ht
      cases ht
    rw [hpending, hd, uncommented_cons hcomment]
    rfl

theorem blank_of_none (h : c.nextSignificant = (none, d)) : Blank (uncommented c.pending) := by
  obtain ⟨gap, hgap, hpending⟩ := uncommented_dropWhile c.pending
  cases hd : c.pending.dropWhile Token.isTransparent with
  | nil =>
    rw [hpending, hd]
    simpa [uncommented] using hgap
  | cons u us =>
    rw [nextSignificant, nextPast_cons hd] at h
    cases h

end Cursor

namespace Reader

variable {α : Type}

/-- Where the reader succeeds, what it takes without comments is a form of what it gives. -/
abbrev Parses (P : List Token → α → Prop) (r : Reader α) : Prop :=
  TakesKept (!·.isComment) (fun a us => P us a) r

theorem parses_expect (place : Place) :
    Parses (fun us t => ∃ gap, Blank gap ∧ us = gap ++ [t]) (expect place) := by
  intro c t d hc
  unfold expect at hc
  split at hc
  · rename_i u e hn
    cases hc
    obtain ⟨gap, hgap, hpending⟩ := Cursor.uncommented_of_next hn
    refine ⟨gap ++ [t], ?_, gap, hgap, rfl⟩
    rw [List.append_assoc]
    exact hpending
  · cases hc

theorem parses_require (accept : Token → Bool) (wrong missing : Place) :
    Parses (fun us t => ∃ gap, Blank gap ∧ us = gap ++ [t] ∧ accept t = true)
      (require accept wrong missing) := by
  refine (parses_expect missing).bind fun t us hus => ?_
  obtain ⟨gap, hgap, rfl⟩ := hus
  split
  · rename_i ht
    exact .pure ⟨gap, hgap, List.append_nil _, ht⟩
  · exact .throw _

theorem parses_pastComments : Parses (fun us found => us = found.toList) pastComments := by
  intro c found d hc
  cases hc
  have hpending := uncommented_pastComments c.pending
  cases hd : c.pending.dropWhile Token.isComment with
  | nil =>
    rw [hd] at hpending
    rw [Cursor.nextPastComments, Cursor.nextPast_nil hd]
    exact ⟨[], hpending.symm, rfl⟩
  | cons t ts =>
    rw [hd, uncommented_cons (Token.not_skipped_of_dropWhile hd)] at hpending
    rw [Cursor.nextPastComments, Cursor.nextPast_cons hd]
    exact ⟨[t], hpending.symm, rfl⟩

theorem parses_orEqual (strict inclusive : Operator) :
    Parses (fun us op => (us = [] ∧ op = strict) ∨
      ∃ t, us = [t] ∧ t.isChar '=' = true ∧ op = inclusive) (orEqual strict inclusive) := by
  intro c op d hc
  have hpending := uncommented_pastComments c.pending
  cases hd : c.pending.dropWhile Token.isComment with
  | nil =>
    rw [hd] at hpending
    rw [orEqual_nil _ _ hd] at hc
    cases hc
    exact ⟨[], hpending.symm, .inl ⟨rfl, rfl⟩⟩
  | cons t ts =>
    rw [hd] at hpending
    rw [orEqual_cons _ _ hd] at hc
    split at hc
    · rename_i ht
      cases hc
      rw [uncommented_cons (by simp [Token.isComment, Token.kind_of_isChar ht])] at hpending
      exact ⟨[t], hpending.symm, .inr ⟨t, rfl, ht, rfl⟩⟩
    · cases hc
      exact ⟨[], hpending.symm, .inl ⟨rfl, rfl⟩⟩

open Selector (IsOperator IsScalar IsTest)

theorem parses_operator :
    Parses (fun us op => ∃ gap ops, Blank gap ∧ us = gap ++ ops ∧ IsOperator ops op) operator := by
  refine (parses_expect _).bind fun t us hus => ?_
  obtain ⟨gap, hgap, rfl⟩ := hus
  split
  · rename_i ht
    exact .pure ⟨gap, [t], hgap, List.append_nil _, .equal ht⟩
  split
  · rename_i ht
    refine (parses_orEqual _ _).mono fun op vs hvs => ?_
    rcases hvs with ⟨rfl, rfl⟩ | ⟨u, rfl, hu, rfl⟩
    · exact ⟨gap, [t], hgap, List.append_nil _, .less ht⟩
    · exact ⟨gap, [t, u], hgap, List.append_assoc _ _ _, .atMost ht hu⟩
  split
  · rename_i ht
    refine (parses_orEqual _ _).mono fun op vs hvs => ?_
    rcases hvs with ⟨rfl, rfl⟩ | ⟨u, rfl, hu, rfl⟩
    · exact ⟨gap, [t], hgap, List.append_nil _, .greater ht⟩
    · exact ⟨gap, [t, u], hgap, List.append_assoc _ _ _, .atLeast ht hu⟩
  split
  · rename_i ht
    refine parses_pastComments.bind fun found vs hvs => ?_
    subst hvs
    cases found with
    | none => exact .throw _
    | some u =>
      dsimp only
      split
      · rename_i hu
        exact .pure ⟨gap, [t, u], hgap, by simp, .unequal ht hu⟩
      · exact .throw _
  · exact .throw _

theorem parses_scalar :
    Parses (fun us v => ∃ gap t, Blank gap ∧ us = gap ++ [t] ∧ IsScalar t v) scalar := by
  refine (parses_expect _).bind fun t us hus => ?_
  obtain ⟨gap, hgap, rfl⟩ := hus
  split
  · rename_i ht
    split
    · rename_i x hx
      exact .pure ⟨gap, t, hgap, List.append_nil _, .number ht hx⟩
    · exact .throw _
  split
  · rename_i ht
    exact .pure ⟨gap, t, hgap, List.append_nil _, .string ht⟩
  · exact .throw _

theorem parses_attributeTest : Parses IsTest attributeTest := by
  refine (parses_require _ _ _).bind fun name us hname => ?_
  refine parses_operator.bind fun op vs hop => parses_scalar.bind fun v ws hv => ?_
  refine (parses_require _ _ _).bind fun close us' hclose => .pure ?_
  obtain ⟨gap, hgap, rfl, hk⟩ := hname
  obtain ⟨gap₁, ops, hgap₁, rfl, hops⟩ := hop
  obtain ⟨gap₂, value, hgap₂, rfl, hvalue⟩ := hv
  obtain ⟨gap₃, hgap₃, rfl, hbracket⟩ := hclose
  rw [List.append_nil]
  exact .mk hgap (by simpa using hk) hgap₁ hops hgap₂ hvalue hgap₃ hbracket

end Reader

namespace Selector

open Reader (Parses)

theorem parses_className :
    Parses (fun us n => ∃ t, us = [t] ∧ t.kind = .identifier ∧ n = .className t.text)
      className := by
  refine Reader.parses_pastComments.bind fun found us hus => ?_
  subst hus
  cases found with
  | none =>
    intro c n d hc
    cases hc
  | some t =>
    dsimp only
    split
    · rename_i ht
      exact .pure ⟨t, rfl, ht, rfl⟩
    · exact .throw _

/-- What begins with `t` is read as an item, which joins the elements. -/
theorem parses_readItem (elements : List Element) (t : Token) :
    Parses (fun us elements' => ∃ item, IsItem (t :: us) item ∧
      (elements = [] → item.isTest = false) ∧ elements' = item.join elements)
      (readItem elements t) := by
  unfold readItem
  split
  · rename_i ht
    exact .pure ⟨_, .element ht, fun _ => rfl, rfl⟩
  split
  · rename_i ht
    exact .pure ⟨_, .hash ht, fun _ => rfl, rfl⟩
  split
  · rename_i ht
    exact .pure ⟨_, .universal ht, fun _ => rfl, rfl⟩
  split
  · rename_i ht
    refine parses_className.bind fun n us hn => .pure ?_
    obtain ⟨name, rfl, hname, rfl⟩ := hn
    exact ⟨_, .className ht hname, fun _ => rfl, rfl⟩
  split
  · rename_i ht
    split
    · exact .throw _
    · rename_i hne
      refine Reader.parses_attributeTest.bind fun test us htest => .pure ?_
      rw [List.append_nil]
      exact ⟨_, .test ht htest, fun he => absurd he (by simpa using hne), rfl⟩
  · exact .throw _

/-- A run that is read to its end spells items, and its elements are these items joined. -/
theorem isItems_of_readItems {elements : List Element} {start : Option Position} {c d : Cursor}
    {r : Run} (h : readItems elements start c = .ok r d) (hr : r.terminator = none) :
    ∃ items, IsItems (uncommented c.pending) items ∧ Opens elements items ∧
      r.elements = joined elements items := by
  fun_induction readItems elements start c with
  | case1 elements start c e hn =>
    cases h
    exact ⟨[], .nil (Cursor.blank_of_none hn), by simp [Opens], rfl⟩
  | case2 =>
    cases h
    cases hr
  | case3 => cases h
  | case4 elements start c t e hn _ elements' e' hi ih =>
    obtain ⟨gap, hgap, hnext⟩ := Cursor.uncommented_of_next hn
    obtain ⟨us, hus, item, hitem, hopens, rfl⟩ := parses_readItem elements t e elements' e' hi
    obtain ⟨items, hitems, -, helements⟩ := ih h
    refine ⟨item :: items, ?_, ?_, helements⟩
    · have htaken : uncommented e.pending = us ++ uncommented e'.pending := hus
      rw [hnext, htaken]
      exact .cons hgap hitem hitems
    · intro he item' hhead
      cases hhead
      exact hopens he

theorem build_eq_ok_iff {mercator : Bool} {elements : List Element} {p : Position} {s : Selector} :
    build mercator elements p = .ok s ↔
      ∃ s₀, ofElements elements = .ok s₀ ∧ s₀.convertZoom mercator = (s, none) := by
  unfold build
  cases ofElements elements with
  | error f => simp
  | ok s₀ =>
    cases hz : s₀.convertZoom mercator with
    | mk s' fault => cases fault <;> simp [hz]

/-- The tokens of a selector spell the items that it is built of. -/
theorem isItems_of_ofTokens {mercator : Bool} {ts : List Token} {stop : Position} {s : Selector}
    (h : ofTokens mercator ts stop = .ok s) :
    ∃ items, IsItems (uncommented ts) items ∧ Opens [] items ∧
      build mercator (joined [] items) stop = .ok s := by
  obtain ⟨r, d, hread, hr⟩ := items_of_ofTokens h
  obtain ⟨items, hitems, hopens, helements⟩ := isItems_of_readItems hread hr
  rw [ofTokens_of_items mercator hread hr stop stop, helements] at h
  exact ⟨items, hitems, hopens, h⟩

/-- Some name stands before the first test. -/
def NameFirst (items : List Item) : Prop :=
  ∀ before test after, items = before ++ .test test :: after → ∃ item ∈ before, item.isTest = false

theorem opens_iff_nameFirst (items : List Item) : Opens [] items ↔ NameFirst items := by
  constructor
  · intro h before test after hitems
    cases before with
    | nil => cases h rfl (.test test) (by simp [hitems])
    | cons item before => exact ⟨item, by simp, h rfl item (by simp [hitems])⟩
  · intro h _ item hhead
    cases items with
    | nil => cases hhead
    | cons first items =>
      cases hhead
      cases item with
      | element => rfl
      | name => rfl
      | test test =>
        obtain ⟨item, hitem, -⟩ := h [] test items rfl
        cases hitem

/-- A run of tokens is a selector exactly if it spells items, a name before the first test, and the
elements that they stand for have the shape of a selector and an expansion of their shorthand. -/
theorem ofTokens_iff_items (mercator : Bool) {ts : List Token}
    (hts : ∀ t ∈ ts, t.isComment = false) (stop : Position) (s : Selector) :
    ofTokens mercator ts stop = .ok s ↔
      ∃ items, IsItems ts items ∧ items ≠ [] ∧ NameFirst items ∧
        ∃ s₀, ofElements (elementsOf items) = .ok s₀ ∧ s₀.convertZoom mercator = (s, none) := by
  constructor
  · intro h
    obtain ⟨items, hitems, hopens, hbuild⟩ := isItems_of_ofTokens h
    rw [uncommented_eq_self hts] at hitems
    rw [build_eq_ok_iff, joined_eq_elementsOf] at hbuild
    refine ⟨items, hitems, ?_, (opens_iff_nameFirst items).mp hopens, hbuild⟩
    rintro rfl
    obtain ⟨s₀, hs, -⟩ := hbuild
    cases hs
  · rintro ⟨items, hitems, -, hfirst, hbuild⟩
    have hopens := (opens_iff_nameFirst items).mpr hfirst
    rw [ofTokens_of_isItems mercator hitems hopens stop stop s, build_eq_ok_iff,
      joined_eq_elementsOf]
    exact hbuild

/-- The run `Layer.major#roads [zoom>= 10][lanes=2][kind!="rail"] name*`. -/
theorem ofTokens_iff_items_roads :
    let p := Position.start
    let space : Token := ⟨.whitespace, " ", p⟩
    let char (text : String) : Token := ⟨.character, text, p⟩
    let word (text : String) : Token := ⟨.identifier, text, p⟩
    let zoom : List Token :=
      [word "zoom", char ">", char "=", space, ⟨.number, "10", p⟩, char "]"]
    let lanes : List Token := [word "lanes", char "=", ⟨.number, "2", p⟩, char "]"]
    let kind : List Token := [word "kind", char "!", char "=", ⟨.string, "\"rail\"", p⟩, char "]"]
    let ts : List Token :=
      [word "Layer", char ".", word "major", ⟨.hash, "#roads", p⟩, space] ++ char "[" :: zoom ++
        char "[" :: lanes ++ char "[" :: kind ++ [space, word "name", char "*"]
    let s : Selector :=
      ⟨⟨[.tag "Layer", .className "major", .id "roads"],
          [⟨"scale-denominator", .less, .number (.ofInt 750000)⟩,
            ⟨"lanes", .equal, .number (.ofInt 2)⟩, ⟨"kind", .unequal, .string "rail"⟩]⟩,
        some ⟨[.tag "name", .universal], []⟩⟩
    (∀ t ∈ ts, t.isComment = false) ∧ ofTokens true ts p = .ok s := by
  intro p space char word zoom lanes kind ts s
  have hts : ∀ t ∈ ts, t.isComment = false := by
    simp [ts, zoom, lanes, kind, space, char, word, Token.isComment]
  have hspace : Blank [space] := by simp [Blank, space]
  have hten : IsScalar ⟨.number, "10", p⟩ (.number (.ofInt 10)) := .number rfl (by decide +kernel)
  have htwo : IsScalar ⟨.number, "2", p⟩ (.number (.ofInt 2)) := .number rfl (by decide +kernel)
  have hunquoted : "rail" = unquoted "\"rail\"" := by decide +kernel
  have hrail : IsScalar ⟨.string, "\"rail\"", p⟩ (.string "rail") := by
    rw [hunquoted]
    exact .string rfl
  have hzoom : IsTest zoom ⟨"zoom", .atLeast, .number (.ofInt 10)⟩ :=
    .mk Blank.nil rfl Blank.nil (.atLeast rfl rfl) hspace hten Blank.nil rfl
  have hlanes : IsTest lanes ⟨"lanes", .equal, .number (.ofInt 2)⟩ :=
    .mk Blank.nil rfl Blank.nil (.equal rfl) Blank.nil htwo Blank.nil rfl
  have hkind : IsTest kind ⟨"kind", .unequal, .string "rail"⟩ :=
    .mk Blank.nil rfl Blank.nil (.unequal rfl rfl) Blank.nil hrail Blank.nil rfl
  have hnames : IsItems [word "Layer", char ".", word "major", ⟨.hash, "#roads", p⟩]
      [.element "Layer", .name (.className "major"), .name (.ofText "#roads")] :=
    .cons Blank.nil (.element rfl) (.cons Blank.nil (.className rfl rfl) (IsItem.hash rfl).single)
  have htests : IsItems (space :: char "[" :: zoom ++ char "[" :: lanes ++ char "[" :: kind)
      [.test ⟨"zoom", .atLeast, .number (.ofInt 10)⟩, .test ⟨"lanes", .equal, .number (.ofInt 2)⟩,
        .test ⟨"kind", .unequal, .string "rail"⟩] :=
    .cons hspace (.test rfl hzoom)
      (.cons Blank.nil (.test rfl hlanes) (IsItem.test rfl hkind).single)
  have hname : IsItems [space, word "name", char "*"] [.element "name", .name .universal] :=
    .cons hspace (.element rfl) (IsItem.universal rfl).single
  have hitems : IsItems ts _ := (hnames.append htests).append hname
  refine ⟨hts, (ofTokens_iff_items true hts p s).mpr ⟨_, hitems, by simp, ?_, _, rfl, ?_⟩⟩
  · rw [← opens_iff_nameFirst]
    rintro - item hhead
    cases hhead
    rfl
  · decide +kernel

end Selector

end Cartosheet
