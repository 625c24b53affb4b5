import Cartosheet.Proofs.Transparency
import Mathlib.Data.List.SplitBy

namespace Cartosheet

/-- Whitespace alone. -/
def Blank (gap : List Token) : Prop := ∀ t ∈ gap, t.kind = .whitespace

theorem Blank.nil : Blank [] := by simp [Blank]

theorem Blank.dropWhile {gap : List Token} (h : Blank gap) {t : Token}
    (ht : t.isTransparent = false) (ts : List Token) :
    (gap ++ t :: ts).dropWhile Token.isTransparent = t :: ts := by
  have hgap : ∀ g ∈ gap, g.isTransparent = true := by
    intro g hg
    simp [Token.isTransparent, h g hg]
  rw [List.dropWhile_append_of_pos hgap, List.dropWhile_cons_of_neg (by simp [ht])]

namespace Selector

/-- A part of a selector as it is written. -/
inductive Item where
  | element (tag : String)
  | name (name : Name)
  | test (test : Test)
  deriving DecidableEq, Repr

namespace Item

def isTest : Item → Bool
  | test _ => true
  | _ => false

def startsElement : Item → Bool
  | element _ => true
  | _ => false

/-- The name that an item gives its element. -/
def name? : Item → Option Name
  | element tag => some (.tag tag)
  | name n => some n
  | test _ => none

def test? : Item → Option Test
  | test t => some t
  | _ => none

/-- The elements with one more item, as the reader joins it to them. -/
def join : Item → List Element → List Element
  | element tag, elements => elements ++ [{ names := [.tag tag] }]
  | name n, elements => joinLast (·.addName n) elements
  | test t, elements => joinLast (·.addTest t) elements

end Item

/-- The element of a group of items: their names and their tests, each in order. -/
def Element.ofItems (items : List Item) : Element :=
  ⟨items.filterMap Item.name?, items.filterMap Item.test?⟩

/-- The elements that items stand for. A tag starts a new group of items, and all else belongs to
the group before it. -/
def elementsOf (items : List Item) : List Element :=
  (items.splitBy fun _ item => !item.startsElement).map Element.ofItems

/-- The elements after some more items. -/
def joined (elements : List Element) (items : List Item) : List Element :=
  items.foldl (fun es item => item.join es) elements

inductive IsOperator : List Token → Operator → Prop
  | equal {t : Token} : t.isChar '=' = true → IsOperator [t] .equal
  | less {t : Token} : t.isChar '<' = true → IsOperator [t] .less
  | greater {t : Token} : t.isChar '>' = true → IsOperator [t] .greater
  | atMost {t u : Token} : t.isChar '<' = true → u.isChar '=' = true → IsOperator [t, u] .atMost
  | atLeast {t u : Token} : t.isChar '>' = true → u.isChar '=' = true →
      IsOperator [t, u] .atLeast
  | unequal {t u : Token} : t.isChar '!' = true → u.isChar '=' = true →
      IsOperator [t, u] .unequal

inductive IsScalar : Token → Scalar → Prop
  | number {t : Token} {x : Binary64} : t.kind = .number → Binary64.ofText? t.text = some x →
      IsScalar t (.number x)
  | string {t : Token} : t.kind = .string → IsScalar t (.string (unquoted t.text))

/-- A test from after its opening bracket. -/
inductive IsTest : List Token → Test → Prop
  | mk {gap gap₁ gap₂ gap₃ ops : List Token} {name value close : Token} {op : Operator}
      {v : Scalar} : Blank gap → name.kind = .identifier → Blank gap₁ → IsOperator ops op →
      Blank gap₂ → IsScalar value v → Blank gap₃ → close.isChar ']' = true →
      IsTest (gap ++ [name] ++ (gap₁ ++ ops ++ (gap₂ ++ [value] ++ (gap₃ ++ [close]))))
        ⟨name.text, op, v⟩

/-- The tokens that spell an item. -/
inductive IsItem : List Token → Item → Prop
  | element {t : Token} : t.kind = .identifier → IsItem [t] (.element t.text)
  | hash {t : Token} : t.kind = .hash → IsItem [t] (.name (.ofText t.text))
  | universal {t : Token} : t.isChar '*' = true → IsItem [t] (.name .universal)
  | className {dot t : Token} : dot.isChar '.' = true → t.kind = .identifier →
      IsItem [dot, t] (.name (.className t.text))
  | test {bracket : Token} {ts : List Token} {t : Test} : bracket.isChar '[' = true →
      IsTest ts t → IsItem (bracket :: ts) (.test t)

/-- Items with whitespace between and around them. -/
inductive IsItems : List Token → List Item → Prop
  | nil {gap : List Token} : Blank gap → IsItems gap []
  | cons {gap ts us : List Token} {item : Item} {items : List Item} : Blank gap →
      IsItem ts item → IsItems us items → IsItems (gap ++ (ts ++ us)) (item :: items)

theorem IsItem.single {ts : List Token} {item : Item} (h : IsItem ts item) : IsItems ts [item] := by
  have hitems := IsItems.cons Blank.nil h (.nil Blank.nil)
  rwa [List.nil_append, List.append_nil] at hitems

theorem IsItems.blank {gap ts : List Token} {items : List Item} (hgap : Blank gap)
    (h : IsItems ts items) : IsItems (gap ++ ts) items := by
  have happend {gap' : List Token} (hgap' : Blank gap') : Blank (gap ++ gap') := by
    intro t ht
    rcases List.mem_append.mp ht with ht | ht
    · exact hgap t ht
    · exact hgap' t ht
  cases h with
  | nil hgap' => exact .nil (happend hgap')
  | cons hgap' hitem hrest =>
    rw [← List.append_assoc]
    exact .cons (happend hgap') hitem hrest

theorem IsItems.append {ts us : List Token} {items items' : List Item} (h : IsItems ts items)
    (h' : IsItems us items') : IsItems (ts ++ us) (items ++ items') := by
  induction h with
  | nil hgap => exact h'.blank hgap
  | cons hgap hitem _ ih =>
    rw [List.append_assoc, List.append_assoc]
    exact .cons hgap hitem ih

end Selector

namespace Reader

variable {α β : Type} {rest : List Token}

/-- The reader takes the tokens `ts`, gives `a` and leaves `rest`. -/
def Reads (r : Reader α) (ts : List Token) (a : α) (rest : List Token) : Prop :=
  ∀ c : Cursor, c.pending = ts ++ rest → ∃ d, r c = .ok a d ∧ d.pending = rest

theorem Reads.pure (a : α) : Reads (Pure.pure a : Reader α) [] a rest :=
  fun c hc => ⟨c, rfl, hc⟩

theorem Reads.bind {r : Reader α} {k : α → Reader β} {ts us : List Token} {a : α} {b : β}
    (hr : Reads r ts a (us ++ rest)) (hk : Reads (k a) us b rest) :
    Reads (r >>= k) (ts ++ us) b rest := by
  intro c hc
  rw [List.append_assoc] at hc
  obtain ⟨d, hd, hpending⟩ := hr c hc
  obtain ⟨e, he, hrest⟩ := hk d hpending
  exact ⟨e, bind_eq_ok.mpr ⟨a, d, hd, he⟩, hrest⟩

/-- A last reader that takes nothing more. -/
theorem Reads.map {r : Reader α} {k : α → Reader β} {ts : List Token} {a : α} {b : β}
    (hr : Reads r ts a rest) (hk : Reads (k a) [] b rest) : Reads (r >>= k) ts b rest := by
  have h : Reads (r >>= k) (ts ++ []) b rest := Reads.bind hr hk
  rwa [List.append_nil] at h

theorem reads_expect {place : Place} {gap : List Token} (hgap : Blank gap) {t : Token}
    (ht : t.isTransparent = false) : Reads (expect place) (gap ++ [t]) t rest := by
  intro c hc
  have hnext : c.pending.dropWhile Token.isTransparent = t :: rest := by
    rw [hc, List.append_assoc]
    exact hgap.dropWhile ht rest
  exact ⟨c.past t rest, expect_cons hnext, rfl⟩

/-- A token, and what is read once it is known. -/
theorem reads_first {place : Place} {k : Token → Reader β} {gap ts : List Token} {b : β}
    (hgap : Blank gap) {t : Token} (ht : t.isTransparent = false) (hk : Reads (k t) ts b rest) :
    Reads (expect place >>= k) (gap ++ t :: ts) b rest := by
  have h : Reads (expect place >>= k) (gap ++ [t] ++ ts) b rest := (reads_expect hgap ht).bind hk
  rwa [List.append_assoc] at h

theorem reads_require {accept : Token → Bool} {wrong missing : Place} {gap : List Token}
    (hgap : Blank gap) {t : Token} (ht : t.isTransparent = false) (ha : accept t = true) :
    Reads (require accept wrong missing) (gap ++ [t]) t rest := by
  refine (reads_expect hgap ht).map ?_
  rw [if_pos ha]
  exact .pure t

/-- A token that is no comment comes next. -/
theorem dropWhile_comments {c : Cursor} {t : Token} (ht : t.isComment = false)
    (hc : c.pending = t :: rest) : c.pending.dropWhile Token.isComment = t :: rest := by
  rw [hc]
  exact List.dropWhile_cons_of_neg (by simp [ht])

theorem reads_pastComments {t : Token} (ht : t.isComment = false) :
    Reads pastComments [t] (some t) rest := by
  intro c hc
  have hnext : c.pending.dropWhile Token.isComment = t :: rest := dropWhile_comments ht hc
  refine ⟨c.past t rest, ?_, rfl⟩
  simp only [pastComments, Cursor.nextPastComments, Cursor.nextPast_cons hnext]

theorem reads_orEqual {strict inclusive : Operator} {t : Token} (ht : t.isChar '=' = true) :
    Reads (orEqual strict inclusive) [t] inclusive rest := by
  intro c hc
  have hcomment : t.isComment = false := by simp [Token.isComment, Token.kind_of_isChar ht]
  have hnext : c.pending.dropWhile Token.isComment = t :: rest := dropWhile_comments hcomment hc
  refine ⟨c.past t rest, ?_, rfl⟩
  rw [orEqual_cons _ _ hnext, if_pos ht]

/-- No `=` comes next, and no comment that one could stand behind. -/
def Settled (rest : List Token) : Prop :=
  ∃ t ts, rest = t :: ts ∧ t.isComment = false ∧ t.isChar '=' = false

theorem settled_of_kind {t : Token} (hcomment : t.kind ≠ .comment) (hchar : t.kind ≠ .character)
    (ts : List Token) : Settled (t :: ts) :=
  ⟨t, ts, rfl, by simp [Token.isComment, hcomment], Token.isChar_of_kind hchar⟩

theorem settled_scalar {gap : List Token} {t : Token} {v : Scalar} (hgap : Blank gap)
    (h : Selector.IsScalar t v) (rest : List Token) : Settled (gap ++ [t] ++ rest) := by
  cases gap with
  | cons u gap =>
    have hu := hgap u (by simp)
    exact settled_of_kind (by simp [hu]) (by simp [hu]) _
  | nil =>
    cases h with
    | number hk => exact settled_of_kind (by simp [hk]) (by simp [hk]) rest
    | string hk => exact settled_of_kind (by simp [hk]) (by simp [hk]) rest

/-- Without a `=` at once the comparison stays strict and nothing is taken. -/
theorem reads_orEqual_strict {strict inclusive : Operator} (hrest : Settled rest) :
    Reads (orEqual strict inclusive) [] strict rest := by
  obtain ⟨t, ts, rfl, hcomment, ht⟩ := hrest
  intro c hc
  refine ⟨(c.past t ts).putBack t, ?_, rfl⟩
  rw [orEqual_cons _ _ (dropWhile_comments hcomment hc), if_neg (by simp [ht])]

open Selector (IsOperator IsScalar IsTest)

theorem reads_operator {gap ts : List Token} {op : Operator} (hgap : Blank gap)
    (h : IsOperator ts op) (hrest : Settled rest) : Reads operator (gap ++ ts) op rest := by
  have hne {u : Token} {a b : Char} (hu : u.isChar a = true) (hab : a ≠ b) :
      ¬u.isChar b = true := by
    simp [Token.isChar_eq_false hu hab]
  unfold operator
  cases h with
  | equal hu =>
    refine reads_first hgap (Token.isTransparent_of_isChar hu) ?_
    rw [if_pos hu]
    exact .pure _
  | less hu =>
    refine reads_first hgap (Token.isTransparent_of_isChar hu) ?_
    rw [if_neg (hne hu (by decide)), if_pos hu]
    exact reads_orEqual_strict hrest
  | greater hu =>
    refine reads_first hgap (Token.isTransparent_of_isChar hu) ?_
    rw [if_neg (hne hu (by decide)), if_neg (hne hu (by decide)), if_pos hu]
    exact reads_orEqual_strict hrest
  | atMost hu hv =>
    refine reads_first hgap (Token.isTransparent_of_isChar hu) ?_
    rw [if_neg (hne hu (by decide)), if_pos hu]
    exact reads_orEqual hv
  | atLeast hu hv =>
    refine reads_first hgap (Token.isTransparent_of_isChar hu) ?_
    rw [if_neg (hne hu (by decide)), if_neg (hne hu (by decide)), if_pos hu]
    exact reads_orEqual hv
  | @unequal u v hu hv =>
    have hv' : v.isComment = false := by simp [Token.isComment, Token.kind_of_isChar hv]
    refine reads_first hgap (Token.isTransparent_of_isChar hu) ?_
    rw [if_neg (hne hu (by decide)), if_neg (hne hu (by decide)), if_neg (hne hu (by decide)),
      if_pos hu]
    refine (reads_pastComments hv').map ?_
    dsimp only
    rw [if_pos hv]
    exact .pure _

theorem reads_scalar {gap : List Token} {t : Token} {v : Scalar} (hgap : Blank gap)
    (h : IsScalar t v) : Reads scalar (gap ++ [t]) v rest := by
  cases h with
  | number hk hx =>
    refine (reads_expect hgap ?_).map ?_
    · simp [Token.isTransparent, hk]
    · rw [if_pos hk, hx]
      exact .pure _
  | string hk =>
    refine (reads_expect hgap ?_).map ?_
    · simp [Token.isTransparent, hk]
    · rw [if_neg (by simp [hk]), if_pos hk]
      exact .pure _

theorem reads_attributeTest {ts : List Token} {test : Test} (h : IsTest ts test) :
    Reads attributeTest ts test rest := by
  obtain ⟨hgap, hname, hgap₁, hop, hgap₂, hvalue, hgap₃, hclose⟩ := h
  refine (reads_require hgap ?_ ?_).bind ?_
  · simp [Token.isTransparent, hname]
  · simp [hname]
  refine (reads_operator hgap₁ hop ?_).bind ((reads_scalar hgap₂ hvalue).bind ?_)
  · rw [List.append_assoc]
    exact settled_scalar hgap₂ hvalue _
  · refine (reads_require hgap₃ (Token.isTransparent_of_isChar hclose) hclose).map ?_
    exact .pure _

end Reader

namespace Selector

open Reader (Reads)

variable {elements : List Element} {start : Option Position} {rest : List Token}

theorem reads_className {t : Token} (ht : t.kind = .identifier) :
    Reads className [t] (.className t.text) rest := by
  refine (Reader.reads_pastComments (by simp [Token.isComment, ht])).map ?_
  dsimp only
  rw [if_pos ht]
  exact .pure _

/-- The tokens of an item are read as that item; a test needs an element to join. -/
theorem reads_readItem {t : Token} {ts : List Token} {item : Item} (h : IsItem (t :: ts) item)
    (hopen : elements = [] → item.isTest = false) :
    Reads (readItem elements t) ts (item.join elements) rest := by
  unfold readItem
  cases h with
  | element ht =>
    rw [if_pos ht]
    exact .pure _
  | hash ht =>
    rw [if_neg (by simp [ht]), if_pos ht]
    exact .pure _
  | universal ht =>
    rw [if_neg (by simp [Token.kind_of_isChar ht]), if_neg (by simp [Token.kind_of_isChar ht]),
      if_pos ht]
    exact .pure _
  | className ht hname =>
    rw [if_neg (by simp [Token.kind_of_isChar ht]), if_neg (by simp [Token.kind_of_isChar ht]),
      if_neg (by simp [Token.isChar_eq_false ht]), if_pos ht]
    exact (reads_className hname).map (.pure _)
  | test ht htest =>
    have hne : ¬elements.isEmpty = true := by
      intro he
      cases hopen (List.isEmpty_iff.mp he)
    rw [if_neg (by simp [Token.kind_of_isChar ht]), if_neg (by simp [Token.kind_of_isChar ht]),
      if_neg (by simp [Token.isChar_eq_false ht]), if_neg (by simp [Token.isChar_eq_false ht]),
      if_pos ht, if_neg hne]
    exact (Reader.reads_attributeTest htest).map (.pure _)

/-- A token that can stand in a run that has no comments. -/
def InRun (t : Token) : Prop := t.isComment = false ∧ isTerminator t = false

theorem inRun_of_kind {t : Token} (hcomment : t.kind ≠ .comment) (hchar : t.kind ≠ .character) :
    InRun t := by
  simp [InRun, Token.isComment, isTerminator, Token.isChar_of_kind hchar, hcomment]

theorem inRun_of_isChar {t : Token} {a : Char} (ht : t.isChar a = true) (hcomma : a ≠ ',')
    (hbrace : a ≠ '{') : InRun t := by
  simp [InRun, Token.isComment, isTerminator, Token.kind_of_isChar ht,
    Token.isChar_eq_false ht hcomma, Token.isChar_eq_false ht hbrace]

theorem inRun_blank {gap : List Token} (h : Blank gap) : ∀ t ∈ gap, InRun t :=
  fun t ht => inRun_of_kind (by simp [h t ht]) (by simp [h t ht])

theorem IsOperator.inRun {ts : List Token} {op : Operator} (h : IsOperator ts op) :
    ∀ t ∈ ts, InRun t := by
  have hequals {t : Token} (ht : t.isChar '=' = true) : InRun t :=
    inRun_of_isChar ht (by decide) (by decide)
  cases h with
  | equal ht => simpa using hequals ht
  | less ht => simpa using inRun_of_isChar ht (by decide) (by decide)
  | greater ht => simpa using inRun_of_isChar ht (by decide) (by decide)
  | atMost ht hu => simpa using ⟨inRun_of_isChar ht (by decide) (by decide), hequals hu⟩
  | atLeast ht hu => simpa using ⟨inRun_of_isChar ht (by decide) (by decide), hequals hu⟩
  | unequal ht hu => simpa using ⟨inRun_of_isChar ht (by decide) (by decide), hequals hu⟩

theorem IsScalar.inRun {t : Token} {v : Scalar} (h : IsScalar t v) : InRun t := by
  cases h with
  | number hk => exact inRun_of_kind (by simp [hk]) (by simp [hk])
  | string hk => exact inRun_of_kind (by simp [hk]) (by simp [hk])

theorem IsTest.inRun {ts : List Token} {test : Test} (h : IsTest ts test) :
    ∀ t ∈ ts, InRun t := by
  obtain ⟨hgap, hname, hgap₁, hop, hgap₂, hvalue, hgap₃, hclose⟩ := h
  simp only [List.mem_append, List.mem_singleton]
  rintro t ((ht | rfl) | (ht | ht) | (ht | rfl) | ht | rfl)
  · exact inRun_blank hgap t ht
  · exact inRun_of_kind (by simp [hname]) (by simp [hname])
  · exact inRun_blank hgap₁ t ht
  · exact hop.inRun t ht
  · exact inRun_blank hgap₂ t ht
  · exact hvalue.inRun
  · exact inRun_blank hgap₃ t ht
  · exact inRun_of_isChar hclose (by decide) (by decide)

theorem IsItem.inRun {ts : List Token} {item : Item} (h : IsItem ts item) :
    ∀ t ∈ ts, InRun t := by
  cases h with
  | element ht => simpa using inRun_of_kind (by simp [ht]) (by simp [ht])
  | hash ht => simpa using inRun_of_kind (by simp [ht]) (by simp [ht])
  | universal ht => simpa using inRun_of_isChar ht (by decide) (by decide)
  | className hdot ht =>
    simpa using ⟨inRun_of_isChar hdot (by decide) (by decide),
      inRun_of_kind (by simp [ht]) (by simp [ht])⟩
  | test hbracket htest =>
    rw [List.forall_mem_cons]
    exact ⟨inRun_of_isChar hbracket (by decide) (by decide), htest.inRun⟩

theorem IsItems.inRun {ts : List Token} {items : List Item} (h : IsItems ts items) :
    ∀ t ∈ ts, InRun t := by
  induction h with
  | nil hgap => exact inRun_blank hgap
  | cons hgap hitem _ ih =>
    simp only [List.mem_append]
    rintro t (ht | ht | ht)
    · exact inRun_blank hgap t ht
    · exact hitem.inRun t ht
    · exact ih t ht

/-- An item begins with a token that can begin a selector. -/
theorem IsItem.begins {ts : List Token} {item : Item} (h : IsItem ts item) : Sheet.Begins ts := by
  cases h with
  | @element t ht => exact ⟨t, [], rfl, by simp [ht]⟩
  | @hash t ht => exact ⟨t, [], rfl, by simp [ht]⟩
  | @universal t ht => exact ⟨t, [], rfl, by simp [ht]⟩
  | @className t u ht hu => exact ⟨t, [u], rfl, by simp [ht]⟩
  | @test t us _ ht hus => exact ⟨t, us, rfl, by simp [ht]⟩

/-- The whitespace before the first item, and the rest. -/
theorem IsItems.split {ts : List Token} {item : Item} {items : List Item}
    (h : IsItems ts (item :: items)) :
    ∃ gap us, ts = gap ++ us ∧ Blank gap ∧ IsItems us (item :: items) ∧ Sheet.Begins us := by
  cases h with
  | @cons gap ts us _ _ hgap hitem hrest =>
    exact ⟨gap, ts ++ us, rfl, hgap, .cons Blank.nil hitem hrest, hitem.begins.append us⟩

theorem joinLast_concat (change : Element → Element) (elements : List Element) (e : Element) :
    joinLast change (elements ++ [e]) = elements ++ [change e] := by
  induction elements with
  | nil => rfl
  | cons d ds ih =>
    cases ds with
    | nil => rfl
    | cons d' ds => exact congrArg (List.cons d) ih

theorem joined_append (es : List Element) (items items' : List Item) :
    joined es (items ++ items') = joined (joined es items) items' :=
  List.foldl_append

/-- The first item of a group makes an element of its own. -/
theorem join_first {item : Item} {es : List Element} (h : es = [] ∨ item.startsElement = true) :
    item.join es = es ++ [Element.ofItems [item]] := by
  cases item with
  | element tag => rfl
  | name n =>
    rcases h with rfl | h
    · rfl
    · cases h
  | test t =>
    rcases h with rfl | h
    · rfl
    · cases h

/-- Any other item is one more of the last group. -/
theorem join_last {item : Item} (h : item.startsElement = false) (es : List Element)
    (group : List Item) :
    item.join (es ++ [Element.ofItems group]) = es ++ [Element.ofItems (group ++ [item])] := by
  cases item with
  | element tag => cases h
  | name n =>
    rw [Item.join, joinLast_concat]
    simp [Element.ofItems, Element.addName, Item.name?, Item.test?]
  | test t =>
    rw [Item.join, joinLast_concat]
    simp [Element.ofItems, Element.addTest, Item.name?, Item.test?]

theorem joined_last {items : List Item} (h : ∀ item ∈ items, item.startsElement = false)
    (es : List Element) (group : List Item) :
    joined (es ++ [Element.ofItems group]) items = es ++ [Element.ofItems (group ++ items)] := by
  induction items generalizing group with
  | nil => rw [List.append_nil]; rfl
  | cons item items ih =>
    rw [joined, List.foldl_cons, join_last (h item (by simp)), ← joined,
      ih (fun i hi => h i (by simp [hi])), List.append_assoc, List.singleton_append]

/-- Within a group only the first item may be a tag. -/
theorem startsElement_of_isChain {item : Item} {items : List Item}
    (h : (item :: items).IsChain fun _ i => (!i.startsElement) = true) :
    ∀ i ∈ items, i.startsElement = false := by
  induction items generalizing item with
  | nil => simp
  | cons next items ih =>
    obtain ⟨hnext, hrest⟩ := List.isChain_cons_cons.mp h
    rw [List.forall_mem_cons]
    exact ⟨by simpa using hnext, ih hrest⟩

/-- Groups are joined one after the other, where each that has elements before it starts with a
tag. -/
theorem joined_groups {groups : List (List Item)} {es : List Element} (hne : [] ∉ groups)
    (hgroup : ∀ g ∈ groups, g.IsChain fun _ item => (!item.startsElement) = true)
    (htags : groups.IsChain fun g g' => ∃ (_ : g ≠ []) (h : g' ≠ []),
      (!(g'.head h).startsElement) = false)
    (hes : es = [] ∨ ∀ item ∈ groups.flatten.head?, item.startsElement = true) :
    joined es groups.flatten = es ++ groups.map Element.ofItems := by
  induction groups generalizing es with
  | nil => simp [joined]
  | cons g groups ih =>
    obtain ⟨item, items, rfl⟩ := List.exists_cons_of_ne_nil fun h : g = [] => hne (by simp [h])
    have hfirst : item.join es = es ++ [Element.ofItems [item]] :=
      join_first (hes.imp_right fun h => h item rfl)
    have hitems : ∀ i ∈ items, i.startsElement = false :=
      startsElement_of_isChain (hgroup (item :: items) (by simp))
    have hjoin : joined es (item :: items) = es ++ [Element.ofItems (item :: items)] := by
      rw [joined, List.foldl_cons, hfirst]
      exact joined_last hitems es [item]
    obtain ⟨hnext, htags⟩ := List.isChain_cons.mp htags
    rw [List.flatten_cons, joined_append, hjoin, List.map_cons,
      ih (fun h => hne (by simp [h])) (fun g' hg' => hgroup g' (by simp [hg'])) htags,
      List.append_assoc, List.singleton_append]
    right
    intro tag htag
    cases groups with
    | nil => cases htag
    | cons g' groups =>
      obtain ⟨-, h, hhead⟩ := hnext g' rfl
      rw [List.flatten_cons, List.head?_append_of_ne_nil _ h, List.head?_eq_some_head h] at htag
      cases htag
      simpa using hhead

/-- The elements that the reader joins are those of the groups. -/
theorem joined_eq_elementsOf (items : List Item) : joined [] items = elementsOf items := by
  have h := joined_groups (List.nil_notMem_splitBy _ items)
    (fun g => List.isChain_of_mem_splitBy)
    (List.isChain_getLast_head_splitBy (fun _ item => !item.startsElement) items) (.inl rfl)
  rwa [List.flatten_splitBy, List.nil_append] at h

/-- A test joins an element, so the first item is none if there is no element yet. -/
def Opens (elements : List Element) (items : List Item) : Prop :=
  elements = [] → ∀ item, items.head? = some item → item.isTest = false

theorem join_ne_nil (item : Item) (elements : List Element) : item.join elements ≠ [] := by
  have hjoin (change : Element → Element) : joinLast change elements ≠ [] := by
    rcases List.eq_nil_or_concat elements with rfl | ⟨es, e, rfl⟩
    · simp [joinLast]
    · simp [joinLast_concat]
  cases item with
  | element tag => simp [Item.join]
  | name n => exact hjoin _
  | test t => exact hjoin _

/-- Reading goes from one item to the next. -/
theorem readItems_item {gap ts : List Token} {item : Item} {c : Cursor} (hgap : Blank gap)
    (h : IsItem ts item) (hopen : elements = [] → item.isTest = false)
    (hc : c.pending = gap ++ (ts ++ rest)) :
    ∃ start' d, d.pending = rest ∧
      readItems elements start c = readItems (item.join elements) start' d := by
  obtain ⟨t, us, rfl, hstarts⟩ := h.begins
  have ht : t.isTransparent = false :=
    Ruleset.isTransparent_of_startsSelector ((Sheet.startsSelector_iff t).mpr hstarts)
  have hnext : c.nextSignificant = (some t, c.past t (us ++ rest)) := by
    apply Cursor.nextPast_cons
    rw [hc]
    exact hgap.dropWhile ht (us ++ rest)
  obtain ⟨d, hd, hpending⟩ := reads_readItem h hopen (c.past t (us ++ rest)) rfl
  refine ⟨start.or (some t.position), d, hpending, ?_⟩
  have hrun : ¬isTerminator t = true := by simp [(h.inRun t (by simp)).2]
  rw [readItems_of_next _ _ hnext, if_neg hrun, hd]

/-- Tokens that spell items are read as them to the end. -/
theorem readItems_of_isItems {ts : List Token} {items : List Item} {c : Cursor}
    (h : IsItems ts items) (hopen : Opens elements items) (hc : c.pending = ts) :
    ∃ start' d, readItems elements start c = .ok ⟨joined elements items, start', none⟩ d := by
  induction h generalizing elements start c with
  | nil hgap =>
    refine ⟨start, c.atEnd, readItems_of_none _ _ ?_⟩
    rw [hc, List.dropWhile_eq_nil_iff]
    intro t ht
    simp [Token.isTransparent, hgap t ht]
  | cons hgap hitem _ ih =>
    obtain ⟨start', d, hd, hread⟩ := readItems_item hgap hitem (fun he => hopen he _ rfl) hc
    rw [hread]
    exact ih (fun he => absurd he (join_ne_nil _ _)) hd

/-- A run that spells items is the selector built of them. -/
theorem ofTokens_of_isItems (mercator : Bool) {ts : List Token} {items : List Item}
    (h : IsItems ts items) (hopen : Opens [] items) (stop p : Position) (s : Selector) :
    ofTokens mercator ts stop = .ok s ↔ build mercator (joined [] items) p = .ok s := by
  have hread : ∃ start d, readItems [] none { rest := ts } = .ok ⟨joined [] items, start, none⟩ d :=
    readItems_of_isItems h hopen rfl
  obtain ⟨start, d, hread⟩ := hread
  exact ofTokens_of_items mercator hread rfl stop p s

end Selector

end Cartosheet
