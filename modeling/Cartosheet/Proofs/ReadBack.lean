import Cartosheet.Proofs.PrintedText
import Cartosheet.Proofs.Projection
import Cartosheet.Proofs.TagOrder

namespace Cartosheet

/-- Small whole numbers, and strings that need no escapes. -/
def Scalar.isPrintable : Scalar → Bool
  | number x => x.whole?.any (·.natAbs < 1000000000000000)
  | string s => s.toList.all Lexeme.isStringChar

def Test.isPrintable (t : Test) : Bool :=
  isPlainName Char.isAlpha t.property.toList && t.value.isPrintable

/-- The value that is read back: a zero has lost its sign. -/
def Scalar.readBack : Scalar → Scalar
  | number x => number x.unsignedZero
  | string s => string s

def Test.readBack (t : Test) : Test := { t with value := t.value.readBack }

namespace Selector

def Name.isPrintable : Name → Bool
  | tag name => isPlainName Char.isAlpha name.toList
  | universal => true
  | id name => isPlainName Char.isAlphanum name.toList
  | className name => isPlainName Char.isAlpha name.toList

def Element.isPrintable (e : Element) : Bool :=
  e.names.all Name.isPrintable && e.tests.all Test.isPrintable

def isPrintable (s : Selector) : Bool := s.elements.all Element.isPrintable

def Element.readBack (e : Element) : Element := { e with tests := e.tests.map Test.readBack }

def readBack (s : Selector) : Selector := ⟨s.first.readBack, s.descendant.map Element.readBack⟩

open Token (Scans One Mark)

/-- The item that a name is written as. -/
def Name.item : Name → Item
  | tag name => .element name
  | n => .name n

def Element.items (e : Element) : List Item :=
  e.names.map Name.item ++ e.tests.map Item.test

/-- The text comes apart into tokens that spell the items. -/
def Spells (cs rest : List Char) (items : List Item) : Prop := Scans cs rest (IsItems · items)

theorem Spells.nil (rest : List Char) : Spells [] rest [] :=
  fun p => ⟨[], p, rfl, .nil Blank.nil⟩

theorem Spells.append {cs ds rest : List Char} {items items' : List Item}
    (h : Spells cs (ds ++ rest) items) (h' : Spells ds rest items') :
    Spells (cs ++ ds) rest (items ++ items') :=
  Scans.append h h' fun _ _ => IsItems.append

/-- What stands after a name: another name of its element, a test, or the end of the element. -/
def AfterName (rest : List Char) : Prop :=
  ∃ c cs, rest = c :: cs ∧ ['#', '.', '*', '[', ' '].contains c = true

theorem AfterName.ends {rest : List Char} (h : AfterName rest) :
    Ends rest ∧ rest.head? ≠ some '=' := by
  obtain ⟨c, cs, rfl, hc⟩ := h
  simp only [List.contains_eq_mem, List.mem_cons, List.not_mem_nil, or_false,
    decide_eq_true_eq] at hc
  constructor
  · refine ⟨c, cs, rfl, ?_⟩
    rcases hc with rfl | rfl | rfl | rfl | rfl <;> decide
  · rcases hc with rfl | rfl | rfl | rfl | rfl <;> simp

theorem spells_name {n : Name} {rest : List Char} (hn : n.isPrintable = true)
    (hrest : AfterName rest) : Spells n.text.toList rest [n.item] := by
  obtain ⟨hends, hequals⟩ := hrest.ends
  cases n with
  | tag name =>
    refine (Token.scans_word hn hends).mono ?_
    rintro ts ⟨p, rfl⟩
    exact IsItem.single (.element rfl)
  | universal =>
    refine (Token.scans_character (Lexeme.first_star hequals)).mono ?_
    rintro ts ⟨t, rfl, ht⟩
    exact IsItem.single (.universal ht)
  | id name =>
    have htext : (Name.id name).text.toList = '#' :: name.toList := by simp [Name.text]
    have hname : Name.ofText (String.ofList ('#' :: name.toList)) = .id name := by
      simp [Name.ofText]
    rw [htext]
    refine (Token.scans_first (Lexeme.first_hash hn hends)).mono ?_
    rintro ts ⟨p, rfl⟩
    have hitem := (IsItem.hash (t := ⟨.hash, String.ofList ('#' :: name.toList), p⟩) rfl).single
    rwa [hname] at hitem
  | className name =>
    obtain ⟨c, cs, hname, hc, -⟩ := isPlainName_eq_true hn
    have hpoint : Scans ['.'] (name.toList ++ rest) (Mark '.') := by
      rw [hname]
      exact Token.scans_character (Lexeme.first_point (isDigit_eq_false_of_isAlpha hc) _)
    have htext : (Name.className name).text.toList = ['.'] ++ name.toList := by simp [Name.text]
    rw [htext]
    refine hpoint.append (Token.scans_word hn hends) ?_
    rintro ts us ⟨t, rfl, ht⟩ ⟨q, rfl⟩
    exact IsItem.single (.className ht rfl)

theorem AfterName.append {cs : List Char} (h : AfterName cs) (ds : List Char) :
    AfterName (cs ++ ds) := by
  obtain ⟨c, cs, rfl, hc⟩ := h
  exact ⟨c, cs ++ ds, rfl, hc⟩

/-- A name that is no tag is told from the name before it by its sign. -/
theorem afterName_name {n : Name} (h : n.isTag = false) : AfterName n.text.toList := by
  cases n with
  | tag name => cases h
  | universal => exact ⟨'*', [], rfl, by decide⟩
  | id name => exact ⟨'#', name.toList, by simp [Name.text], by decide⟩
  | className name => exact ⟨'.', name.toList, by simp [Name.text], by decide⟩

theorem afterName_names {ns : List Name} (h : ∀ n ∈ ns, n.isTag = false) {rest : List Char}
    (hrest : AfterName rest) : AfterName (ns.flatMap (·.text.toList) ++ rest) := by
  cases ns with
  | nil => exact hrest
  | cons n ns =>
    rw [List.flatMap_cons, List.append_assoc]
    exact (afterName_name (h n (by simp))).append _

theorem spells_names {ns : List Name} {rest : List Char} (hn : ∀ n ∈ ns, n.isPrintable = true)
    (htags : ∀ n ∈ ns.tail, n.isTag = false) (hrest : AfterName rest) :
    Spells (ns.flatMap (·.text.toList)) rest (ns.map Name.item) := by
  induction ns with
  | nil => exact .nil rest
  | cons n ns ih =>
    rw [List.forall_mem_cons] at hn
    have hname := spells_name hn.1 (afterName_names htags hrest)
    exact hname.append (ih hn.2 fun m hm => htags m (List.mem_of_mem_tail hm))

theorem scans_operator (op : Operator) {rest : List Char} (h : rest.head? ≠ some '!') :
    Scans op.symbol.toList rest (IsOperator · op) := by
  have hequals (rest : List Char) : Scans ['='] rest (Mark '=') :=
    Token.scans_standsAlone (by decide) rest
  cases op with
  | less =>
    refine (Token.scans_character (Lexeme.first_less h)).mono ?_
    rintro ts ⟨t, rfl, ht⟩
    exact .less ht
  | atMost =>
    have hless : Scans ['<'] ('=' :: rest) (Mark '<') :=
      Token.scans_character (Lexeme.first_less (by simp))
    refine hless.append (hequals rest) ?_
    rintro ts us ⟨t, rfl, ht⟩ ⟨u, rfl, hu⟩
    exact .atMost ht hu
  | equal =>
    refine (hequals rest).mono ?_
    rintro ts ⟨t, rfl, ht⟩
    exact .equal ht
  | unequal =>
    have hbang : Scans ['!'] ('=' :: rest) (Mark '!') := Token.scans_standsAlone (by decide) _
    refine hbang.append (hequals rest) ?_
    rintro ts us ⟨t, rfl, ht⟩ ⟨u, rfl, hu⟩
    exact .unequal ht hu
  | atLeast =>
    have hgreater : Scans ['>'] ('=' :: rest) (Mark '>') := Token.scans_standsAlone (by decide) _
    refine hgreater.append (hequals rest) ?_
    rintro ts us ⟨t, rfl, ht⟩ ⟨u, rfl, hu⟩
    exact .atLeast ht hu
  | greater =>
    refine (Token.scans_standsAlone (c := '>') (by decide) rest).mono ?_
    rintro ts ⟨t, rfl, ht⟩
    exact .greater ht

theorem text_number {x : Binary64} (h : (Scalar.number x).isPrintable = true) :
    ∃ z, x.whole? = some z ∧ z.natAbs < 1000000000000000 ∧
      (Scalar.number x).text = toString z := by
  obtain ⟨z, hx, hz⟩ := (Option.any_eq_true _ _).mp h
  rw [decide_eq_true_eq] at hz
  refine ⟨z, hx, hz, ?_⟩
  simp only [Scalar.text, hx, if_pos hz]

/-- The value of a test starts with none of the characters that would join the operator. -/
theorem head?_scalar {v : Scalar} (h : v.isPrintable = true) (rest : List Char) :
    (v.text.toList ++ rest).head? ≠ some '!' := by
  cases v with
  | number x =>
    obtain ⟨z, -, -, htext⟩ := text_number h
    obtain ⟨c, cs, hwhole, hc⟩ := wholeText_eq_cons (decide (z < 0)) z.natAbs
    rw [htext, toList_toString, hwhole]
    intro hhead
    cases hhead
    rcases hc with hc | hc <;> cases hc
  | string s => simp [Scalar.text]

theorem scans_scalar {v : Scalar} (h : v.isPrintable = true) (rest : List Char) :
    Scans v.text.toList (']' :: rest) fun ts => ∃ t, ts = [t] ∧ IsScalar t v.readBack := by
  cases v with
  | number x =>
    obtain ⟨z, hx, hz, htext⟩ := text_number h
    obtain ⟨c, cs, hwhole, -⟩ := wholeText_eq_cons (decide (z < 0)) z.natAbs
    have hscan := Token.scans_first (Lexeme.first_wholeText hwhole rest)
    rw [← hwhole, ← toList_toString, String.ofList_toList] at hscan
    rw [htext]
    refine hscan.mono ?_
    rintro ts ⟨p, rfl⟩
    exact ⟨_, rfl, .number rfl (Binary64.ofText?_toString hx hz)⟩
  | string s =>
    have hs : ∀ c ∈ s.toList, Lexeme.isStringChar c = true := List.all_eq_true.mp h
    have htext : (Scalar.string s).text.toList = '"' :: (s.toList ++ ['"']) := by
      simp [Scalar.text]
    have hunquoted : unquoted (String.ofList ('"' :: (s.toList ++ ['"']))) = s := by
      simp [unquoted, isQuote]
    have hfirst := Lexeme.first_string hs (']' :: rest)
    rw [List.append_cons] at hfirst
    rw [htext]
    refine (Token.scans_first hfirst).mono ?_
    rintro ts ⟨p, rfl⟩
    have hscalar := IsScalar.string
      (t := ⟨.string, String.ofList ('"' :: (s.toList ++ ['"'])), p⟩) rfl
    rw [hunquoted] at hscalar
    exact ⟨_, rfl, hscalar⟩

theorem ends_operator (op : Operator) (rest : List Char) : Ends (op.symbol.toList ++ rest) := by
  cases op with
  | less => exact ⟨'<', rest, rfl, by decide⟩
  | atMost => exact ⟨'<', '=' :: rest, rfl, by decide⟩
  | equal => exact ⟨'=', rest, rfl, by decide⟩
  | unequal => exact ⟨'!', '=' :: rest, rfl, by decide⟩
  | atLeast => exact ⟨'>', '=' :: rest, rfl, by decide⟩
  | greater => exact ⟨'>', rest, rfl, by decide⟩

theorem toList_test (t : Test) :
    t.text.toList = ['['] ++ (t.property.toList ++
      (t.operator.symbol.toList ++ (t.value.text.toList ++ [']']))) := by
  simp [Test.text]

theorem spells_test {t : Test} (h : t.isPrintable = true) (rest : List Char) :
    Spells t.text.toList rest [.test t.readBack] := by
  obtain ⟨property, op, v⟩ := t
  rw [Test.isPrintable, Bool.and_eq_true] at h
  obtain ⟨hproperty, hv⟩ := h
  have hclose : Scans [']'] rest (Mark ']') := Token.scans_standsAlone (by decide) rest
  -- the value and all after it, then the operator, the property and the opening bracket
  have hvalue : Scans (v.text.toList ++ [']']) rest fun ts =>
      ∃ t u, ts = [t, u] ∧ IsScalar t v.readBack ∧ u.isChar ']' = true := by
    refine (scans_scalar hv rest).append hclose ?_
    rintro ts us ⟨t, rfl, ht⟩ ⟨u, rfl, hu⟩
    exact ⟨t, u, rfl, ht, hu⟩
  have hop : Scans (op.symbol.toList ++ (v.text.toList ++ [']'])) rest fun ts =>
      ∃ ops t u, ts = ops ++ [t, u] ∧ IsOperator ops op ∧ IsScalar t v.readBack ∧
        u.isChar ']' = true := by
    have hhead := head?_scalar hv ([']'] ++ rest)
    rw [← List.append_assoc] at hhead
    refine (scans_operator op hhead).append hvalue ?_
    rintro ops us hops ⟨t, u, rfl, ht, hu⟩
    exact ⟨ops, t, u, rfl, hops, ht, hu⟩
  have htest : Scans (property.toList ++ (op.symbol.toList ++ (v.text.toList ++ [']']))) rest
      (IsTest · ⟨property, op, v.readBack⟩) := by
    have hends := ends_operator op (v.text.toList ++ [']'] ++ rest)
    rw [← List.append_assoc] at hends
    refine (Token.scans_word hproperty hends).append hop ?_
    rintro ts us ⟨p, rfl⟩ ⟨ops, t, u, rfl, hops, ht, hu⟩
    exact .mk Blank.nil rfl Blank.nil hops Blank.nil ht Blank.nil hu
  rw [toList_test]
  refine (Token.scans_standsAlone (c := '[') (by decide) _).append htest ?_
  rintro ts us ⟨t, rfl, ht⟩ hus
  exact IsItem.single (.test ht hus)

theorem spells_tests {ts : List Test} (h : ∀ t ∈ ts, t.isPrintable = true) (rest : List Char) :
    Spells (ts.flatMap (·.text.toList)) rest (ts.map fun t => .test t.readBack) := by
  induction ts with
  | nil => exact .nil rest
  | cons t ts ih =>
    rw [List.forall_mem_cons] at h
    exact (spells_test h.1 _).append (ih h.2)

theorem toList_element (e : Element) :
    e.text.toList = e.names.flatMap (·.text.toList) ++ e.tests.flatMap (·.text.toList) := by
  simp [Element.text, String.toList_join, List.flatMap_map]

theorem spells_element {e : Element} {rest : List Char} (he : e.isPrintable = true)
    (htags : ∀ n ∈ e.names.tail, n.isTag = false) (hrest : AfterName rest) :
    Spells e.text.toList rest e.readBack.items := by
  rw [Element.isPrintable, Bool.and_eq_true, List.all_eq_true, List.all_eq_true] at he
  have htests : AfterName (e.tests.flatMap (·.text.toList) ++ rest) := by
    cases e.tests with
    | nil => exact hrest
    | cons t ts =>
      have htest : AfterName t.text.toList := ⟨'[', _, toList_test t, by decide⟩
      rw [List.flatMap_cons, List.append_assoc]
      exact htest.append _
  have hspells := (spells_names he.1 htags htests).append (spells_tests he.2 rest)
  rw [← toList_element] at hspells
  simpa [Element.items, Element.readBack, Function.comp_def] using hspells

/-- The space between two elements. -/
theorem spells_space {c : Char} (h : isBlank c = false) (rest : List Char) :
    Spells [' '] (c :: rest) [] := by
  refine (Token.scans_first (Lexeme.first_space h rest)).mono ?_
  rintro ts ⟨p, rfl⟩
  exact .nil (by simp [Blank])

theorem toList_text (s : Selector) :
    s.text.toList = s.first.text.toList ++
      s.descendant.toList.flatMap fun e => [' '] ++ e.text.toList := by
  cases h : s.descendant with
  | none => simp [text, textOfElements, elements, h]
  | some e => simp [text, textOfElements, elements, h]

/-- An element that starts with a tag starts with a letter. -/
theorem Element.text_of_tag {e : Element} (he : e.isPrintable = true) {tag : String}
    {ns : List Name} (hnames : e.names = .tag tag :: ns) :
    ∃ c cs, e.text.toList = c :: cs ∧ isBlank c = false := by
  rw [isPrintable, Bool.and_eq_true, List.all_eq_true] at he
  have htag : isPlainName Char.isAlpha tag.toList = true := he.1 (.tag tag) (by simp [hnames])
  obtain ⟨c, cs, hcs, hc, -⟩ := isPlainName_eq_true htag
  have hblank : [' ', '\t', '\n', '\r', '\x0c'].contains c = false :=
    contains_eq_false hc rfl
  have htext : ∃ ds, e.text.toList = c :: ds := by
    rw [toList_element, hnames, List.flatMap_cons, Name.text, hcs]
    exact ⟨_, rfl⟩
  obtain ⟨ds, hds⟩ := htext
  exact ⟨c, ds, hds, by simpa [isBlank, isNewline, and_assoc] using hblank⟩

theorem spells_selector {s : Selector} {rest : List Char} (hs : s.isPrintable = true)
    (hlined : Lined s.elements) (hrest : AfterName rest) :
    Spells s.text.toList rest (s.readBack.elements.flatMap Element.items) := by
  obtain ⟨first, descendant⟩ := s
  have hprintable := List.all_eq_true.mp hs
  have hfirst {rest : List Char} (hrest : AfterName rest) :
      Spells first.text.toList rest first.readBack.items :=
    spells_element (hprintable first (by simp [elements]))
      (hlined.lead first (by simp [elements])) hrest
  rw [toList_text]
  cases descendant with
  | none => simpa [readBack, elements] using hfirst hrest
  | some e =>
    have he := hprintable e (by simp [elements])
    obtain ⟨tag, ns, hnames⟩ := hlined.headed e (by simp [elements])
    obtain ⟨c, cs, htext, hc⟩ := Element.text_of_tag he hnames
    have hspace : Spells [' '] (e.text.toList ++ rest) [] := by
      rw [htext]
      exact spells_space hc _
    have helement := spells_element he (hlined.lead e (by simp [elements])) hrest
    have hall := (hfirst ⟨' ', _, rfl, by decide⟩).append (hspace.append helement)
    simpa [readBack, elements] using hall

theorem Name.item_of_isTag {n : Name} (h : n.isTag = false) : n.item = .name n := by
  cases n with
  | tag name => cases h
  | universal => rfl
  | id name => rfl
  | className name => rfl

theorem joined_names (es : List Element) (e : Element) {ns : List Name}
    (h : ∀ n ∈ ns, n.isTag = false) :
    joined (es ++ [e]) (ns.map Name.item) = es ++ [{ e with names := e.names ++ ns }] := by
  induction ns generalizing e with
  | nil => simp [joined]
  | cons n ns ih =>
    rw [List.forall_mem_cons] at h
    have hjoin : n.item.join (es ++ [e]) = es ++ [e.addName n] := by
      rw [Name.item_of_isTag h.1]
      exact joinLast_concat _ _ _
    rw [List.map_cons, joined, List.foldl_cons, hjoin]
    exact (ih _ h.2).trans (by simp [Element.addName])

theorem joined_tests (es : List Element) (e : Element) (ts : List Test) :
    joined (es ++ [e]) (ts.map Item.test) = es ++ [{ e with tests := e.tests ++ ts }] := by
  induction ts generalizing e with
  | nil => simp [joined]
  | cons t ts ih =>
    have hjoin : (Item.test t).join (es ++ [e]) = es ++ [e.addTest t] := joinLast_concat _ _ _
    rw [List.map_cons, joined, List.foldl_cons, hjoin]
    exact (ih _).trans (by simp [Element.addTest])

/-- The items of an element are joined to it, where its first name starts an element. -/
theorem joined_element {es : List Element} {e : Element} {n : Name} {ns : List Name}
    (hnames : e.names = n :: ns) (htags : ∀ m ∈ ns, m.isTag = false)
    (hstart : n.isTag = true ∨ es = []) : joined es e.items = es ++ [e] := by
  have hjoin : n.item.join es = es ++ [{ names := [n] }] := by
    cases htag : n.isTag with
    | true =>
      cases n with
      | tag name => rfl
      | universal => cases htag
      | id name => cases htag
      | className name => cases htag
    | false =>
      obtain rfl : es = [] := by simpa [htag] using hstart
      rw [Name.item_of_isTag htag]
      rfl
  have hitems : e.items = n.item :: (ns.map Name.item ++ e.tests.map Item.test) := by
    rw [Element.items, hnames]
    rfl
  rw [hitems, joined, List.foldl_cons, hjoin]
  change joined _ _ = _
  rw [joined_append, joined_names _ _ htags, joined_tests]
  simp [hnames.symm]

theorem joined_elements {s : Selector} (hlined : Lined s.elements) (hne : s.first.names ≠ []) :
    joined [] (s.elements.flatMap Element.items) = s.elements := by
  obtain ⟨first, descendant⟩ := s
  have hfirst : joined [] first.items = [first] := by
    cases hnames : first.names with
    | nil => exact absurd hnames hne
    | cons n ns =>
      have htags := hlined.lead first (by simp [elements])
      rw [hnames] at htags
      exact joined_element hnames htags (.inr rfl)
  cases descendant with
  | none => simpa [elements] using hfirst
  | some e =>
    obtain ⟨tag, ns, hnames⟩ := hlined.headed e (by simp [elements])
    have htags := hlined.lead e (by simp [elements])
    rw [hnames] at htags
    have he : joined [first] e.items = [first] ++ [e] := joined_element hnames htags (.inl rfl)
    simp only [elements, Option.toList_some, List.flatMap_cons, List.flatMap_nil, List.append_nil]
    rw [joined_append, hfirst, he]
    rfl

theorem Name.isRoot_of_roots {n : Name} (h : n.Roots) : n.isRoot = true := by
  cases h <;> rfl

theorem Element.isQualified_of_isBare {e : Element} (h : e.IsBare) : e.isQualified = false := by
  obtain ⟨htests, hnames⟩ := h
  have hids : e.ids = 0 := by
    refine List.countP_eq_zero.mpr fun n hn => ?_
    cases n with
    | id name => exact absurd rfl ((hnames _ hn).1 name)
    | _ => simp [Name.isId]
  have hclasses : e.classes = 0 := by
    refine List.countP_eq_zero.mpr fun n hn => ?_
    cases n with
    | className name => exact absurd rfl ((hnames _ hn).2 name)
    | _ => simp [Name.isClass]
  simp [isQualified, htests, hids, hclasses]

/-- A well-formed selector is built of its elements, under any projection. -/
theorem WellFormed.build_elements {s : Selector} (h : s.WellFormed) (mercator : Bool)
    (p : Position) : build mercator s.elements p = .ok s := by
  have hcheck : checkRoot s.first = .ok () := by
    obtain ⟨n, ns, hnames, hroot⟩ := h.rooted
    rw [checkRoot, hnames]
    exact if_pos (Name.isRoot_of_roots hroot)
  have hshape : ofElements s.elements = .ok s := by
    obtain ⟨first, descendant⟩ := s
    cases descendant with
    | none =>
      change (checkRoot first >>= fun _ => _) = _
      rw [hcheck]
      rfl
    | some e =>
      have hbare := Element.isQualified_of_isBare (h.bare e rfl)
      change (checkRoot first >>= fun _ => _) = _
      rw [hcheck]
      simp only [hbare]
      rfl
  have hplain : s.tests.any Zoom.isShorthand = false := by
    rw [List.any_eq_false]
    intro t ht
    have hne := h.expanded s.first (by simp [elements]) t ht
    simpa [Zoom.isShorthand] using hne
  have hconvert : s.convertZoom mercator = (s, none) := by
    rw [convertZoom, Zoom.expandAll_plain mercator hplain]
    simp [Zoom.Expansion.tests, tests]
  simp only [build, hshape, hconvert]

theorem elements_readBack (s : Selector) :
    s.readBack.elements = s.elements.map Element.readBack := by
  cases h : s.descendant <;> simp [elements, readBack, h]

theorem WellFormed.of_readBack {s : Selector} (h : s.WellFormed) : s.readBack.WellFormed := by
  refine ⟨?_, ?_, h.rooted, ?_, ?_⟩
  · rw [elements_readBack, List.length_map]
    exact h.shape
  · rw [elements_readBack, List.forall_mem_map]
    exact h.named
  · intro e he
    obtain ⟨d, hd, rfl⟩ := Option.map_eq_some_iff.mp he
    obtain ⟨htests, hnames⟩ := h.bare d hd
    exact ⟨by simp [Element.readBack, htests], hnames⟩
  · rw [elements_readBack, List.forall_mem_map]
    intro e he t ht
    obtain ⟨u, hu, rfl⟩ := List.mem_map.mp ht
    exact h.expanded e he u hu

theorem Lined.of_readBack {s : Selector} (h : Lined s.elements) : Lined s.readBack.elements := by
  rw [elements_readBack]
  constructor
  · rw [List.forall_mem_map]
    exact h.lead
  · rw [← List.map_tail, List.forall_mem_map]
    exact h.headed

/-- Read back, the items of a selector are the selector. -/
theorem build_readBack {s : Selector} (h : s.WellFormed) (hlined : Lined s.elements)
    (mercator : Bool) (p : Position) :
    build mercator (joined [] (s.readBack.elements.flatMap Element.items)) p = .ok s.readBack := by
  obtain ⟨n, ns, hnames, -⟩ := h.of_readBack.rooted
  rw [joined_elements hlined.of_readBack (by simp [hnames])]
  exact h.of_readBack.build_elements mercator p

end Selector

namespace Sheet

theorem IsSheet.blank {σ : Settings} {gap ts : List Token} {rs : List Ruleset} (hgap : Blank gap)
    (h : IsSheet σ ts rs) : IsSheet σ (gap ++ ts) rs := by
  induction gap with
  | nil => exact h
  | cons t gap ih =>
    rw [Blank, List.forall_mem_cons] at hgap
    exact .skip (by simp [Token.isTransparent, hgap.1]) (ih hgap.2)

/-- Items before an empty block are a sheet of one selector. -/
theorem isSheet_of_isItems {σ : Settings} {ts : List Token} {item : Selector.Item}
    {items : List Selector.Item} {brace close : Token} {p : Position} {s : Selector}
    (h : Selector.IsItems ts (item :: items)) (htest : item.isTest = false)
    (hs : Selector.build σ.mercator (Selector.joined [] (item :: items)) p = .ok s)
    (hbrace : brace.isChar '{' = true) (hclose : close.isChar '}' = true) :
    IsSheet σ (ts ++ [brace, close]) [⟨[s], []⟩] := by
  obtain ⟨gap, run, rfl, hgap, hitems, hbegins⟩ := h.split
  have hrun : IsRun σ.mercator run brace s := by
    have hinRun := hitems.inRun
    refine ⟨fun u hu => (isTerminator_eq_false_iff u).mp (hinRun u hu).2, ?_⟩
    rw [List.filter_eq_self.mpr fun u hu => by simp [(hinRun u hu).1]]
    refine (Selector.ofTokens_of_isItems _ hitems ?_ _ p s).mpr hs
    intro _ item' hitem'
    cases hitem'
    exact htest
  have hrule : IsRule σ ([] ++ run ++ [brace] ++ [] ++ [close]) ⟨[] ++ [s], []⟩ :=
    .mk (hbegins.append _) (.mk .nil hrun hbrace) .nil hclose
  rw [List.append_assoc]
  refine IsSheet.blank hgap ?_
  simpa using IsSheet.rule hrule .nil

end Sheet

/-- Equal strings, or numbers that compare as equal. -/
inductive Scalar.Same : Scalar → Scalar → Prop
  | number {x y : Binary64} : x.compare? y = some .eq → Same (.number x) (.number y)
  | string {s : String} : Same (.string s) (.string s)

structure Test.Same (t u : Test) : Prop where
  property : t.property = u.property
  operator : t.operator = u.operator
  value : t.value.Same u.value

namespace Selector

structure Element.Same (e d : Element) : Prop where
  names : e.names = d.names
  tests : List.Forall₂ Test.Same e.tests d.tests

/-- The same selector, numbers compared as numbers. -/
structure Same (s s' : Selector) : Prop where
  first : s.first.Same s'.first
  descendant : Option.Rel Element.Same s.descendant s'.descendant

end Selector

theorem Scalar.same_readBack {v : Scalar} (h : v.isPrintable = true) : v.readBack.Same v := by
  cases v with
  | number x =>
    obtain ⟨z, hx, -⟩ := (Option.any_eq_true _ _).mp h
    exact .number (Binary64.compare?_unsignedZero hx)
  | string s => exact .string

namespace Selector

theorem Element.same_readBack {e : Element} (h : e.isPrintable = true) : e.readBack.Same e := by
  rw [isPrintable, Bool.and_eq_true, List.all_eq_true, List.all_eq_true] at h
  refine ⟨rfl, ?_⟩
  have htests : ∀ t ∈ e.tests, t.readBack.Same t := by
    intro t ht
    have hvalue := (Bool.and_eq_true _ _).mp (h.2 t ht)
    exact ⟨rfl, rfl, Scalar.same_readBack hvalue.2⟩
  change List.Forall₂ _ (e.tests.map Test.readBack) e.tests
  rw [List.forall₂_map_left_iff]
  exact List.forall₂_same.mpr htests

theorem same_readBack {s : Selector} (h : s.isPrintable = true) : s.readBack.Same s := by
  have hall := List.all_eq_true.mp h
  refine ⟨Element.same_readBack (hall s.first (by simp [elements])), ?_⟩
  change Option.Rel _ (s.descendant.map Element.readBack) s.descendant
  cases hd : s.descendant with
  | none => exact .none
  | some e => exact .some (Element.same_readBack (hall e (by simp [elements, hd])))

end Selector

/-- An empty block after a selector. -/
theorem Token.scans_emptyBlock :
    Scans [' ', '{', '}'] [] fun ts => ∃ space brace close, ts = [space, brace, close] ∧
      space.kind = .whitespace ∧ brace.isChar '{' = true ∧ close.isChar '}' = true := by
  have hspace : Scans [' '] ['{', '}'] (One .whitespace " ") :=
    scans_first (Lexeme.first_space (by decide) _)
  have hbrace : Scans ['{'] ['}'] (Mark '{') := scans_standsAlone (by decide) _
  have hclose : Scans ['}'] [] (Mark '}') := scans_standsAlone (by decide) _
  have hblock : Scans ['{', '}'] [] fun ts => ∃ brace close, ts = [brace, close] ∧
      brace.isChar '{' = true ∧ close.isChar '}' = true := by
    refine hbrace.append hclose ?_
    rintro ts us ⟨t, rfl, ht⟩ ⟨u, rfl, hu⟩
    exact ⟨t, u, rfl, ht, hu⟩
  refine hspace.append hblock ?_
  rintro ts us ⟨p, rfl⟩ ⟨t, u, rfl, ht, hu⟩
  exact ⟨_, t, u, rfl, rfl, ht, hu⟩

namespace Stylesheet

/-- A text that spells the items of a selector is read as it. -/
theorem rulesets_of_spells {τ : Settings} {text : String} {item : Selector.Item}
    {items : List Selector.Item} {s : Selector} {p : Position}
    (h : Selector.Spells text.toList [' ', '{', '}'] (item :: items))
    (htest : item.isTest = false)
    (hs : Selector.build τ.mercator (Selector.joined [] (item :: items)) p = .ok s) :
    rulesets τ (text ++ " \x7b\x7d") = .ok [⟨[s], []⟩] := by
  obtain ⟨ts, q, hscan, hitems⟩ := h .start
  obtain ⟨us, q', hus, space, brace, close, rfl, hspace, hbrace, hclose⟩ :=
    Token.scans_emptyBlock q
  have htokens : Token.scan (text ++ " \x7b\x7d") = ts ++ [space] ++ [brace, close] := by
    rw [Token.scan, String.toList_append]
    refine hscan.trans ?_
    rw [List.append_assoc]
    exact congrArg (ts ++ ·) (hus.trans (by simp [Token.scanFrom]))
  have hblank : Selector.IsItems [space] [] := .nil (by simpa [Blank] using hspace)
  have hrun := hitems.append hblank
  rw [List.append_nil] at hrun
  rw [rulesets, htokens]
  exact (Sheet.isSheet_of_isItems hrun htest hs hbrace hclose).accepted

/-- Printing a selector and reading it back is the identity. Every selector of a stylesheet whose
names and values need no escapes, printed before an empty block, is read under any settings as one
ruleset of that selector alone; only a zero may have lost its sign. -/
theorem selector_round_trip {σ : Settings} {source : String} {rs : List Ruleset}
    (h : rulesets σ source = .ok rs) {r : Ruleset} (hr : r ∈ rs) {s : Selector}
    (hs : s ∈ r.selectors) (hp : s.isPrintable = true) (τ : Settings) :
    ∃ s', rulesets τ (s.text ++ " \x7b\x7d") = .ok [⟨[s'], []⟩] ∧ s'.Same s := by
  have hwell := ((Sheet.isSheet_of_accepted h).wellFormed r hr).selectors s hs
  have hlined := lined_of_rulesets h hr hs
  have hspells := Selector.spells_selector hp hlined ⟨' ', ['{', '}'], rfl, by decide⟩
  have hbuild := Selector.build_readBack hwell hlined τ.mercator .start
  obtain ⟨n, ns, hnames, -⟩ := hwell.rooted
  -- the first item is the name that the selector starts with
  obtain ⟨items, hitems⟩ : ∃ items,
      s.readBack.elements.flatMap Selector.Element.items = n.item :: items := by
    simp [Selector.readBack, Selector.elements, Selector.Element.readBack, Selector.Element.items,
      hnames]
  rw [hitems] at hspells hbuild
  have htest : n.item.isTest = false := by cases n <;> rfl
  exact ⟨s.readBack, rulesets_of_spells hspells htest hbuild, Selector.same_readBack hp⟩

/-- A selector whose parts are printed with nothing between them, read under the other
projection. -/
theorem selector_round_trip_star :
    ∃ rs r s, rulesets (.standard true)
        "*#1.a-b[x<-5][zoom=11][y!='q r'][z=-0] Line* \x7b\x7d" = .ok rs ∧
      r ∈ rs ∧ s ∈ r.selectors ∧ s.isPrintable = true ∧
      s.text = "*#1.a-b[x<-5][scale-denominator>=200000][y!=\"q r\"][z=0]" ++
        "[scale-denominator<400000] Line*" ∧
      ∃ s', rulesets (.standard false) (s.text ++ " \x7b\x7d") = .ok [⟨[s'], []⟩] ∧
        s'.Same s := by
  have hread : (rulesets (.standard true)
      "*#1.a-b[x<-5][zoom=11][y!='q r'][z=-0] Line* \x7b\x7d").map
        (·.map (·.selectors.map fun s => (s.text, s.isPrintable))) =
      .ok [[("*#1.a-b[x<-5][scale-denominator>=200000][y!=\"q r\"][z=0]" ++
        "[scale-denominator<400000] Line*", true)]] := by decide +kernel
  cases h : rulesets (.standard true)
      "*#1.a-b[x<-5][zoom=11][y!='q r'][z=-0] Line* \x7b\x7d" with
  | error f =>
    rw [h] at hread
    cases hread
  | ok rs =>
    rw [h] at hread
    obtain ⟨r, rfl, hr⟩ := List.map_eq_singleton_iff.mp (Except.ok.inj hread)
    obtain ⟨s, hs, htext⟩ := List.map_eq_singleton_iff.mp hr
    obtain ⟨htext, hp⟩ := Prod.mk.inj htext
    have hmem : s ∈ r.selectors := by simp [hs]
    exact ⟨[r], r, s, rfl, by simp, hmem, hp, htext,
      selector_round_trip h (by simp) hmem hp (.standard false)⟩

end Stylesheet

end Cartosheet
