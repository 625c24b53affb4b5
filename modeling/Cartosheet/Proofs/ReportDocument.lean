import Cartosheet.Proofs.JsonDecoding
import Cartosheet.Report

namespace Cartosheet

namespace Document

open Json (Gap Character Contents IsCode IsWhole Spells gap_nil)

/-- What holds of documents with parts can be proved from the parts. -/
@[elab_as_elim]
theorem inductionOn {P : Document → Prop} (d : Document) (boolean : ∀ b, P (.boolean b))
    (number : ∀ n, P (.number n)) (string : ∀ s, P (.string s))
    (array : ∀ xs, (∀ x ∈ xs, P x) → P (.array xs))
    (object : ∀ ms, (∀ m ∈ ms, P m.2) → P (.object ms)) : P d :=
  @Document.rec P (fun xs => ∀ x ∈ xs, P x) (fun ms => ∀ m ∈ ms, P m.2) (fun m => P m.2)
    boolean number string array object
    (by simp) (fun _ _ hx hxs => List.forall_mem_cons.mpr ⟨hx, hxs⟩)
    (by simp) (fun _ _ hm hms => List.forall_mem_cons.mpr ⟨hm, hms⟩) (fun _ _ h => h) d

mutual

/-- The value that a document stands for. -/
@[simp]
def value : Document → Json
  | boolean b => .boolean b
  | number n => .number n
  | string s => .string s
  | array items => .array (values items)
  | object members => .object (fields members)

@[simp]
def values : List Document → List Json
  | [] => []
  | x :: xs => value x :: values xs

@[simp]
def fields : List (String × Document) → List (String × Json)
  | [] => []
  | (key, x) :: ms => (key, value x) :: fields ms

end

theorem values_eq_map (xs : List Document) : values xs = xs.map value := by
  induction xs with
  | nil => rfl
  | cons x xs ih => rw [values, ih, List.map_cons]

theorem isCode_control {n : Nat} (h : n < 0x20) :
    IsCode ['0', '0', Hex.digit (n / 16), Hex.digit (n % 16)] n := by
  have hhigh : Hex.value? (Hex.digit (n / 16)) = some (n / 16) := Hex.value?_digit (by omega)
  have hlow : Hex.value? (Hex.digit (n % 16)) = some (n % 16) := Hex.value?_digit (by omega)
  have hzero : Hex.value? '0' = some 0 := rfl
  refine ⟨rfl, ?_, ?_⟩
  · simp only [List.forall_mem_cons, ← Hex.exists_value?_iff]
    exact ⟨⟨_, hzero⟩, ⟨_, hzero⟩, ⟨_, hhigh⟩, ⟨_, hlow⟩, by simp⟩
  · simp only [Hex.number, List.foldl_cons, List.foldl_nil, hzero, hhigh, hlow, Option.getD_some]
    omega

theorem character_escaped (c : Char) : Character (escaped c) c := by
  unfold escaped
  iterate 7
    split
    · subst c
      exact .short (by simp [Json.shortEscapes])
  split
  · rename_i hcontrol
    exact .code (isCode_control hcontrol)
  · exact .plain (by omega) ‹_› ‹_›

theorem contents_escaped (cs : List Char) : Contents (cs.flatMap escaped) cs := by
  induction cs with
  | nil => exact .nil
  | cons c cs ih => exact .cons (character_escaped c) ih

/-- No zero stands in front of the digits of a number. -/
theorem isWhole_toDigits (n : Nat) : IsWhole (Nat.toDigits 10 n) := by
  by_cases hzero : n = 0
  · subst n
    exact .inl (Nat.toDigits_zero 10)
  · refine .inr ⟨Nat.toDigits_ne_nil, ?_, isDigit_toDigits n⟩
    induction n using Nat.strongRecOn with
    | ind n ih =>
      by_cases hsmall : n < 10
      · -- One digit that is a zero would spell zero.
        intro hhead
        have hnumber := Decimal.number_toDigits n
        rw [Nat.toDigits_of_lt_base hsmall] at hhead hnumber
        rw [Option.some.inj hhead] at hnumber
        exact hzero hnumber.symm
      · rw [Nat.toDigits_of_base_le (by omega) (by omega),
          List.head?_append_of_ne_nil _ Nat.toDigits_ne_nil]
        exact ih (n / 10) (by omega) (by omega)

theorem spells_number (n : Nat) : Spells (Nat.toDigits 10 n) (.value (.number n)) := by
  have h := Json.Number.mk (.inl rfl) (isWhole_toDigits n) .absent (by simp) .absent
  apply Spells.number
  simpa [Decimal.number_toDigits, Decimal.signedValue, Decimal.value] using h

theorem gap_newLine (level : Nat) : Gap (newLine level) := by
  intro c hc
  rcases List.mem_cons.mp hc with rfl | hc
  · rfl
  · rw [List.eq_of_mem_replicate hc]
    rfl

/-- The line break behind the last item belongs to it. -/
theorem spells_items {x : Document} {xs : List Document} {inner : Nat} (outer : Nat)
    (h : ∀ y ∈ x :: xs, Spells (y.layout inner) (.value y.value)) :
    Spells (newLine inner ++ (x.layout inner ++ (layoutItems inner xs ++ newLine outer)))
      (.items (values (x :: xs))) := by
  have hx := h x (by simp)
  induction xs generalizing x with
  | nil => exact .lastItem (.element (gap_newLine inner) hx (gap_newLine outer))
  | cons y ys ih =>
    have hys := ih (x := y) (fun z hz => h z (by simp [hz])) (h y (by simp))
    have hfirst := Spells.element (gap_newLine inner) hx gap_nil
    have htext := Spells.items hfirst hys
    simpa [layoutItems, values] using htext

/-- The same for members; the blank behind a colon belongs to the value. -/
theorem spells_members {key : String} {x : Document} {ms : List (String × Document)}
    {inner : Nat} (outer : Nat)
    (h : ∀ m ∈ (key, x) :: ms, Spells (m.2.layout inner) (.value m.2.value)) :
    Spells (newLine inner ++ (quoted key ++ ':' :: ' ' :: (x.layout inner ++
      (layoutMembers inner ms ++ newLine outer)))) (.members (fields ((key, x) :: ms))) := by
  have hx := h (key, x) (by simp)
  have hspace : Gap [' '] := by simp [Gap, Json.isBlank]
  have hkey := contents_escaped key.toList
  induction ms generalizing key x with
  | nil =>
    have hvalue := Spells.element hspace hx (gap_newLine outer)
    have hmember := Spells.member (gap_newLine inner) hkey gap_nil hvalue
    have htext := Spells.lastMember hmember
    simpa [layoutMembers, fields, quoted] using htext
  | cons m ms ih =>
    have hms := @ih m.1 m.2 (fun n hn => h n (by simp [hn])) (h m (by simp)) (contents_escaped _)
    have hvalue := Spells.element hspace hx gap_nil
    have hmember := Spells.member (gap_newLine inner) hkey gap_nil hvalue
    have htext := Spells.members hmember hms
    simpa [layoutMembers, fields, quoted] using htext

/-- A document at any level is laid out as a text of its value. -/
theorem spells_layout (d : Document) (level : Nat) : Spells (d.layout level) (.value d.value) := by
  induction d using inductionOn generalizing level with
  | boolean b =>
    cases b with
    | true => exact .yes
    | false => exact .no
  | number n => exact spells_number n
  | string s => exact .string (contents_escaped s.toList)
  | array xs ih =>
    cases xs with
    | nil => exact .noItems gap_nil
    | cons x xs =>
      have htext := Spells.array (spells_items level fun y hy => ih y hy (level + 1))
      simpa [layout, value] using htext
  | object ms ih =>
    cases ms with
    | nil => exact .noMembers gap_nil
    | cons m ms =>
      have htext := Spells.object (spells_members level fun n hn => ih n hn (level + 1))
      simpa [layout, value] using htext

end Document

namespace Json

@[simp]
def keys : Json → List String
  | object members => members.map Prod.fst
  | _ => []

/-- The value under a key. -/
@[simp]
def field? (key : String) : Json → Option Json
  | object members => members.lookup key
  | _ => none

end Json

namespace Report

/-- A value that has the fields of a declaration's record, each under its key, and no others. -/
structure DeclarationRecord.ShownBy (r : DeclarationRecord) (v : Json) : Prop where
  keys : v.keys =
    ["selector", "property", "group", "value", "important", "specificity", "line", "column"]
  selector : v.field? "selector" = some (.string r.selector)
  property : v.field? "property" = some (.string r.property)
  family : v.field? "group" = some (.string r.family)
  value : v.field? "value" = some (.string r.value)
  important : v.field? "important" = some (.boolean r.important)
  specificity : v.field? "specificity" = some (.array
    [.number r.specificity.ids, .number r.specificity.names, .number r.specificity.tests])
  line : v.field? "line" = some (.number r.position.line)
  column : v.field? "column" = some (.number r.position.column)

structure EntryRecord.ShownBy (r : EntryRecord) (v : Json) : Prop where
  keys : v.keys = ["property", "value", "important", "line", "column"]
  property : v.field? "property" = some (.string r.property)
  value : v.field? "value" = some (.string r.value)
  important : v.field? "important" = some (.boolean r.important)
  line : v.field? "line" = some (.number r.position.line)
  column : v.field? "column" = some (.number r.position.column)

structure RulesetRecord.ShownBy (r : RulesetRecord) (v : Json) : Prop where
  keys : v.keys = ["selectors", "declarations"]
  selectors : v.field? "selectors" = some (.array (r.selectors.map .string))
  entries : ∃ items, v.field? "declarations" = some (.array items) ∧
    List.Forall₂ EntryRecord.ShownBy r.entries items

/-- An object with one key, and under it the records one by one. -/
def ShownBy : Report → Json → Prop
  | declarations records, v => ∃ items, v = .object [("declarations", .array items)] ∧
      List.Forall₂ DeclarationRecord.ShownBy records items
  | rulesets records, v => ∃ items, v = .object [("rulesets", .array items)] ∧
      List.Forall₂ RulesetRecord.ShownBy records items

theorem DeclarationRecord.shownBy_document (r : DeclarationRecord) :
    r.ShownBy r.document.value := by
  constructor <;> simp [document, List.lookup_cons]

theorem EntryRecord.shownBy_document (r : EntryRecord) : r.ShownBy r.document.value := by
  constructor <;> simp [document, List.lookup_cons]

/-- A list is shown if each of its members is. -/
theorem forall₂_values {α : Type} {R : α → Json → Prop} {f : α → Document}
    (h : ∀ x, R x (f x).value) (xs : List α) :
    List.Forall₂ R xs (Document.values (xs.map f)) := by
  rw [Document.values_eq_map, List.map_map, List.forall₂_map_right_iff, List.forall₂_same]
  exact fun x _ => h x

theorem RulesetRecord.shownBy_document (r : RulesetRecord) : r.ShownBy r.document.value where
  keys := by simp [document]
  selectors := by
    have hstrings : Document.value ∘ Document.string = Json.string := by
      funext s
      simp
    simp [document, Document.values_eq_map, hstrings]
  entries := by
    refine ⟨_, ?_, forall₂_values EntryRecord.shownBy_document r.entries⟩
    simp [document, List.lookup_cons]

theorem shownBy_document (r : Report) : r.ShownBy r.document.value := by
  cases r with
  | declarations records =>
    refine ⟨_, ?_, forall₂_values DeclarationRecord.shownBy_document records⟩
    simp [document]
  | rulesets records =>
    refine ⟨_, ?_, forall₂_values RulesetRecord.shownBy_document records⟩
    simp [document]

theorem DeclarationRecord.leftUnique_shownBy : Relator.LeftUnique DeclarationRecord.ShownBy := by
  intro r r' v h h'
  obtain ⟨_, _, _, _, _, ⟨_, _, _⟩, ⟨_, _⟩⟩ := r
  obtain ⟨_, _, _, _, _, ⟨_, _, _⟩, ⟨_, _⟩⟩ := r'
  cases h.selector.symm.trans h'.selector
  cases h.property.symm.trans h'.property
  cases h.family.symm.trans h'.family
  cases h.value.symm.trans h'.value
  cases h.important.symm.trans h'.important
  have hspecificity := h.specificity.symm.trans h'.specificity
  have hline := h.line.symm.trans h'.line
  have hcolumn := h.column.symm.trans h'.column
  simp only [Option.some.injEq, Json.array.injEq, List.cons.injEq, Json.number.injEq, Nat.cast_inj,
    and_true] at hspecificity hline hcolumn
  obtain ⟨rfl, rfl, rfl⟩ := hspecificity
  subst hline hcolumn
  rfl

theorem EntryRecord.leftUnique_shownBy : Relator.LeftUnique EntryRecord.ShownBy := by
  intro r r' v h h'
  obtain ⟨_, _, _, ⟨_, _⟩⟩ := r
  obtain ⟨_, _, _, ⟨_, _⟩⟩ := r'
  cases h.property.symm.trans h'.property
  cases h.value.symm.trans h'.value
  cases h.important.symm.trans h'.important
  have hline := h.line.symm.trans h'.line
  have hcolumn := h.column.symm.trans h'.column
  simp only [Option.some.injEq, Json.number.injEq, Nat.cast_inj] at hline hcolumn
  subst hline hcolumn
  rfl

theorem RulesetRecord.leftUnique_shownBy : Relator.LeftUnique RulesetRecord.ShownBy := by
  intro r r' v h h'
  obtain ⟨items, hitems, hentries⟩ := h.entries
  obtain ⟨items', hitems', hentries'⟩ := h'.entries
  cases hitems.symm.trans hitems'
  have hentry := EntryRecord.leftUnique_shownBy.forall₂ hentries hentries'
  have hselectors := h.selectors.symm.trans h'.selectors
  have hinjective : Function.Injective Json.string := fun _ _ => Json.string.inj
  rw [Option.some.injEq, Json.array.injEq, hinjective.list_map.eq_iff] at hselectors
  obtain ⟨_, _⟩ := r
  obtain ⟨_, _⟩ := r'
  cases hselectors
  cases hentry
  rfl

theorem leftUnique_shownBy : Relator.LeftUnique ShownBy := by
  intro r r' v h h'
  cases r with
  | declarations records =>
    cases r' with
    | declarations records' =>
      obtain ⟨items, rfl, hrecords⟩ := h
      obtain ⟨items', hitems, hrecords'⟩ := h'
      cases hitems
      rw [DeclarationRecord.leftUnique_shownBy.forall₂ hrecords hrecords']
    | rulesets records' =>
      obtain ⟨items, rfl, -⟩ := h
      obtain ⟨items', hitems, -⟩ := h'
      simp at hitems
  | rulesets records =>
    cases r' with
    | declarations records' =>
      obtain ⟨items, rfl, -⟩ := h
      obtain ⟨items', hitems, -⟩ := h'
      simp at hitems
    | rulesets records' =>
      obtain ⟨items, rfl, hrecords⟩ := h
      obtain ⟨items', hitems, hrecords'⟩ := h'
      cases hitems
      rw [RulesetRecord.leftUnique_shownBy.forall₂ hrecords hrecords']

/-- A report as JSON is one value and a line break. The text spells that value alone, which shows
every record of the report in its place, and it is the text of no other report. -/
theorem json_lossless (r : Report) :
    ∃ text v, r.render .json = text ++ "\n" ∧ Json.Spells text.toList (.value v) ∧
      (∀ w, Json.Spells (r.render .json).toList (.element w) ↔ w = v) ∧
      Json.decode (r.render .json) = some v ∧ r.ShownBy v ∧
      ∀ other : Report, other.render .json = r.render .json → other = r := by
  have hspells (s : Report) : Json.Spells (s.render .json).toList (.element s.document.value) := by
    have hvalue := s.document.spells_layout 0
    have hbreak : Json.Gap ['\n'] := Document.gap_newLine 0
    have htext := Json.Spells.element Json.gap_nil hvalue hbreak
    simpa [render, Document.text] using htext
  refine ⟨r.document.text, r.document.value, rfl, ?_, ?_, Json.decode_of_spells (hspells r),
    shownBy_document r, ?_⟩
  · rw [Document.text, String.toList_ofList]
    exact r.document.spells_layout 0
  · intro w
    constructor
    · exact fun h => h.unique (hspells r)
    · rintro rfl
      exact hspells r
  · intro other hother
    -- Both documents have the one value that the common text spells.
    have hsame := hspells other
    rw [hother] at hsame
    have hshown := shownBy_document other
    rw [hsame.unique (hspells r)] at hshown
    exact leftUnique_shownBy hshown (shownBy_document r)

/-- A quote, a backslash, a line break, another control and a character beyond ASCII, above an empty
list. -/
theorem json_lossless_escapes :
    let r := rulesets [⟨["\"\\\n\x01é"], []⟩]
    let text := "\x7b\n  \"rulesets\": [\n    \x7b\n      \"selectors\": [\n        " ++
      "\"\\\"\\\\\\n\\u0001é\"\n      ],\n      \"declarations\": []\n    \x7d\n  ]\n\x7d\n"
    r.render .json = text ∧ ∃ v, Json.decode text = some v ∧ r.ShownBy v := by
  intro r text
  have htext : r.render .json = text := by decide
  obtain ⟨-, v, -, -, -, hdecode, hshown, -⟩ := json_lossless r
  rw [htext] at hdecode
  exact ⟨htext, v, hdecode, hshown⟩

end Report

end Cartosheet
