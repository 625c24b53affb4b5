import Cartosheet.Declaration.Reader
import Cartosheet.Proofs.Cursor
import Cartosheet.Proofs.ValueForm

namespace Cartosheet

namespace Value

/-- The form `n₀ , n₁ , … , nₖ`: a first token, and then pairs of a comma and a further one. The
tokens between the commas are numbers and read as the numerals, one for one. -/
def Lists (ts : List Token) (ns : List Numeral) : Prop :=
  ∃ (first : Token) (later : List (Token × Token)),
    ts = first :: later.flatMap (fun p => [p.1, p.2]) ∧
    (∀ p ∈ later, p.1.isChar ',' = true) ∧
    (∀ t ∈ first :: later.map Prod.snd, t.kind = .number) ∧
    (first :: later.map Prod.snd).map (fun t => Numeral.ofText? t.text) = ns.map some

variable {t comma : Token} {ts : List Token} {n : Numeral} {ns : List Numeral}

theorem not_lists_nil : ¬Lists [] ns := by
  rintro ⟨first, later, hts, -⟩
  cases hts

theorem lists_singleton_iff :
    Lists [t] ns ↔ t.kind = .number ∧ ∃ n, Numeral.ofText? t.text = some n ∧ ns = [n] := by
  constructor
  · rintro ⟨first, later, hts, -, hkind, hread⟩
    cases later with
    | cons p later => cases hts
    | nil =>
      cases hts
      cases ns with
      | nil => cases hread
      | cons n ns =>
        simp only [List.map_nil, List.map_cons, List.cons.injEq] at hread
        obtain ⟨hn, hns⟩ := hread
        exact ⟨hkind t (by simp), n, hn, by simpa using hns⟩
  · rintro ⟨hkind, n, hn, rfl⟩
    exact ⟨t, [], rfl, by simp, by simpa using hkind, by simp [hn]⟩

theorem lists_cons_cons_iff :
    Lists (t :: comma :: ts) ns ↔ t.kind = .number ∧ comma.isChar ',' = true ∧
      ∃ n ms, Numeral.ofText? t.text = some n ∧ Lists ts ms ∧ ns = n :: ms := by
  constructor
  · rintro ⟨first, later, hts, hcommas, hkind, hread⟩
    cases later with
    | nil => cases hts
    | cons p later =>
      cases hts
      cases ns with
      | nil => cases hread
      | cons n ms =>
        simp only [List.map_cons, List.cons.injEq] at hread
        refine ⟨hkind t (by simp), hcommas p (by simp), n, ms, hread.1, ?_, rfl⟩
        refine ⟨p.2, later, rfl, fun q hq => hcommas q (by simp [hq]), ?_, ?_⟩
        · intro u hu
          exact hkind u (List.mem_cons_of_mem _ hu)
        · simpa using hread.2
  · rintro ⟨hkind, hcomma, n, ms, hn, ⟨first, later, rfl, hcommas, hkinds, hread⟩, rfl⟩
    refine ⟨t, (comma, first) :: later, rfl, ?_, ?_, ?_⟩
    · intro p hp
      rcases List.mem_cons.mp hp with rfl | hp
      · exact hcomma
      · exact hcommas p hp
    · intro u hu
      rcases List.mem_cons.mp hu with rfl | hu
      · exact hkind
      · exact hkinds u hu
    · rw [List.map_cons, List.map_cons, hn, List.map_cons]
      exact congrArg (some n :: ·) hread

/-- Among numbers and commas, a list is told by the kinds that alternate. -/
theorem alternating?_eq_some_iff (h : ∀ t ∈ ts, t.kind = .number ∨ t.isChar ',' = true) :
    alternating? ts = some ns ↔ Lists ts ns := by
  fun_induction alternating? ts generalizing ns with
  | case1 => simp [not_lists_nil]
  | case2 t hkind =>
    rw [lists_singleton_iff, Option.map_eq_some_iff]
    simp [hkind, eq_comm]
  | case3 t hkind => simp [lists_singleton_iff, hkind]
  | case4 t comma ts hkinds n ms hms hn ih =>
    rw [Bool.and_eq_true, decide_eq_true_eq, decide_eq_true_eq] at hkinds
    have htail : ∀ u ∈ ts, u.kind = .number ∨ u.isChar ',' = true := by
      intro u hu
      exact h u (by simp [hu])
    rw [lists_cons_cons_iff]
    constructor
    · intro hns
      -- a token of the list that is no number is a comma
      have hcomma : comma.isChar ',' = true := by
        rcases h comma (by simp) with hnumber | hcomma
        · rw [hnumber] at hkinds
          cases hkinds.2
        · exact hcomma
      exact ⟨hkinds.1, hcomma, n, ms, hn, (ih htail).mp hms, (Option.some.inj hns).symm⟩
    · rintro ⟨-, -, m, ls, hm, hls, rfl⟩
      rw [Option.some.inj (hn.symm.trans hm), Option.some.inj (hms.symm.trans ((ih htail).mpr hls))]
  | case5 t comma ts hkinds hnone ih =>
    rw [lists_cons_cons_iff]
    constructor
    · intro hns
      cases hns
    · rintro ⟨-, -, n, ms, hn, hms, rfl⟩
      exact (hnone n ms hn ((ih fun u hu => h u (by simp [hu])).mpr hms)).elim
  | case6 t comma ts hkinds =>
    rw [lists_cons_cons_iff]
    constructor
    · intro hns
      cases hns
    · rintro ⟨hnumber, hcomma, -⟩
      exact (hkinds (by simp [hnumber, Token.kind_of_isChar hcomma])).elim

/-- Every number after the first is printed with one comma before it. -/
theorem toList_text_numbers (n : Numeral) (ns : List Numeral) :
    (numbers (n :: ns)).text.toList =
      n.text.toList ++ ns.flatMap fun m => ',' :: m.text.toList := by
  induction ns generalizing n with
  | nil => simp [text]
  | cons m ns ih =>
    have hcons : (numbers (n :: m :: ns)).text = n.text ++ "," ++ (numbers (m :: ns)).text :=
      String.intercalate_cons_cons
    rw [hcons, String.toList_append, String.toList_append, ih, List.flatMap_cons]
    simp

end Value

/-- Tokens other than numbers and commas count for nothing in the value of a number list. The others
are a list, whose numbers in order are then the value, or are refused at the name of the property;
and the numbers are printed with single commas between them. -/
theorem Entry.numberList_exact (p : Property) (hp : p.grammar = .numberList) (name : Token)
    (value : List Token) (important : Bool) :
    let counted := value.filter fun t => t.kind = .number || t.isChar ','
    (∀ e, build p name value important = .ok e ↔
      ∃ ns, Value.Lists counted ns ∧ e = ⟨p, .numbers ns, important, name.position⟩) ∧
    ((¬∃ ns, Value.Lists counted ns) →
      build p name value important = .error (.invalidValue p.name .notNumberList name.position)) ∧
    ∀ n ns, (Value.numbers (n :: ns)).text.toList =
      n.text.toList ++ ns.flatMap fun m => ',' :: m.text.toList := by
  intro counted
  have hlists (ns : List Numeral) :
      Value.alternating? (Value.listTokens value) = some ns ↔ Value.Lists counted ns := by
    apply Value.alternating?_eq_some_iff
    intro t ht
    simpa using (List.mem_filter.mp ht).2
  cases hread : Value.alternating? (Value.listTokens value) with
  | some ms =>
    have hbuild : build p name value important = .ok ⟨p, .numbers ms, important, name.position⟩ := by
      simp [build, hp, Grammar.read, hread]
    have hms := (hlists ms).mp hread
    refine ⟨?_, fun hnone => (hnone ⟨ms, hms⟩).elim, Value.toList_text_numbers⟩
    intro e
    rw [hbuild, Except.ok.injEq]
    constructor
    · rintro rfl
      exact ⟨ms, hms, rfl⟩
    · rintro ⟨ns, hns, rfl⟩
      rw [Option.some.inj (hread.symm.trans ((hlists ns).mpr hns))]
  | none =>
    have hbuild : build p name value important =
        .error (.invalidValue p.name .notNumberList name.position) := by
      simp [build, hp, Grammar.read, hread]
    refine ⟨?_, fun _ => hbuild, Value.toList_text_numbers⟩
    intro e
    rw [hbuild]
    constructor
    · intro he
      cases he
    · rintro ⟨ns, hns, -⟩
      rw [(hlists ns).mpr hns] at hread
      cases hread

/-- A list with a unit in it that is passed over, and one with two commas in a row. -/
theorem Entry.numberList_exact_dashes :
    let p : Property := ⟨"line-dasharray", .numberList⟩
    let name : Token := ⟨.identifier, "line-dasharray", ⟨4, 2⟩⟩
    let number (text : String) : Token := ⟨.number, text, ⟨4, 18⟩⟩
    let comma : Token := ⟨.character, ",", ⟨4, 19⟩⟩
    let unit : Token := ⟨.other, "2px", ⟨4, 20⟩⟩
    p.grammar = .numberList ∧
      build p name [number "+04", unit, comma, number "-3"] true =
        .ok ⟨p, .numbers [.integer 4, .integer (-3)], true, ⟨4, 2⟩⟩ ∧
      (Value.numbers [.integer 4, .integer (-3)]).text = "4,-3" ∧
      build p name [number "4", comma, comma, number "3"] true =
        .error (.invalidValue "line-dasharray" .notNumberList ⟨4, 2⟩) := by
  intro p name number comma unit
  obtain ⟨hlisted, -, htext⟩ :=
    numberList_exact p rfl name [number "+04", unit, comma, number "-3"] true
  obtain ⟨-, hrefused, -⟩ := numberList_exact p rfl name [number "4", comma, comma, number "3"] true
  have hnumbers : Value.Lists [number "+04", comma, number "-3"] [.integer 4, .integer (-3)] := by
    refine Value.lists_cons_cons_iff.mpr ⟨rfl, by decide, _, _, by decide, ?_, rfl⟩
    exact Value.lists_singleton_iff.mpr ⟨rfl, _, by decide, rfl⟩
  refine ⟨rfl, (hlisted _).mpr ⟨_, hnumbers, rfl⟩, ?_, hrefused ?_⟩
  · rw [← String.toList_inj, htext]
    decide
  · rintro ⟨ns, hns⟩
    obtain ⟨-, -, n, ms, -, hms, -⟩ := Value.lists_cons_cons_iff.mp hns
    cases (Value.lists_cons_cons_iff.mp hms).1

end Cartosheet
