import Cartosheet.Proofs.Acceptance
import Cartosheet.Proofs.Agreement
import Cartosheet.Proofs.ValueForm
import Cartosheet.Proofs.ZoomMeaning
import Cartosheet.Stylesheet

namespace Cartosheet

namespace Selector

/-- The names that a selector may start with: `Map`, `Layer`, an id, a class or `*`. -/
inductive Name.Roots : Name → Prop
  | map : Roots (.tag "Map")
  | layer : Roots (.tag "Layer")
  | universal : Roots .universal
  | id {name : String} : Roots (.id name)
  | className {name : String} : Roots (.className name)

/-- An element with neither ids nor classes nor tests. -/
def Element.IsBare (e : Element) : Prop :=
  e.tests = [] ∧ ∀ n ∈ e.names, (∀ name, n ≠ .id name) ∧ ∀ name, n ≠ .className name

structure WellFormed (s : Selector) : Prop where
  shape : s.elements.length = 1 ∨ s.elements.length = 2
  named : ∀ e ∈ s.elements, e.names ≠ []
  rooted : ∃ n ns, s.first.names = n :: ns ∧ n.Roots
  bare : ∀ e, s.descendant = some e → e.IsBare
  /-- No shorthand is left. -/
  expanded : ∀ e ∈ s.elements, ∀ t ∈ e.tests, t.property ≠ Zoom.property

theorem Name.roots_of_isRoot {n : Name} (h : n.isRoot = true) : n.Roots := by
  cases n with
  | tag name =>
    simp only [isRoot, Bool.or_eq_true, decide_eq_true_eq] at h
    rcases h with rfl | rfl
    · exact .map
    · exact .layer
  | universal => exact .universal
  | id name => exact .id
  | className name => exact .className

theorem Element.isBare_of_isQualified {e : Element} (h : e.isQualified = false) : e.IsBare := by
  simp only [isQualified, Bool.or_eq_false_iff, decide_eq_false_iff_not, Nat.not_lt,
    Nat.le_zero_eq] at h
  obtain ⟨⟨ht, hi⟩, hc⟩ := h
  refine ⟨List.length_eq_zero_iff.mp ht, ?_⟩
  intro n hn
  constructor
  · intro name he
    exact List.countP_eq_zero.mp hi n hn (by rw [he]; rfl)
  · intro name he
    exact List.countP_eq_zero.mp hc n hn (by rw [he]; rfl)

/-- Every element has a name. -/
def Named (elements : List Element) : Prop := ∀ e ∈ elements, e.names ≠ []

theorem Named.joinLast {elements : List Element} {change : Element → Element}
    (h : Named elements) (hnew : elements = [] → (change {}).names ≠ [])
    (hold : ∀ e, e.names ≠ [] → (change e).names ≠ []) :
    Named (joinLast change elements) := by
  induction elements with
  | nil =>
    intro e he
    rw [List.mem_singleton.mp he]
    exact hnew rfl
  | cons e es ih =>
    have hes : Named es := fun d hd => h d (by simp [hd])
    cases es with
    | nil =>
      intro d hd
      rw [List.mem_singleton.mp hd]
      exact hold e (h e (by simp))
    | cons d ds =>
      intro a ha
      rcases List.mem_cons.mp ha with rfl | ha
      · exact h a (by simp)
      · exact ih hes (by simp) a ha

/-- A name may start an element, a test only joins one. -/
theorem named_readItem {elements elements' : List Element} {t : Token} {c d : Cursor}
    (h : Named elements) (hr : readItem elements t c = .ok elements' d) : Named elements' := by
  have hname (n : Name) : Named (Selector.joinLast (·.addName n) elements) :=
    h.joinLast (by simp [Element.addName]) (by simp [Element.addName])
  unfold readItem at hr
  split at hr
  · cases hr
    intro e he
    rcases List.mem_append.mp he with he | he
    · exact h e he
    · rw [List.mem_singleton.mp he]
      simp
  split at hr
  · cases hr
    exact hname _
  split at hr
  · cases hr
    exact hname _
  split at hr
  · obtain ⟨n, e, -, hn⟩ := Reader.bind_eq_ok.mp hr
    cases hn
    exact hname n
  split at hr
  · split at hr
    · cases hr
    · rename_i hne
      obtain ⟨test, e, -, ht⟩ := Reader.bind_eq_ok.mp hr
      cases ht
      exact h.joinLast (fun he => absurd he (by simpa using hne)) fun e he => he
  · cases hr

theorem named_readItems {elements : List Element} {start : Option Position} {c d : Cursor} {r : Run}
    (h : Named elements) (hr : readItems elements start c = .ok r d) : Named r.elements := by
  fun_induction readItems elements start c with
  | case1 => cases hr; exact h
  | case2 => cases hr; exact h
  | case3 => cases hr
  | case4 elements start c t d hn _ elements' e hi ih => exact ih (named_readItem h hi) hr

theorem rooted_of_checkRoot {e : Element} (h : checkRoot e = .ok ()) :
    ∃ n ns, e.names = n :: ns ∧ n.Roots := by
  unfold checkRoot at h
  split at h
  · cases h
  · rename_i n ns hn
    split at h
    · rename_i hr
      exact ⟨n, ns, hn, Name.roots_of_isRoot hr⟩
    · cases h

/-- What the shape rules let through. -/
theorem ofElements_eq_ok {elements : List Element} {s : Selector}
    (h : ofElements elements = .ok s) :
    s.elements = elements ∧ (∃ n ns, s.first.names = n :: ns ∧ n.Roots) ∧
      ∀ e, s.descendant = some e → e.IsBare := by
  unfold ofElements at h
  split at h
  · cases h
  · rename_i e
    cases hc : checkRoot e with
    | error f => rw [hc] at h; cases h
    | ok u =>
      rw [hc] at h
      cases h
      exact ⟨rfl, rooted_of_checkRoot hc, by simp⟩
  · rename_i e d
    cases hc : checkRoot e with
    | error f => rw [hc] at h; cases h
    | ok u =>
      rw [hc] at h
      cases hq : d.isQualified with
      | true =>
        simp only [hq] at h
        cases h
      | false =>
        simp only [hq] at h
        cases h
        refine ⟨rfl, rooted_of_checkRoot hc, ?_⟩
        intro d' hd
        cases hd
        exact Element.isBare_of_isQualified hq
  · cases h

end Selector

namespace Zoom

/-- Tests on the scale take the place of the shorthand. -/
theorem expand_scaled {mercator : Bool} {t u : Test} {extra : List Test}
    (h : expand mercator t = .ok (u, extra)) :
    ∀ a ∈ u :: extra, a.property = Test.scaleDenominator := by
  unfold expand at h
  split at h
  · split at h
    · unfold replace at h
      split at h <;> cases h <;> simp [scaleTest]
    · cases h
  · cases h

/-- An expansion without fault leaves no shorthand. -/
theorem expandAll_expanded {mercator : Bool} {ts : List Test}
    (h : (expandAll mercator ts).fault = none) :
    ∀ a ∈ (expandAll mercator ts).inPlace ++ (expandAll mercator ts).appended,
      a.property ≠ property := by
  induction ts with
  | nil => simp [expandAll]
  | cons t ts ih =>
    cases hs : isShorthand t with
    | false =>
      rw [expandAll_other hs] at h ⊢
      intro a ha
      rcases List.mem_cons.mp ha with rfl | ha
      · exact of_decide_eq_false hs
      · exact ih h a ha
    | true =>
      cases he : expand mercator t with
      | error f =>
        rw [expandAll_error hs he] at h
        cases h
      | ok r =>
        obtain ⟨u, extra⟩ := r
        rw [expandAll_ok hs he] at h ⊢
        have hscaled : ∀ b ∈ u :: extra, b.property ≠ property := by
          intro b hb
          rw [expand_scaled he b hb]
          decide
        intro a ha
        simp only [List.cons_append, List.mem_cons, List.mem_append] at ha
        rcases ha with rfl | ha | ha | ha
        · exact hscaled a (by simp)
        · exact ih h a (by simp [ha])
        · exact hscaled a (by simp [ha])
        · exact ih h a (by simp [ha])

end Zoom

namespace Selector

/-- A selector is well formed once it is built of elements with names. -/
theorem wellFormed_of_build {mercator : Bool} {elements : List Element} {p : Position}
    {s : Selector} (hn : Named elements) (h : build mercator elements p = .ok s) :
    s.WellFormed := by
  unfold build at h
  split at h
  · cases h
  rename_i s₀ hs
  split at h
  · rename_i s' hz
    cases h
    obtain ⟨hel, hroot, hbare⟩ := ofElements_eq_ok hs
    simp only [convertZoom, Prod.mk.injEq] at hz
    obtain ⟨rfl, hf⟩ := hz
    have hnamed : Named s₀.elements := hel ▸ hn
    have hshape : s₀.descendant.toList.length ≤ 1 := by
      cases s₀.descendant <;> simp
    refine ⟨?_, ?_, hroot, hbare, ?_⟩
    · simp only [Selector.elements, List.length_cons]
      omega
    · intro e he
      rcases List.mem_cons.mp he with rfl | he
      · exact hnamed s₀.first (by simp [Selector.elements])
      · exact hnamed e (List.mem_cons_of_mem _ he)
    · intro e he
      rcases List.mem_cons.mp he with rfl | he
      · have hx := Zoom.expandAll_expanded hf
        rwa [← Zoom.Expansion.tests_of_fault hf] at hx
      · rw [(hbare e (by simpa using he)).1]
        simp
  · cases h

theorem wellFormed_of_read {mercator : Bool} {c d : Cursor} {s : Selector} {t : Option Token}
    (h : read mercator c = .ok (s, t) d) : s.WellFormed := by
  cases hr : readItems [] none c with
  | error f e => rw [read, hr] at h; cases h
  | ok r e =>
    have hn := named_readItems (by simp [Named]) hr
    rw [read_of_items hr] at h
    split at h
    · cases h
    · rename_i s' hb
      cases h
      exact wellFormed_of_build hn hb

theorem wellFormed_of_ofTokens {mercator : Bool} {ts : List Token} {stop : Position} {s : Selector}
    (h : ofTokens mercator ts stop = .ok s) : s.WellFormed := by
  unfold ofTokens at h
  split at h
  · cases h
  split at h
  · cases h
  · rename_i hr
    cases h
    exact wellFormed_of_read hr
  · cases h

end Selector

/-- The property is the one in the table, and the value is one that it takes. -/
structure Entry.WellFormed (σ : Settings) (e : Entry) : Prop where
  registered : σ.registry.find? e.property.name = some e.property
  supported : e.property.grammar ≠ .unsupported
  value : e.property.grammar.Gives e.value

structure Ruleset.WellFormed (σ : Settings) (r : Ruleset) : Prop where
  grouped : r.selectors ≠ []
  selectors : ∀ s ∈ r.selectors, s.WellFormed
  entries : ∀ e ∈ r.entries, e.WellFormed σ

/-- A declaration without its selector. -/
def Declaration.entry (d : Declaration) : Entry := ⟨d.property, d.value, d.important, d.position⟩

structure Declaration.WellFormed (σ : Settings) (d : Declaration) : Prop where
  selector : d.selector.WellFormed
  entry : d.entry.WellFormed σ

/-- The table finds a property under its own name. -/
theorem Registry.find?_name {registry : Registry} {name : String} {p : Property}
    (h : registry.find? name = some p) : registry.find? p.name = some p := by
  have hp : p.name = name := by simpa using List.find?_some h
  rw [hp]
  exact h

namespace Sheet

variable {σ : Settings}

theorem IsEntry.wellFormed {ts : List Token} {e : Entry} (h : IsEntry σ ts e) :
    e.WellFormed σ := by
  obtain ⟨-, -, -, -, hp, hv⟩ := h
  have hg := Grammar.gives_of_read hv
  exact ⟨Registry.find?_name hp, hg.supported, hg⟩

theorem IsBody.wellFormed {ts : List Token} {es : List Entry} (h : IsBody σ ts es) :
    ∀ e ∈ es, e.WellFormed σ := by
  induction h with
  | nil => simp
  | skip _ _ ih => exact ih
  | entry he _ ih =>
    intro d hd
    rcases List.mem_cons.mp hd with rfl | hd
    · exact he.wellFormed
    · exact ih d hd

theorem IsRuns.wellFormed {mercator : Bool} {ts : List Token} {ss : List Selector}
    (h : IsRuns mercator ts ss) : ∀ s ∈ ss, s.WellFormed := by
  induction h with
  | nil => simp
  | cons hr _ _ ih =>
    intro s hs
    rcases List.mem_cons.mp hs with rfl | hs
    · exact Selector.wellFormed_of_ofTokens hr.2
    · exact ih s hs

theorem IsGroup.wellFormed {mercator : Bool} {ts : List Token} {ss : List Selector}
    (h : IsGroup mercator ts ss) : ss ≠ [] ∧ ∀ s ∈ ss, s.WellFormed := by
  obtain ⟨hruns, hrun, -⟩ := h
  refine ⟨by simp, ?_⟩
  intro s hs
  rcases List.mem_append.mp hs with hs | hs
  · exact hruns.wellFormed s hs
  · rw [List.mem_singleton.mp hs]
    exact Selector.wellFormed_of_ofTokens hrun.2

theorem IsRule.wellFormed {ts : List Token} {r : Ruleset} (h : IsRule σ ts r) :
    r.WellFormed σ := by
  obtain ⟨-, hgroup, hbody, -⟩ := h
  obtain ⟨hne, hsel⟩ := hgroup.wellFormed
  exact ⟨hne, hsel, hbody.wellFormed⟩

/-- The rulesets of a sheet of the grammar. -/
theorem IsSheet.wellFormed {ts : List Token} {rs : List Ruleset} (h : IsSheet σ ts rs) :
    ∀ r ∈ rs, r.WellFormed σ := by
  induction h with
  | nil => simp
  | skip _ _ ih => exact ih
  | rule hr _ ih =>
    intro r hm
    rcases List.mem_cons.mp hm with rfl | hm
    · exact hr.wellFormed
    · exact ih r hm

end Sheet

/-- A declaration of the cascade is a selector and an entry of one ruleset. -/
theorem Cascade.mem_flatten {rs : List Ruleset} {d : Declaration} :
    d ∈ flatten rs ↔
      ∃ r ∈ rs, ∃ s ∈ r.selectors, ∃ e ∈ r.entries, Declaration.ofEntry s e = d := by
  simp [flatten, sort, Ruleset.declarations, Declaration.crossProduct]

/-- Whatever the tokens are, the rulesets and the declarations read from them are well formed. -/
theorem wellFormed_of_tokens (σ : Settings) (tokens : List Token) :
    (∀ rs, Ruleset.ofTokens σ tokens = .ok rs → ∀ r ∈ rs, r.WellFormed σ) ∧
      ∀ ds, Declaration.ofTokens σ tokens = .ok ds → ∀ d ∈ ds, d.WellFormed σ := by
  have hrules : ∀ rs, Ruleset.ofTokens σ tokens = .ok rs → ∀ r ∈ rs, r.WellFormed σ :=
    fun rs h => (Sheet.isSheet_of_accepted h).wellFormed
  refine ⟨hrules, ?_⟩
  intro ds hds d hd
  obtain ⟨rs, hrs, rfl⟩ := Declaration.flatten_of_ofTokens hds
  obtain ⟨r, hr, s, hs, e, he, rfl⟩ := Cascade.mem_flatten.mp hd
  have hw := hrules rs hrs r hr
  exact ⟨hw.selectors s hs, hw.entries e he⟩

/-- A sheet with shorthand, a descendant, a list of numbers and an important value. -/
theorem wellFormed_of_tokens_roads :
    let σ := Settings.standard true
    let tokens := Token.scan
      "Layer[zoom=11], #a Line \x7b line-dasharray: 1,2.5; line-width: 2 !important; \x7d"
    (∃ rs, Ruleset.ofTokens σ tokens = .ok rs ∧ rs.length = 1 ∧ ∀ r ∈ rs, r.WellFormed σ) ∧
      ∃ ds, Declaration.ofTokens σ tokens = .ok ds ∧ ∀ d ∈ ds, d.WellFormed σ := by
  intro σ tokens
  obtain ⟨hrules, hdecls⟩ := wellFormed_of_tokens σ tokens
  have hr : (Ruleset.ofTokens σ tokens).map List.length = .ok 1 := by decide +kernel
  have hd : (Declaration.ofTokens σ tokens).toBool = true := by decide +kernel
  constructor
  · cases h : Ruleset.ofTokens σ tokens with
    | error f => rw [h] at hr; cases hr
    | ok rs =>
      rw [h] at hr
      exact ⟨rs, rfl, Except.ok.inj hr, hrules rs h⟩
  · cases h : Declaration.ofTokens σ tokens with
    | error f => rw [h] at hd; cases hd
    | ok ds => exact ⟨ds, rfl, hdecls ds h⟩

end Cartosheet
