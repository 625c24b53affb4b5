import Cartosheet.Proofs.SelectorItems
import Cartosheet.Proofs.WellFormed

namespace Cartosheet

/-- A hash has its sign. -/
def Token.Signed (t : Token) : Prop := t.kind = .hash → ∃ cs, t.text.toList = '#' :: cs

namespace Lexeme

/-- A lexeme is a hash only by its sign. -/
theorem text_of_hash {c : Char} {cs : List Char} (h : (first c cs).kind = .hash) :
    (first c cs).isCall = false ∧ ∃ ds, (first c cs).text = '#' :: ds := by
  revert h
  unfold first
  split
  · rintro ⟨⟩
  split
  · rintro ⟨⟩
  split
  · intro h
    rcases kind_ofString c cs with hk | hk <;> rw [hk] at h <;> cases h
  split
  · unfold ofHash
    split
    · exact fun _ => ⟨rfl, _, rfl⟩
    · rintro ⟨⟩
  split
  · intro h
    rcases kind_ofAt cs with hk | hk <;> rw [hk] at h <;> cases h
  split
  · intro h
    rcases kind_ofNumber (c :: cs) with hk | hk <;> rw [hk] at h <;> cases h
  split
  · rintro ⟨⟩
  split
  · intro h
    rcases kind_ofName (c :: cs) with hk | hk | hk <;> rw [hk] at h <;> cases h
  · rintro ⟨⟩

theorem signed_firstWhole (c : Char) (cs : List Char) (p : Position) :
    (Token.mk (firstWhole c cs).kind (String.ofList (firstWhole c cs).text) p).Signed := by
  unfold firstWhole
  dsimp only
  split
  · rename_i hcall
    intro hk
    rw [(text_of_hash hk).1] at hcall
    cases hcall
  · intro hk
    obtain ⟨-, ds, htext⟩ := text_of_hash hk
    exact ⟨ds, by rw [String.toList_ofList, htext]⟩

end Lexeme

namespace Token

theorem signed_scanFrom (p : Position) (cs : List Char) : ∀ t ∈ scanFrom p cs, t.Signed :=
  forall_scanFrom Lexeme.signed_firstWhole p cs

end Token

namespace Selector

/-- A tag is the first name of its element, and every element after the first has one. -/
structure Lined (elements : List Element) : Prop where
  lead : ∀ e ∈ elements, ∀ n ∈ e.names.tail, n.isTag = false
  headed : ∀ e ∈ elements.tail, ∃ tag ns, e.names = .tag tag :: ns

theorem Lined.append {elements : List Element} (h : Lined elements) (tag : String) :
    Lined (elements ++ [{ names := [.tag tag] }]) := by
  constructor
  · intro e he
    rcases List.mem_append.mp he with he | he
    · exact h.lead e he
    · rw [List.mem_singleton.mp he]
      simp
  · intro e he
    cases elements with
    | nil => simp at he
    | cons d ds =>
      rcases List.mem_append.mp he with he | he
      · exact h.headed e he
      · rw [List.mem_singleton.mp he]
        exact ⟨tag, [], rfl⟩

/-- Names that are no tags may join the last element. -/
theorem Lined.joinLast {elements : List Element} {change : Element → Element}
    (h : Lined elements)
    (hchange : ∀ e, ∃ ns, (change e).names = e.names ++ ns ∧ ∀ n ∈ ns, n.isTag = false) :
    Lined (joinLast change elements) := by
  rcases List.eq_nil_or_concat elements with rfl | ⟨es, e, rfl⟩
  · obtain ⟨ns, hns, htags⟩ := hchange {}
    constructor
    · intro e he
      rw [List.mem_singleton.mp he, hns]
      exact fun n hn => htags n (List.mem_of_mem_tail hn)
    · simp [Selector.joinLast]
  · rw [List.concat_eq_append] at h ⊢
    rw [joinLast_concat]
    obtain ⟨ns, hns, htags⟩ := hchange e
    constructor
    · intro d hd
      rcases List.mem_append.mp hd with hd | hd
      · exact h.lead d (by simp [hd])
      · rw [List.mem_singleton.mp hd, hns]
        intro n hn
        cases hnames : e.names with
        | nil =>
          rw [hnames] at hn
          exact htags n (List.mem_of_mem_tail hn)
        | cons m ms =>
          rw [hnames] at hn
          rcases List.mem_append.mp hn with hn | hn
          · exact h.lead e (by simp) n (by simpa [hnames] using hn)
          · exact htags n hn
    · intro d hd
      cases es with
      | nil => simp at hd
      | cons d' ds =>
        rcases List.mem_append.mp hd with hd | hd
        · exact h.headed d (by simp [hd])
        · obtain ⟨tag, ns', hnames⟩ := h.headed e (by simp)
          rw [List.mem_singleton.mp hd, hns, hnames]
          exact ⟨tag, ns' ++ ns, rfl⟩

theorem isTag_className {n : Name} {c d : Cursor} (h : className c = .ok n d) :
    n.isTag = false := by
  obtain ⟨found, e, -, h⟩ := Reader.bind_eq_ok.mp h
  cases found with
  | none => cases h
  | some t =>
    dsimp only at h
    split at h
    · cases h
      rfl
    · cases h

theorem lined_readItem {elements elements' : List Element} {t : Token} {c d : Cursor}
    (h : Lined elements) (ht : t.Signed) (hr : readItem elements t c = .ok elements' d) :
    Lined elements' := by
  have hname {n : Name} (hn : n.isTag = false) :
      Lined (Selector.joinLast (·.addName n) elements) :=
    h.joinLast fun e => ⟨[n], rfl, by simpa using hn⟩
  unfold readItem at hr
  split at hr
  · cases hr
    exact h.append t.text
  split at hr
  · rename_i hk
    cases hr
    obtain ⟨cs, htext⟩ := ht hk
    exact hname (by simp [Name.ofText, htext, Name.isTag])
  split at hr
  · cases hr
    exact hname rfl
  split at hr
  · obtain ⟨n, e, hn, hr⟩ := Reader.bind_eq_ok.mp hr
    cases hr
    exact hname (isTag_className hn)
  split at hr
  · split at hr
    · cases hr
    · obtain ⟨test, e, -, hr⟩ := Reader.bind_eq_ok.mp hr
      cases hr
      exact h.joinLast fun e => ⟨[], by simp [Element.addTest], by simp⟩
  · cases hr

theorem lined_readItems {elements : List Element} {start : Option Position} {c d : Cursor} {r : Run}
    (h : Lined elements) (hc : ∀ t ∈ c.pending, t.Signed)
    (hr : readItems elements start c = .ok r d) : Lined r.elements := by
  fun_induction readItems elements start c with
  | case1 => cases hr; exact h
  | case2 => cases hr; exact h
  | case3 => cases hr
  | case4 elements start c t d hn _ elements' e hi ih =>
    have hs := Reader.inherited_advances.readItem elements t d
    rw [hi] at hs
    have hp := Cursor.suffix_nextPast Token.isTransparent c
    change c.nextSignificant.2.pending <:+ c.pending at hp
    rw [hn] at hp
    have ht := hc t (Cursor.mem_of_nextPast hn)
    exact ih (lined_readItem h ht hi) (fun u hu => hc u ((hs.trans hp).subset hu)) hr

/-- Expanding shorthand leaves the names as they are. -/
theorem lined_of_build {mercator : Bool} {elements : List Element} {p : Position} {s : Selector}
    (hl : Lined elements) (h : build mercator elements p = .ok s) : Lined s.elements := by
  unfold build at h
  split at h
  · cases h
  rename_i s₀ hs
  split at h
  · rename_i s' hz
    cases h
    obtain ⟨hel, -⟩ := ofElements_eq_ok hs
    rw [← hel] at hl
    simp only [convertZoom, Prod.mk.injEq] at hz
    obtain ⟨rfl, -⟩ := hz
    constructor
    · intro e he
      rcases List.mem_cons.mp he with rfl | he
      · exact hl.lead s₀.first (by simp [Selector.elements])
      · exact hl.lead e (List.mem_cons_of_mem _ he)
    · exact hl.headed
  · cases h

theorem lined_of_ofTokens {mercator : Bool} {ts : List Token} {stop : Position} {s : Selector}
    (ht : ∀ t ∈ ts, t.Signed) (h : ofTokens mercator ts stop = .ok s) : Lined s.elements := by
  obtain ⟨r, d, hr, hterm⟩ := items_of_ofTokens h
  have hpending : ∀ t ∈ Cursor.pending { rest := ts }, t.Signed := ht
  have hl := lined_readItems ⟨by simp, by simp⟩ hpending hr
  exact lined_of_build hl ((ofTokens_of_items mercator hr hterm stop stop s).mp h)

end Selector

namespace Sheet

variable {mercator : Bool}

/-- A selector read from some of the tokens. -/
def ReadIn (mercator : Bool) (ts : List Token) (s : Selector) : Prop :=
  ∃ run stop, run ⊆ ts ∧ Selector.ofTokens mercator run stop = .ok s

theorem ReadIn.mono {ts us : List Token} {s : Selector} (h : ReadIn mercator ts s) (hts : ts ⊆ us) :
    ReadIn mercator us s := by
  obtain ⟨run, stop, hrun, hs⟩ := h
  exact ⟨run, stop, fun _ ht => hts (hrun ht), hs⟩

theorem IsRun.readIn {run : List Token} {stop : Token} {s : Selector}
    (h : IsRun mercator run stop s) : ReadIn mercator run s :=
  ⟨_, _, List.filter_sublist.subset, h.2⟩

theorem IsRuns.readIn {ts : List Token} {ss : List Selector} (h : IsRuns mercator ts ss) :
    ∀ s ∈ ss, ReadIn mercator ts s := by
  induction h with
  | nil => simp
  | cons hr _ _ ih =>
    intro s hs
    rcases List.mem_cons.mp hs with rfl | hs
    · exact hr.readIn.mono (by simp)
    · exact (ih s hs).mono (by simp)

theorem IsRule.readIn {σ : Settings} {ts : List Token} {r : Ruleset} (h : IsRule σ ts r) :
    ∀ s ∈ r.selectors, ReadIn σ.mercator ts s := by
  obtain ⟨-, hgroup, -, -⟩ := h
  obtain ⟨hruns, hrun, -⟩ := hgroup
  intro s hs
  rcases List.mem_append.mp hs with hs | hs
  · exact (hruns.readIn s hs).mono (by simp)
  · rw [List.mem_singleton.mp hs]
    exact hrun.readIn.mono (by simp)

/-- Every selector of a sheet is read from tokens of the sheet. -/
theorem IsSheet.readIn {σ : Settings} {ts : List Token} {rs : List Ruleset} (h : IsSheet σ ts rs) :
    ∀ r ∈ rs, ∀ s ∈ r.selectors, ReadIn σ.mercator ts s := by
  induction h with
  | nil => simp
  | skip _ _ ih => exact fun r hr s hs => (ih r hr s hs).mono (by simp)
  | rule hrule _ ih =>
    intro r hr s hs
    rcases List.mem_cons.mp hr with rfl | hr
    · exact (hrule.readIn s hs).mono (by simp)
    · exact (ih r hr s hs).mono (by simp)

end Sheet

/-- So it is with every selector of a stylesheet. -/
theorem Stylesheet.lined_of_rulesets {σ : Settings} {source : String} {rs : List Ruleset}
    (h : rulesets σ source = .ok rs) {r : Ruleset} (hr : r ∈ rs) {s : Selector}
    (hs : s ∈ r.selectors) : Selector.Lined s.elements := by
  obtain ⟨run, stop, hrun, hread⟩ := (Sheet.isSheet_of_accepted h).readIn r hr s hs
  refine Selector.lined_of_ofTokens ?_ hread
  exact fun t ht => Token.signed_scanFrom .start source.toList t (hrun ht)

end Cartosheet
