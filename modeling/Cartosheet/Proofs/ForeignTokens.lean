import Cartosheet.Proofs.LexemeText
import Cartosheet.Proofs.WrittenZoom

namespace Cartosheet

namespace Selector

open Reader (Takes)

variable {elements : List Element} {start : Option Position} {c d : Cursor}

/-- An item is made of tokens of the language alone. -/
theorem takes_known (elements : List Element) (t : Token) :
    Takes (fun _ us => ∀ u ∈ t :: us, u.kind ≠ .other) (readItem elements t) := by
  unfold readItem
  split
  · rename_i ht
    exact .pure (by simp [ht])
  split
  · rename_i ht
    exact .pure (by simp [ht])
  split
  · rename_i ht
    exact .pure (by simp [Token.kind_of_isChar ht])
  split
  · rename_i ht
    refine takes_className.bind fun n us hus => .pure ?_
    rw [List.append_nil]
    exact fun u hu => (hus.char ht (by decide) u hu).2
  split
  · rename_i ht
    split
    · exact .throw _
    · refine Reader.takes_attributeTest.bind fun test us hus => .pure ?_
      obtain ⟨name, vs, rfl, hk, -, hvs⟩ := hus
      rw [List.append_nil]
      intro u hu
      rcases List.mem_cons.mp hu with rfl | hu
      · simp [Token.kind_of_isChar ht]
      rcases List.mem_cons.mp hu with rfl | hu
      · simp [hk]
      · exact (hvs u hu).2
  · exact .throw _

theorem known_readItems {r : Run} (h : readItems elements start c = .ok r d)
    (hr : r.terminator = none) : ∀ t ∈ significant c.pending, t.kind ≠ .other := by
  fun_induction readItems elements start c with
  | case1 elements start c e hn =>
    rw [Cursor.significant_of_none hn]
    simp
  | case2 =>
    cases h
    cases hr
  | case3 => cases h
  | case4 elements start c t e hn _ elements' e' hi ih =>
    obtain ⟨us, hus, hitem⟩ := takes_known elements t e elements' e' hi
    rw [Cursor.significant_of_next hn, hus, ← List.cons_append]
    intro u hu
    rcases List.mem_append.mp hu with hu | hu
    · exact hitem u hu
    · exact ih h u hu

/-- A selector is read from tokens of the language alone. -/
theorem known_of_ofTokens {mercator : Bool} {ts : List Token} {stop : Position} {s : Selector}
    (h : ofTokens mercator ts stop = .ok s) : ∀ t ∈ ts, t.kind ≠ .other := by
  obtain ⟨r, d, hr, hterm⟩ := items_of_ofTokens h
  intro t ht hk
  refine known_readItems hr hterm t (List.mem_filter.mpr ⟨ht, ?_⟩) hk
  simp [Token.isTransparent, hk]

end Selector

/-- A value is read past a foreign token only if it is a list of numbers. -/
theorem Grammar.numberList_of_foreign {g : Grammar} {ts : List Token} {v : Value} {t : Token}
    (h : g.read ts = .ok v) (ht : t ∈ ts) (hk : t.kind = .other) : g = .numberList := by
  unfold read at h
  split at h
  · rfl
  · cases h
  · split at h
    · rw [← List.mem_singleton.mp ht] at h
      cases g <;> simp [readSingle, Token.isWord, hk] at h
    · cases h

namespace Sheet

instance (t : Token) : Decidable (InValue t) := inferInstanceAs (Decidable (_ ∧ _ ∧ _ ∧ _))

/-- A name and a colon, and then what can stand in a value: the start of a declaration whose
property takes a list of numbers. -/
def startsNumberList (σ : Settings) : List Token → Bool
  | name :: colon :: value =>
    name.kind = .identifier && colon.isChar ':' &&
      (σ.registry.find? name.text).any (·.grammar = .numberList) && value.all (InValue ·)
  | _ => false

/-- Significant tokens that end inside a list of numbers: after a `{` or `;` there is nothing but
the start of such a declaration. -/
def inNumberList (σ : Settings) : List Token → Bool
  | [] => false
  | t :: ts => ((t.isChar '{' || t.isChar ';') && startsNumberList σ ts) || inNumberList σ ts

/-- The tokens lead up to a declaration: the last significant one is `{` or `;`. -/
def LeadsIn (ts : List Token) : Prop :=
  ∃ before opener, significant ts = before ++ [opener] ∧
    (opener.isChar '{' = true ∨ opener.isChar ';' = true)

section

variable {σ : Settings} {ts pre post lead : List Token} {t : Token}

theorem inNumberList_append (h : inNumberList σ ts = true) (us : List Token) :
    inNumberList σ (us ++ ts) = true := by
  induction us with
  | nil => exact h
  | cons u us ih => rw [List.cons_append, inNumberList, ih, Bool.or_true]

theorem inNumberList_cons (ht : t.isChar '{' = true ∨ t.isChar ';' = true)
    (hts : startsNumberList σ ts = true) : inNumberList σ (t :: ts) = true := by
  rcases ht with ht | ht <;> simp [inNumberList, ht, hts]

theorem LeadsIn.append (us : List Token) (h : LeadsIn ts) : LeadsIn (us ++ ts) := by
  obtain ⟨before, opener, hs, ho⟩ := h
  exact ⟨significant us ++ before, opener, by rw [significant_append, hs, List.append_assoc], ho⟩

/-- In a declaration a foreign token stands in the value, which is then a list of numbers. -/
theorem IsEntry.foreign {e : Entry} (h : IsEntry σ (significant ts) e)
    (hs : ts = pre ++ t :: post) (hk : t.kind = .other) (hlead : LeadsIn lead) :
    inNumberList σ (significant (lead ++ pre)) = true := by
  obtain ⟨before, opener, hl, ho⟩ := hlead
  have hsig : significant ts = significant pre ++ t :: significant post := by
    rw [hs, significant_append, significant_cons (by simp [Token.isTransparent, hk])]
  rw [significant_append, hl, List.append_assoc]
  generalize significant ts = us at h hsig
  obtain ⟨hname, hcolon, hvalue, hending, hp, hread⟩ := h
  rename_i name colon value ending p v important
  have hend : ∀ u ∈ ending, u.kind ≠ .other := by
    cases hending with
    | plain hsemi => simp [Token.kind_of_isChar hsemi]
    | important hbang hword hsemi =>
      simp only [Token.isWord, Bool.and_eq_true, decide_eq_true_eq] at hword
      simp [Token.kind_of_isChar hbang, Token.kind_of_isChar hsemi, hword.1]
  -- the name and the colon are no foreign tokens, so they stand before it
  cases hpre : significant pre with
  | nil =>
    rw [hpre] at hsig
    obtain ⟨rfl, -⟩ := List.cons.inj hsig
    rw [hname] at hk
    cases hk
  | cons a read =>
    rw [hpre] at hsig
    obtain ⟨rfl, hsig₁⟩ := List.cons.inj hsig
    cases read with
    | nil =>
      obtain ⟨rfl, -⟩ := List.cons.inj hsig₁
      rw [Token.kind_of_isChar hcolon] at hk
      cases hk
    | cons b read =>
      obtain ⟨rfl, hsig₂⟩ := List.cons.inj hsig₁
      rcases split_append hsig₂ with ⟨rest, rfl⟩ | ⟨mid, -, hmid⟩
      · have hg := Grammar.numberList_of_foreign hread (t := t) (by simp) hk
        have hread : ∀ u ∈ read, InValue u := fun u hu => hvalue u (by simp [hu])
        refine inNumberList_append (inNumberList_cons ho ?_) before
        simpa [startsNumberList, hname, hcolon, hp, hg] using hread
      · exact absurd hk (hend t (by simp [hmid]))

/-- A declaration leads in the next one. -/
theorem IsEntry.leadsIn {e : Entry} (h : IsEntry σ (significant ts) e) : LeadsIn ts := by
  generalize hs : significant ts = us at h
  obtain ⟨-, -, -, hending, -, -⟩ := h
  rename_i name colon value ending p v important
  cases hending with
  | @plain semi hsemi => exact ⟨name :: colon :: value, semi, by simpa using hs, .inr hsemi⟩
  | @important bang word semi _ _ hsemi =>
    exact ⟨name :: colon :: (value ++ [bang, word]), semi, by simpa using hs, .inr hsemi⟩

theorem IsBody.foreign {es : List Entry} (h : IsBody σ ts es) (hs : ts = pre ++ t :: post)
    (hk : t.kind = .other) (hlead : LeadsIn lead) :
    inNumberList σ (significant (lead ++ pre)) = true := by
  -- what has been passed of the body joins the tokens that lead in
  induction h generalizing pre lead with
  | nil => simp at hs
  | @skip u ts es hu hb ih =>
    cases pre with
    | nil =>
      obtain ⟨rfl, -⟩ := List.cons.inj hs
      simp [Token.isTransparent, hk] at hu
    | cons v pre =>
      obtain ⟨rfl, htail⟩ := List.cons.inj hs
      have hlead' : LeadsIn (lead ++ [u]) := by
        rwa [LeadsIn, significant_snoc_transparent hu]
      simpa using ih htail hlead'
  | @entry ts us e es he hb ih =>
    rcases split_append hs with ⟨rest, hrest⟩ | ⟨mid, rfl, hmid⟩
    · exact he.foreign hrest hk hlead
    · rw [← List.append_assoc]
      exact ih hmid (he.leadsIn.append lead)

theorem IsRun.known {mercator : Bool} {s : Selector} (h : IsRun mercator ts t s) :
    ∀ u ∈ ts, u.kind ≠ .other := by
  intro u hu hk
  refine Selector.known_of_ofTokens h.2 u (List.mem_filter.mpr ⟨hu, ?_⟩) hk
  simp [Token.isComment, hk]

theorem IsRuns.known {mercator : Bool} {ss : List Selector} (h : IsRuns mercator ts ss) :
    ∀ u ∈ ts, u.kind ≠ .other := by
  induction h with
  | nil => simp
  | cons hr hc _ ih =>
    intro u hu
    rcases List.mem_append.mp hu with hu | hu
    · exact hr.known u hu
    rcases List.mem_cons.mp hu with rfl | hu
    · simp [Token.kind_of_isChar hc]
    · exact ih u hu

theorem IsGroup.known {mercator : Bool} {ss : List Selector} (h : IsGroup mercator ts ss) :
    ∀ u ∈ ts, u.kind ≠ .other := by
  obtain ⟨hruns, hrun, hbrace⟩ := h
  intro u hu
  rcases List.mem_append.mp hu with hu | hu
  · rcases List.mem_append.mp hu with hu | hu
    · exact hruns.known u hu
    · exact hrun.known u hu
  · rw [List.mem_singleton.mp hu]
    simp [Token.kind_of_isChar hbrace]

theorem IsGroup.leadsIn {mercator : Bool} {ss : List Selector} (h : IsGroup mercator ts ss) :
    LeadsIn ts := by
  obtain ⟨-, -, hbrace⟩ := h
  exact ⟨_, _, significant_snoc (Token.isTransparent_of_isChar hbrace), .inl hbrace⟩

theorem IsRule.foreign {r : Ruleset} (h : IsRule σ ts r) (hs : ts = pre ++ t :: post)
    (hk : t.kind = .other) : inNumberList σ (significant pre) = true := by
  obtain ⟨-, hgroup, hbody, hbrace⟩ := h
  rename_i group body brace ss es
  rw [List.append_assoc] at hs
  rcases split_append hs with ⟨rest, rfl⟩ | ⟨mid, rfl, hmid⟩
  · exact absurd hk (hgroup.known t (by simp))
  rcases split_append hmid with ⟨rest, hrest⟩ | ⟨last, -, hlast⟩
  · exact hbody.foreign hrest hk hgroup.leadsIn
  · have ht : t ∈ [brace] := by simp [hlast]
    rw [List.mem_singleton.mp ht, Token.kind_of_isChar hbrace] at hk
    cases hk

/-- A foreign token in a sheet stands in a list of numbers. -/
theorem IsSheet.foreign {rs : List Ruleset} (h : IsSheet σ ts rs) (hs : ts = pre ++ t :: post)
    (hk : t.kind = .other) : inNumberList σ (significant pre) = true := by
  induction h generalizing pre with
  | nil => simp at hs
  | @skip u ts rs hu _ ih =>
    cases pre with
    | nil =>
      obtain ⟨rfl, -⟩ := List.cons.inj hs
      simp [Token.isTransparent, hk] at hu
    | cons v pre =>
      obtain ⟨rfl, htail⟩ := List.cons.inj hs
      simpa [significant, hu] using ih htail
  | @rule ts us r rs hr _ ih =>
    rcases split_append hs with ⟨rest, hrest⟩ | ⟨mid, rfl, hmid⟩
    · exact hr.foreign hrest hk
    · rw [significant_append]
      exact inNumberList_append (ih hmid) _

end

end Sheet

/-- A foreign token that stands anywhere but in a list of numbers makes both readers refuse the
sheet. -/
theorem foreign_rejected (σ : Settings) (pre post : List Token) (t : Token) (hk : t.kind = .other)
    (hp : Sheet.inNumberList σ (significant pre) = false) :
    (∃ f, Ruleset.ofTokens σ (pre ++ t :: post) = .error f) ∧
      ∃ f, Declaration.ofTokens σ (pre ++ t :: post) = .error f := by
  have hrules (rs : List Ruleset) : Ruleset.ofTokens σ (pre ++ t :: post) ≠ .ok rs := by
    intro h
    have hin := (Sheet.isSheet_of_accepted h).foreign rfl hk
    rw [hp] at hin
    cases hin
  constructor
  · cases hr : Ruleset.ofTokens σ (pre ++ t :: post) with
    | error f => exact ⟨f, rfl⟩
    | ok rs => exact absurd hr (hrules rs)
  · cases hd : Declaration.ofTokens σ (pre ++ t :: post) with
    | error f => exact ⟨f, rfl⟩
    | ok ds =>
      obtain ⟨rs, hr, -⟩ := Declaration.flatten_of_ofTokens hd
      exact absurd hr (hrules rs)

/-- A width with a unit, behind a list of numbers that is complete. -/
theorem foreign_rejected_width :
    let σ := Settings.standard false
    let pre := Token.scan "Layer \x7b line-dasharray: 4, 3; line-width: "
    let post := Token.scan "; \x7d"
    let t : Token := ⟨.other, "2px", ⟨1, 43⟩⟩
    Token.scan "Layer \x7b line-dasharray: 4, 3; line-width: 2px" = pre ++ [t] ∧
      (∃ f, Ruleset.ofTokens σ (pre ++ t :: post) = .error f) ∧
      ∃ f, Declaration.ofTokens σ (pre ++ t :: post) = .error f := by
  intro σ pre post t
  exact ⟨by decide +kernel, foreign_rejected σ pre post t rfl (by decide +kernel)⟩

/-- In a list of numbers a foreign token goes unnoticed. -/
theorem foreign_accepted_dasharray :
    ¬∀ (σ : Settings) (tokens : List Token), (∃ t ∈ tokens, t.kind = .other) →
      (∃ f, Ruleset.ofTokens σ tokens = .error f) ∧
        ∃ f, Declaration.ofTokens σ tokens = .error f := by
  intro h
  let σ := Settings.standard false
  let tokens := Token.scan "Layer \x7b line-dasharray: 4 2px, 3; \x7d"
  have hforeign : tokens.any (·.kind = .other) = true := by decide +kernel
  have haccepted : (Ruleset.ofTokens σ tokens).toBool = true := by decide +kernel
  obtain ⟨t, ht, hk⟩ := List.any_eq_true.mp hforeign
  obtain ⟨⟨f, hf⟩, -⟩ := h σ tokens ⟨t, ht, of_decide_eq_true hk⟩
  rw [hf] at haccepted
  cases haccepted

end Cartosheet
