import Cartosheet.Proofs.Outcome

namespace Cartosheet

/-- The tokens that are neither whitespace nor comments. -/
def significant (ts : List Token) : List Token := ts.filter (!·.isTransparent)

namespace Sheet

/-- The token is none of those that cannot stand in a value. -/
def InValue (t : Token) : Prop :=
  t.isChar ';' = false ∧ t.isChar '!' = false ∧ t.isChar '{' = false ∧ t.isChar '}' = false

/-- What ends a declaration, and whether it makes the value important. -/
inductive IsEnding : List Token → Bool → Prop
  | plain {semicolon : Token} : semicolon.isChar ';' = true → IsEnding [semicolon] false
  | important {bang word semicolon : Token} : bang.isChar '!' = true →
      word.isWord "important" = true → semicolon.isChar ';' = true →
      IsEnding [bang, word, semicolon] true

/-- A declaration without its whitespace and comments, and the entry that it is. -/
inductive IsEntry (σ : Settings) : List Token → Entry → Prop
  | mk {name colon : Token} {value ending : List Token} {p : Property} {v : Value}
      {important : Bool} : name.kind = .identifier → colon.isChar ':' = true →
      (∀ t ∈ value, InValue t) → IsEnding ending important →
      σ.registry.find? name.text = some p → p.grammar.read value = .ok v →
      IsEntry σ (name :: colon :: (value ++ ending)) ⟨p, v, important, name.position⟩

/-- The inside of a block: declarations in source order. -/
inductive IsBody (σ : Settings) : List Token → List Entry → Prop
  | nil : IsBody σ [] []
  | skip {t : Token} {ts : List Token} {es : List Entry} : t.isTransparent = true →
      IsBody σ ts es → IsBody σ (t :: ts) es
  | entry {ts us : List Token} {e : Entry} {es : List Entry} : IsEntry σ (significant ts) e →
      IsBody σ us es → IsBody σ (ts ++ us) (e :: es)

/-- A run of tokens up to `stop`, and the selector that it is without its comments. -/
def IsRun (mercator : Bool) (run : List Token) (stop : Token) (s : Selector) : Prop :=
  (∀ t ∈ run, t.isChar ',' = false ∧ t.isChar '{' = false) ∧
    Selector.ofTokens mercator (run.filter (!·.isComment)) stop.position = .ok s

/-- Runs that are each followed by a comma. -/
inductive IsRuns (mercator : Bool) : List Token → List Selector → Prop
  | nil : IsRuns mercator [] []
  | cons {run rest : List Token} {comma : Token} {s : Selector} {ss : List Selector} :
      IsRun mercator run comma s → comma.isChar ',' = true → IsRuns mercator rest ss →
      IsRuns mercator (run ++ comma :: rest) (s :: ss)

/-- The selectors of a rule through the `{` of its block. -/
inductive IsGroup (mercator : Bool) : List Token → List Selector → Prop
  | mk {runs run : List Token} {brace : Token} {ss : List Selector} {s : Selector} :
      IsRuns mercator runs ss → IsRun mercator run brace s → brace.isChar '{' = true →
      IsGroup mercator (runs ++ run ++ [brace]) (ss ++ [s])

/-- The first token can begin a selector. -/
def Begins (ts : List Token) : Prop :=
  ∃ t us, ts = t :: us ∧ (t.kind = .identifier ∨ t.kind = .hash ∨ t.isChar '*' = true ∨
    t.isChar '.' = true ∨ t.isChar '[' = true)

inductive IsRule (σ : Settings) : List Token → Ruleset → Prop
  | mk {group body : List Token} {brace : Token} {ss : List Selector} {es : List Entry} :
      Begins group → IsGroup σ.mercator group ss → IsBody σ body es → brace.isChar '}' = true →
      IsRule σ (group ++ body ++ [brace]) ⟨ss, es⟩

/-- A whole stylesheet and its rulesets in source order. -/
inductive IsSheet (σ : Settings) : List Token → List Ruleset → Prop
  | nil : IsSheet σ [] []
  | skip {t : Token} {ts : List Token} {rs : List Ruleset} : t.isTransparent = true →
      IsSheet σ ts rs → IsSheet σ (t :: ts) rs
  | rule {ts us : List Token} {r : Ruleset} {rs : List Ruleset} : IsRule σ ts r →
      IsSheet σ us rs → IsSheet σ (ts ++ us) (r :: rs)

theorem IsBody.append {σ : Settings} {ts us : List Token} {es es' : List Entry}
    (h : IsBody σ ts es) (h' : IsBody σ us es') : IsBody σ (ts ++ us) (es ++ es') := by
  induction h with
  | nil => exact h'
  | skip ht _ ih => exact .skip ht ih
  | entry he _ ih =>
    rw [List.append_assoc]
    exact .entry he ih

theorem IsRuns.append {mercator : Bool} {ts us : List Token} {ss ss' : List Selector}
    (h : IsRuns mercator ts ss) (h' : IsRuns mercator us ss') :
    IsRuns mercator (ts ++ us) (ss ++ ss') := by
  induction h with
  | nil => exact h'
  | cons hr hc _ ih =>
    rw [List.append_assoc]
    exact .cons hr hc ih

theorem IsSheet.append {σ : Settings} {ts us : List Token} {rs rs' : List Ruleset}
    (h : IsSheet σ ts rs) (h' : IsSheet σ us rs') : IsSheet σ (ts ++ us) (rs ++ rs') := by
  induction h with
  | nil => exact h'
  | skip ht _ ih => exact .skip ht ih
  | rule hr _ ih =>
    rw [List.append_assoc]
    exact .rule hr ih

theorem Begins.append {ts : List Token} (h : Begins ts) (us : List Token) : Begins (ts ++ us) := by
  obtain ⟨t, ts', rfl, ht⟩ := h
  exact ⟨t, ts' ++ us, rfl, ht⟩

theorem startsSelector_iff (t : Token) :
    Ruleset.startsSelector t = true ↔ t.kind = .identifier ∨ t.kind = .hash ∨
      t.isChar '*' = true ∨ t.isChar '.' = true ∨ t.isChar '[' = true := by
  simp [Ruleset.startsSelector, or_assoc]

theorem isTerminator_eq_false_iff (t : Token) :
    Selector.isTerminator t = false ↔ t.isChar ',' = false ∧ t.isChar '{' = false := by
  simp [Selector.isTerminator]

section Accepted

open Ruleset (Machine Draft Context)

/-- Outside selectors whitespace and comments alone lead nowhere. -/
theorem feedAll_transparent (σ : Settings) (m : Machine)
    (hm : ∀ ss run, m.context ≠ .inSelectors ss run) {ts : List Token}
    (h : significant ts = []) : m.feedAll σ ts = .ok m := by
  induction ts with
  | nil => rfl
  | cons t ts ih =>
    cases ht : t.isTransparent with
    | false => simp [significant, ht] at h
    | true =>
      rw [Machine.feedAll, Machine.feed_transparent hm ht]
      exact ih (by simpa [significant, ht] using h)

/-- Outside selectors the machine goes on with the first significant token. -/
theorem feedAll_significant (σ : Settings) (m : Machine)
    (hm : ∀ ss run, m.context ≠ .inSelectors ss run) {ts us : List Token} {u : Token}
    (h : significant ts = u :: us) :
    u.isTransparent = false ∧ ∃ post, significant post = us ∧
      m.feedAll σ ts =
        match m.feed σ u with
        | .error f => .error f
        | .ok m' => m'.feedAll σ post := by
  induction ts with
  | nil => cases h
  | cons t ts ih =>
    cases ht : t.isTransparent with
    | true =>
      have hs : significant ts = u :: us := by simpa [significant, ht] using h
      rw [Machine.feedAll, Machine.feed_transparent hm ht]
      exact ih hs
    | false =>
      have hs : t = u ∧ significant ts = us := by simpa [significant, ht] using h
      obtain ⟨rfl, hs⟩ := hs
      exact ⟨ht, ts, hs, rfl⟩

section

variable (σ : Settings) (done : List Ruleset) (ss : List Selector) (es : List Entry)

/-- A significant token takes a draft one step on. -/
theorem feedAll_draft {draft draft' : Draft} {ts us : List Token} {u : Token}
    (h : significant ts = u :: us) (hd : draft.feed σ u = .ok (.inl draft')) :
    ∃ post, significant post = us ∧
      Machine.feedAll σ ⟨done, .inDeclaration ss es draft⟩ ts =
        Machine.feedAll σ ⟨done, .inDeclaration ss es draft'⟩ post := by
  obtain ⟨ht, post, hp, hf⟩ :=
    feedAll_significant σ ⟨done, .inDeclaration ss es draft⟩ (by simp) h
  refine ⟨post, hp, ?_⟩
  rw [hf]
  simp [Machine.feed, ht, hd]

/-- The last one completes it. -/
theorem feedAll_complete {draft : Draft} {ts : List Token} {u : Token} {e : Entry}
    (h : significant ts = [u]) (hd : draft.feed σ u = .ok (.inr e)) :
    Machine.feedAll σ ⟨done, .inDeclaration ss es draft⟩ ts =
      .ok ⟨done, .inBlock ss (es ++ [e])⟩ := by
  obtain ⟨ht, post, hp, hf⟩ :=
    feedAll_significant σ ⟨done, .inDeclaration ss es draft⟩ (by simp) h
  rw [hf]
  simp only [Machine.feed, ht, hd]
  exact feedAll_transparent σ _ (by simp) hp

/-- The tokens of a value are gathered one by one. -/
theorem feedAll_value (name : Token) (p : Property) (gathered : List Token)
    {ts value ending : List Token} (h : significant ts = value ++ ending)
    (hv : ∀ t ∈ value, InValue t) :
    ∃ post, significant post = ending ∧
      Machine.feedAll σ ⟨done, .inDeclaration ss es (.valued name p gathered .none)⟩ ts =
        Machine.feedAll σ
          ⟨done, .inDeclaration ss es (.valued name p (gathered ++ value) .none)⟩ post := by
  induction value generalizing gathered ts with
  | nil => exact ⟨ts, h, by rw [List.append_nil]⟩
  | cons v value ih =>
    obtain ⟨hsemi, hbang, hopen, hclose⟩ := hv v (by simp)
    have hd : Draft.feed σ (.valued name p gathered .none) v =
        .ok (.inl (.valued name p (gathered ++ [v]) .none)) := by
      simp [Draft.feed, hsemi, hbang, hopen, hclose]
    obtain ⟨post, hp, hf⟩ := feedAll_draft σ done ss es h hd
    obtain ⟨post', hp', hf'⟩ := ih (gathered ++ [v]) hp fun t ht => hv t (by simp [ht])
    refine ⟨post', hp', ?_⟩
    rw [hf, hf', List.append_assoc]
    rfl

/-- Its ending completes a declaration. -/
theorem feedAll_ending {name : Token} {p : Property} {value ending : List Token}
    {important : Bool} {e : Entry} (hb : Entry.build p name value important = .ok e)
    (he : IsEnding ending important) {ts : List Token} (h : significant ts = ending) :
    Machine.feedAll σ ⟨done, .inDeclaration ss es (.valued name p value .none)⟩ ts =
      .ok ⟨done, .inBlock ss (es ++ [e])⟩ := by
  cases he with
  | plain hsemi =>
    exact feedAll_complete σ done ss es h (by simp [Draft.feed, hsemi, hb, Except.map])
  | @important bang word semi hbang hword hsemi =>
    have hne : bang.isChar ';' = false := Token.isChar_eq_false hbang (by decide)
    have hstep : Draft.feed σ (.valued name p value .none) bang =
        .ok (.inl (.valued name p value .bang)) := by simp [Draft.feed, hbang, hne]
    have hstep' : Draft.feed σ (.valued name p value .bang) word =
        .ok (.inl (.valued name p value .important)) := by simp [Draft.feed, hword]
    obtain ⟨post, hp, hf⟩ := feedAll_draft σ done ss es h hstep
    obtain ⟨post', hp', hf'⟩ := feedAll_draft σ done ss es hp hstep'
    rw [hf, hf']
    exact feedAll_complete σ done ss es hp' (by simp [Draft.feed, hsemi, hb, Except.map])

/-- A declaration of the grammar becomes its entry. -/
theorem feedAll_entry {e : Entry} {ts : List Token} (h : IsEntry σ (significant ts) e) :
    Machine.feedAll σ ⟨done, .inBlock ss es⟩ ts = .ok ⟨done, .inBlock ss (es ++ [e])⟩ := by
  generalize hs : significant ts = us at h
  cases h with
  | @mk name colon value ending p v important hname hcolon hvalue hending hp hv =>
    have hclose : name.isChar '}' = false := by simp [Token.isChar, hname]
    have hstep : Draft.feed σ (.named name) colon = .ok (.inl (.valued name p [] .none)) := by
      simp [Draft.feed, hcolon, hp]
    obtain ⟨ht, post, hpost, hf⟩ := feedAll_significant σ ⟨done, .inBlock ss es⟩ (by simp) hs
    obtain ⟨post', hpost', hf'⟩ := feedAll_draft σ done ss es hpost hstep
    obtain ⟨post'', hpost'', hf''⟩ := feedAll_value σ done ss es name p [] hpost' hvalue
    rw [hf]
    simp only [Machine.feed, ht, hclose, hname, Bool.false_eq_true, if_false, if_true]
    rw [hf', hf'']
    exact feedAll_ending σ done ss es (by simp [Entry.build, hv]) hending hpost''

/-- The inside of a block becomes its entries. -/
theorem feedAll_body {ts : List Token} {es' : List Entry} (h : IsBody σ ts es') :
    Machine.feedAll σ ⟨done, .inBlock ss es⟩ ts = .ok ⟨done, .inBlock ss (es ++ es')⟩ := by
  induction h generalizing es with
  | nil => simp [Machine.feedAll]
  | skip ht _ ih =>
    rw [Machine.feedAll, Machine.feed_transparent (by simp) ht]
    exact ih es
  | @entry ts us e es' he _ ih =>
    rw [Machine.feedAll_append (feedAll_entry σ done ss es he), ih]
    simp

/-- A run of the grammar becomes its selector at the token that stops it. -/
theorem feedAll_stopped {run : List Token} {stop : Token} {s : Selector}
    (h : IsRun σ.mercator run stop s) (hstop : Selector.isTerminator stop = true)
    (rest : List Token) :
    Machine.feedAll σ ⟨done, .inSelectors ss []⟩ (run ++ stop :: rest) =
      Machine.feedAll σ ⟨done, if stop.isChar '{' then .inBlock (ss ++ [s]) []
        else .inSelectors (ss ++ [s]) []⟩ rest := by
  have hr : ∀ t ∈ run, Selector.isTerminator t = false :=
    fun t ht => (isTerminator_eq_false_iff t).mpr (h.1 t ht)
  rw [Machine.feedAll_append (Machine.feedAll_run σ done ss [] hr), List.nil_append]
  simp only [Machine.feedAll, Machine.feed, hstop, h.2, if_true]
  cases stop.isChar '{' <;> rfl

theorem feedAll_runs {ts : List Token} {ss' : List Selector} (h : IsRuns σ.mercator ts ss') :
    Machine.feedAll σ ⟨done, .inSelectors ss []⟩ ts =
      .ok ⟨done, .inSelectors (ss ++ ss') []⟩ := by
  induction h generalizing ss with
  | nil => simp [Machine.feedAll]
  | @cons run rest comma s ss' hr hc _ ih =>
    have hb : comma.isChar '{' = false := Token.isChar_eq_false hc (by decide)
    rw [feedAll_stopped σ done ss hr (by simp [Selector.isTerminator, hc]), hb]
    simpa using ih (ss ++ [s])

theorem feedAll_group {ts : List Token} {ss' : List Selector} (h : IsGroup σ.mercator ts ss') :
    Machine.feedAll σ ⟨done, .inSelectors [] []⟩ ts = .ok ⟨done, .inBlock ss' []⟩ := by
  obtain ⟨hruns, hrun, hbrace⟩ := h
  rw [List.append_assoc, Machine.feedAll_append (feedAll_runs σ done [] hruns), List.nil_append,
    feedAll_stopped σ done _ hrun (by simp [Selector.isTerminator, hbrace]), hbrace]
  rfl

/-- A group that begins as it should leaves the machine no choice. -/
theorem feedAll_begins {ts : List Token} (h : Begins ts) :
    Machine.feedAll σ ⟨done, .betweenRules⟩ ts =
      Machine.feedAll σ ⟨done, .inSelectors [] []⟩ ts := by
  obtain ⟨t, us, rfl, ht⟩ := h
  have hs := (startsSelector_iff t).mpr ht
  simp [Machine.feedAll, Machine.feed, hs, Ruleset.isTransparent_of_startsSelector hs,
    Ruleset.isComment_of_startsSelector hs, Ruleset.isTerminator_of_startsSelector hs]

theorem feedAll_rule {ts : List Token} {r : Ruleset} (h : IsRule σ ts r) :
    Machine.feedAll σ ⟨done, .betweenRules⟩ ts = .ok ⟨done ++ [r], .betweenRules⟩ := by
  obtain ⟨hbegins, hgroup, hbody, hbrace⟩ := h
  have htr := Token.isTransparent_of_isChar hbrace
  rw [List.append_assoc, feedAll_begins σ done (hbegins.append _),
    Machine.feedAll_append (feedAll_group σ done hgroup),
    Machine.feedAll_append (feedAll_body σ done _ [] hbody), List.nil_append]
  simp [Machine.feedAll, Machine.feed, htr, hbrace]

/-- A stylesheet of the grammar takes the machine through all of its rules. -/
theorem feedAll_sheet {ts : List Token} {rs : List Ruleset} (h : IsSheet σ ts rs) :
    Machine.feedAll σ ⟨done, .betweenRules⟩ ts = .ok ⟨done ++ rs, .betweenRules⟩ := by
  induction h generalizing done with
  | nil => simp [Machine.feedAll]
  | skip ht _ ih =>
    rw [Machine.feedAll, Machine.feed_transparent (by simp) ht]
    exact ih done
  | rule hr _ ih =>
    rw [Machine.feedAll_append (feedAll_rule σ done hr), ih]
    simp

end

end Accepted

end Sheet

end Cartosheet
