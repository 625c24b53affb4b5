import Cartosheet.Proofs.Acceptance
import Cartosheet.Proofs.Agreement
import Cartosheet.Stylesheet

namespace Cartosheet

@[simp] theorem significant_append (ts us : List Token) :
    significant (ts ++ us) = significant ts ++ significant us := by
  simp [significant]

theorem significant_cons {t : Token} (h : t.isTransparent = false) (ts : List Token) :
    significant (t :: ts) = t :: significant ts := by
  simp [significant, h]

theorem significant_significant (ts : List Token) :
    significant (significant ts) = significant ts := by
  simp [significant]

theorem significant_eq_nil {ts : List Token} (h : ts.dropWhile Token.isTransparent = []) :
    significant ts = [] := by
  rw [List.dropWhile_eq_nil_iff] at h
  simpa [significant] using h

theorem significant_eq_cons {ts us : List Token} {t : Token}
    (h : ts.dropWhile Token.isTransparent = t :: us) :
    significant ts = t :: significant us := by
  induction ts with
  | nil => cases h
  | cons u ts ih =>
    cases hu : u.isTransparent with
    | true =>
      rw [List.dropWhile_cons_of_pos hu] at h
      simpa [significant, hu] using ih h
    | false =>
      rw [List.dropWhile_cons_of_neg (by simp [hu])] at h
      cases h
      simp [significant, hu]

/-- Nothing is skipped among significant tokens. -/
theorem dropWhile_significant {skip : Token → Bool}
    (hskip : ∀ u, skip u = true → u.isTransparent = true) (ts : List Token) :
    (significant ts).dropWhile skip = significant ts := by
  induction ts with
  | nil => rfl
  | cons t ts ih =>
    cases ht : t.isTransparent with
    | true => simpa [significant, ht] using ih
    | false =>
      have hs : ¬skip t = true := by
        intro h
        rw [hskip t h] at ht
        cases ht
      simp [significant, ht, hs]

/-- Past comments comes the first significant token, or whitespace. -/
theorem significant_pastComments {ts us : List Token} {t : Token}
    (h : ts.dropWhile Token.isComment = t :: us) :
    significant ts = significant (t :: us) := by
  have hsplit := List.takeWhile_append_dropWhile (p := Token.isComment) (l := ts)
  have hcomments : significant (ts.takeWhile Token.isComment) = [] := by
    rw [significant, List.filter_eq_nil_iff]
    intro u hu
    simp [Token.isTransparent_of_isComment (List.mem_takeWhile_imp hu)]
  rw [h] at hsplit
  rw [← hsplit, significant, List.filter_append]
  change significant _ ++ significant _ = _
  rw [hcomments, List.nil_append]

namespace Reader

theorem orEqual_nil (strict inclusive : Operator) {c : Cursor}
    (h : c.pending.dropWhile Token.isComment = []) :
    orEqual strict inclusive c = .ok strict c.atEnd := by
  rw [orEqual, Cursor.nextPastComments, Cursor.nextPast_nil h]

theorem orEqual_cons (strict inclusive : Operator) {c : Cursor} {t : Token} {ts : List Token}
    (h : c.pending.dropWhile Token.isComment = t :: ts) :
    orEqual strict inclusive c =
      if t.isChar '=' then .ok inclusive (c.past t ts) else .ok strict ((c.past t ts).putBack t) := by
  rw [orEqual, Cursor.nextPastComments, Cursor.nextPast_cons h]

/-- `b` has to come what `c` has, without whitespace and comments. -/
def Condensed (c b : Cursor) : Prop := b.pending = significant c.pending

/-- What the reader gives for some tokens, it gives for the significant ones among them. -/
def Condenses {α : Type} (r : Reader α) : Prop :=
  ∀ c b a d, Condensed c b → r c = .ok a d → ∃ e, r b = .ok a e ∧ Condensed d e

section

variable {c b d : Cursor} {t : Token}

/-- Both cursors give the same significant token. -/
theorem Condensed.next_significant (h : Condensed c b) (hn : c.nextSignificant = (some t, d)) :
    ∃ e, b.nextSignificant = (some t, e) ∧ Condensed d e := by
  cases hd : c.pending.dropWhile Token.isTransparent with
  | nil =>
    rw [Cursor.nextSignificant, Cursor.nextPast_nil hd] at hn
    cases hn
  | cons u us =>
    rw [Cursor.nextSignificant, Cursor.nextPast_cons hd] at hn
    cases hn
    have hb : b.pending.dropWhile Token.isTransparent = t :: significant us := by
      rw [h, dropWhile_significant (fun _ hu => hu), significant_eq_cons hd]
    exact ⟨_, Cursor.nextPast_cons hb, rfl⟩

/-- Without whitespace too comes next what came next after comments, if that was significant. -/
theorem Condensed.next_pastComments (h : Condensed c b)
    (hn : c.nextPastComments = (some t, d)) (ht : t.isTransparent = false) :
    ∃ e, b.nextPastComments = (some t, e) ∧ Condensed d e := by
  cases hd : c.pending.dropWhile Token.isComment with
  | nil =>
    rw [Cursor.nextPastComments, Cursor.nextPast_nil hd] at hn
    cases hn
  | cons u us =>
    rw [Cursor.nextPastComments, Cursor.nextPast_cons hd] at hn
    cases hn
    have hs : significant (t :: us) = t :: significant us := by simp [significant, ht]
    have hb : b.pending.dropWhile Token.isComment = t :: significant us := by
      rw [h, dropWhile_significant (fun _ => Token.isTransparent_of_isComment),
        significant_pastComments hd, hs]
    exact ⟨_, Cursor.nextPast_cons hb, rfl⟩

/-- A comparison is the same without whitespace, if no `=` follows it that whitespace kept away. -/
theorem Condensed.next_orEqual {strict inclusive op : Operator} (h : Condensed c b)
    (hc : orEqual strict inclusive c = .ok op d)
    (hnext : ∀ t ts, d.pending.dropWhile Token.isTransparent = t :: ts → t.isChar '=' = false) :
    ∃ e, orEqual strict inclusive b = .ok op e ∧ Condensed d e := by
  have hb : b.pending.dropWhile Token.isComment = significant c.pending := by
    rw [h, dropWhile_significant fun _ => Token.isTransparent_of_isComment]
  cases hd : c.pending.dropWhile Token.isComment with
  | nil =>
    rw [orEqual_nil _ _ hd] at hc
    cases hc
    have hs : significant c.pending = [] := by
      rw [List.dropWhile_eq_nil_iff] at hd
      simpa [significant] using fun u hu => Token.isTransparent_of_isComment (hd u hu)
    exact ⟨_, orEqual_nil _ _ (hb.trans hs), rfl⟩
  | cons t ts =>
    have hs := significant_pastComments hd
    rw [orEqual_cons _ _ hd] at hc
    split at hc
    · rename_i heq
      cases hc
      have ht : significant (t :: ts) = t :: significant ts := by
        simp [significant, Token.isTransparent_of_isChar heq]
      rw [hs, ht] at hb
      exact ⟨b.past t (significant ts), by rw [orEqual_cons _ _ hb, if_pos heq], rfl⟩
    · cases hc
      rw [hs] at hb
      -- `t` may be whitespace; the first significant token after it is what `b` has next
      cases hp : (t :: ts).dropWhile Token.isTransparent with
      | nil =>
        rw [significant_eq_nil hp] at hb
        refine ⟨_, orEqual_nil _ _ hb, ?_⟩
        rw [Condensed, Cursor.pending_putBack_past, significant_eq_nil hp]
        rfl
      | cons u us =>
        have hu := hnext u us hp
        rw [significant_eq_cons hp] at hb
        refine ⟨_, by rw [orEqual_cons _ _ hb, hu, if_neg (by simp)], ?_⟩
        rw [Condensed, Cursor.pending_putBack_past, Cursor.pending_putBack_past,
          significant_eq_cons hp]

end

section

variable {α β : Type}

theorem Condenses.pure (a : α) : Condenses (Pure.pure a : Reader α) := by
  intro c b a' d h hr
  cases hr
  exact ⟨b, rfl, h⟩

/-- A reader that always faults gives nothing to condense. -/
theorem Condenses.of_fails {r : Reader α} (h : Selector.Fails r) : Condenses r := by
  intro c b a d _ hr
  obtain ⟨f, e, he⟩ := h c
  rw [he] at hr
  cases hr

theorem Condenses.throw (f : Fault) : Condenses (MonadExcept.throw f : Reader α) :=
  .of_fails (Selector.fails_throw f)

theorem Condenses.bind {r : Reader α} {k : α → Reader β} (hr : Condenses r)
    (hk : ∀ a, Condenses (k a)) : Condenses (r >>= k) := by
  intro c b x d h hx
  obtain ⟨a, c', hc, ha⟩ := bind_eq_ok.mp hx
  obtain ⟨b', hb, h'⟩ := hr c b a c' h hc
  obtain ⟨e, he, h''⟩ := hk a c' b' x d h' ha
  exact ⟨e, bind_eq_ok.mpr ⟨a, b', hb, he⟩, h''⟩

theorem Condenses.expect (place : Place) : Condenses (Reader.expect place) := by
  intro c b t d h ht
  unfold Reader.expect at ht ⊢
  split at ht
  · rename_i u e hn
    cases ht
    obtain ⟨e', hb, h'⟩ := h.next_significant hn
    exact ⟨e', by rw [hb], h'⟩
  · cases ht

theorem Condenses.require (accept : Token → Bool) (wrong missing : Place) :
    Condenses (Reader.require accept wrong missing) := by
  refine .bind (.expect missing) fun t => ?_
  split
  · exact .pure t
  · exact .throw _

/-- Where only comments may come before a token, whitespace there is a fault. -/
theorem Condenses.pastComments {k : Option Token → Reader β} (hk : ∀ u, Condenses (k (some u)))
    (hend : Selector.Fails (k none))
    (hfail : ∀ u, u.isTransparent = true → Selector.Fails (k (some u))) :
    Condenses (Reader.pastComments >>= k) := by
  intro c b x d h hx
  obtain ⟨found, c', hc, hx⟩ := bind_eq_ok.mp hx
  cases found with
  | none =>
    obtain ⟨f, e, he⟩ := hend c'
    rw [he] at hx
    cases hx
  | some u =>
    cases hu : u.isTransparent with
    | true =>
      obtain ⟨f, e, he⟩ := hfail u hu c'
      rw [he] at hx
      cases hx
    | false =>
      have hn : c.nextPastComments = (some u, c') := by
        cases hnc : c.nextPastComments with
        | mk found e =>
          simp only [Reader.pastComments, hnc, EStateM.Result.ok.injEq] at hc
          rw [hc.1, hc.2]
      obtain ⟨b', hb, h'⟩ := h.next_pastComments hn hu
      obtain ⟨e, he, h''⟩ := hk u c' b' x d h' hx
      refine ⟨e, bind_eq_ok.mpr ⟨some u, b', ?_, he⟩, h''⟩
      rw [Reader.pastComments, hb]

/-- A comparison does not condense by itself: whitespace may keep it from an `=`. It does before a
reader that can make nothing of an `=`. -/
theorem Condenses.orEqual {k : Operator → Reader β} (strict inclusive : Operator)
    (hk : ∀ op, Condenses (k op))
    (hfail : ∀ op c t ts, c.pending.dropWhile Token.isTransparent = t :: ts →
      t.isChar '=' = true → ∃ f d, k op c = .error f d) :
    Condenses (Reader.orEqual strict inclusive >>= k) := by
  intro c b x d h hx
  obtain ⟨op, c', hc, hx⟩ := bind_eq_ok.mp hx
  have hnext : ∀ t ts, c'.pending.dropWhile Token.isTransparent = t :: ts →
      t.isChar '=' = false := by
    intro t ts ht
    cases heq : t.isChar '=' with
    | false => rfl
    | true =>
      obtain ⟨f, e, he⟩ := hfail op c' t ts ht heq
      rw [he] at hx
      cases hx
  obtain ⟨b', hb, h'⟩ := h.next_orEqual hc hnext
  obtain ⟨e, he, h''⟩ := hk op c' b' x d h' hx
  exact ⟨e, bind_eq_ok.mpr ⟨op, b', hb, he⟩, h''⟩

/-- The operator of a test, before a reader that can make nothing of an `=`. -/
theorem Condenses.operator {k : Operator → Reader β} (hk : ∀ op, Condenses (k op))
    (hfail : ∀ op c t ts, c.pending.dropWhile Token.isTransparent = t :: ts →
      t.isChar '=' = true → ∃ f d, k op c = .error f d) :
    Condenses (Reader.operator >>= k) := by
  rw [Reader.operator, bind_assoc]
  refine .bind (.expect _) fun t => ?_
  split
  · rw [pure_bind]
    exact hk _
  split
  · exact .orEqual _ _ hk hfail
  split
  · exact .orEqual _ _ hk hfail
  split
  · rw [bind_assoc]
    refine .pastComments (fun u => ?_) (fun c => ⟨_, _, rfl⟩) (fun u hu c => ?_)
    · dsimp only
      split
      · rw [pure_bind]
        exact hk _
      · exact .of_fails fun c => ⟨_, _, rfl⟩
    · have hne : u.isChar '=' = false := by
        cases he : u.isChar '=' with
        | false => rfl
        | true => rw [Token.isTransparent_of_isChar he] at hu; cases hu
      simp only [hne, Bool.false_eq_true, if_false]
      exact ⟨_, _, rfl⟩
  · exact .of_fails fun c => ⟨_, _, rfl⟩

theorem Condenses.scalar : Condenses Reader.scalar := by
  refine .bind (.expect _) fun t => ?_
  split
  · split
    · exact .pure _
    · exact .throw _
  split
  · exact .pure _
  · exact .throw _

/-- An `=` is no value. -/
theorem scalar_equals {c : Cursor} {t : Token} {ts : List Token}
    (h : c.pending.dropWhile Token.isTransparent = t :: ts) (ht : t.isChar '=' = true) :
    ∃ f d, Reader.scalar c = .error f d := by
  refine ⟨.unexpected t .attributeValue, c.past t ts, bind_eq_error.mpr (.inr ?_)⟩
  have hk := Token.kind_of_isChar ht
  refine ⟨t, c.past t ts, expect_cons h, ?_⟩
  simp only [hk, reduceCtorEq, if_false]
  rfl

theorem Condenses.attributeTest : Condenses Reader.attributeTest := by
  refine .bind (.require _ _ _) fun name => .operator (fun op => ?_) (fun op c t ts h ht => ?_)
  · exact .bind .scalar fun value => .bind (.require _ _ _) fun _ => .pure _
  · obtain ⟨f, d, hf⟩ := scalar_equals h ht
    exact ⟨f, d, bind_eq_error.mpr (.inl hf)⟩

end

end Reader

namespace Selector

open Reader (Condenses Condensed)

theorem condenses_className : Condenses className := by
  refine .pastComments (fun u => ?_) (fun c => ⟨_, _, rfl⟩) (fun u hu c => ?_)
  · dsimp only
    split
    · exact .pure _
    · exact .throw _
  · have hk : u.kind ≠ .identifier := by
      intro hk
      simp [Token.isTransparent, hk] at hu
    simp only [hk, if_false]
    exact ⟨_, _, rfl⟩

theorem condenses_readItem (elements : List Element) (t : Token) :
    Condenses (readItem elements t) := by
  unfold readItem
  split
  · exact .pure _
  split
  · exact .pure _
  split
  · exact .pure _
  split
  · exact .bind condenses_className fun _ => .pure _
  split
  · split
    · exact .throw _
    · exact .bind .attributeTest fun _ => .pure _
  · exact .throw _

/-- Items are read the same from their significant tokens. -/
theorem condenses_readItems (elements : List Element) (start : Option Position) :
    Condenses (readItems elements start) := by
  intro c b r d h hr
  fun_induction readItems elements start c generalizing b with
  | case1 elements start c e hn =>
    cases hr
    have hd : c.pending.dropWhile Token.isTransparent = [] := by
      cases hd : c.pending.dropWhile Token.isTransparent with
      | nil => rfl
      | cons u us =>
        rw [Cursor.nextSignificant, Cursor.nextPast_cons hd] at hn
        cases hn
    rw [Cursor.nextSignificant, Cursor.nextPast_nil hd] at hn
    cases hn
    have hb : b.pending = [] := h.trans (significant_eq_nil hd)
    exact ⟨b.atEnd, readItems_of_none _ _ (by rw [hb]; rfl), rfl⟩
  | case2 elements start c t e hn ht =>
    cases hr
    obtain ⟨e', hb, h'⟩ := h.next_significant hn
    exact ⟨e', by rw [readItems_of_next _ _ hb, if_pos ht], h'⟩
  | case3 => cases hr
  | case4 elements start c t e hn ht elements' e' hi ih =>
    obtain ⟨b', hb, h'⟩ := h.next_significant hn
    obtain ⟨b'', hb', h''⟩ := condenses_readItem elements t e b' elements' e' h' hi
    obtain ⟨u, hu, h'''⟩ := ih b'' h'' hr
    refine ⟨u, ?_, h'''⟩
    rw [readItems_of_next _ _ hb, if_neg ht, hb']
    exact hu

/-- A selector that was read had items and no terminator. -/
theorem items_of_ofTokens {mercator : Bool} {ts : List Token} {stop : Position} {s : Selector}
    (h : ofTokens mercator ts stop = .ok s) :
    ∃ r d, readItems [] none { rest := ts } = .ok r d ∧ r.terminator = none := by
  cases hr : readItems [] none { rest := ts } with
  | error f d => exact absurd h (ofTokens_of_items_error hr stop s)
  | ok r d =>
    refine ⟨r, d, rfl, ?_⟩
    unfold ofTokens at h
    split at h
    · cases h
    rw [read_of_items hr] at h
    cases hb : build mercator r.elements (r.position d.last) with
    | error f => rw [hb] at h; cases h
    | ok s' =>
      rw [hb] at h
      cases ht : r.terminator with
      | none => rfl
      | some t => rw [ht] at h; cases h

/-- A run is the same selector without its whitespace. -/
theorem ofTokens_significant {mercator : Bool} {ts : List Token} {stop : Position} {s : Selector}
    (h : ofTokens mercator ts stop = .ok s) : ofTokens mercator (significant ts) stop = .ok s := by
  obtain ⟨r, d, hr, ht⟩ := items_of_ofTokens h
  obtain ⟨e, he, -⟩ := condenses_readItems [] none { rest := ts } { rest := significant ts } r d
    rfl hr
  rw [ofTokens_of_items mercator he ht stop stop s]
  rwa [ofTokens_of_items mercator hr ht stop stop s] at h

end Selector

namespace Ruleset.Machine

/-- A comment leaves the machine as it is, wherever it comes. -/
theorem feed_comment {σ : Settings} {m : Machine} {t : Token} (ht : t.isComment = true) :
    m.feed σ t = .ok m := by
  obtain ⟨done, context⟩ := m
  cases context with
  | inSelectors ss run =>
    have hk : t.kind = .comment := of_decide_eq_true ht
    have hterm : Selector.isTerminator t = false := by
      simp [Selector.isTerminator, Token.isChar, hk]
    simp [feed, hterm, ht]
  | betweenRules => exact feed_transparent (by simp) (Token.isTransparent_of_isComment ht)
  | inBlock ss es => exact feed_transparent (by simp) (Token.isTransparent_of_isComment ht)
  | inDeclaration ss es d => exact feed_transparent (by simp) (Token.isTransparent_of_isComment ht)

/-- So the machine goes the same way without them. -/
theorem feedAll_filter_comments (σ : Settings) (m : Machine) (ts : List Token) :
    m.feedAll σ (ts.filter (!·.isComment)) = m.feedAll σ ts := by
  induction ts generalizing m with
  | nil => rfl
  | cons t ts ih =>
    cases ht : t.isComment with
    | true =>
      rw [List.filter_cons_of_neg (by simp [ht]), ih, feedAll, feed_comment ht]
    | false =>
      rw [List.filter_cons_of_pos (by simp [ht]), feedAll, feedAll]
      cases m.feed σ t with
      | error f => rfl
      | ok m' => exact ih m'

/-- Token lists that differ by comments alone have the same rulesets. -/
theorem agree_comments (σ : Settings) {ts us : List Token}
    (h : ts.filter (!·.isComment) = us.filter (!·.isComment)) :
    Agree (ofTokens σ ts) (ofTokens σ us) := by
  intro rs
  rw [ofTokens_eq_ok_iff, ofTokens_eq_ok_iff, ← feedAll_filter_comments σ start ts, h,
    feedAll_filter_comments]

end Ruleset.Machine

namespace Sheet

variable {σ : Settings} {mercator : Bool}

theorem IsBody.condensed {ts : List Token} {es : List Entry} (h : IsBody σ ts es) :
    IsBody σ (significant ts) es := by
  induction h with
  | nil => exact .nil
  | @skip t ts es ht _ ih => simpa [significant, ht] using ih
  | @entry ts us e es he _ ih =>
    rw [significant_append]
    exact .entry ((significant_significant ts).symm ▸ he) ih

theorem IsRun.condensed {run : List Token} {stop : Token} {s : Selector}
    (h : IsRun mercator run stop s) : IsRun mercator (significant run) stop s := by
  obtain ⟨hr, hs⟩ := h
  refine ⟨fun t ht => hr t (List.mem_filter.mp ht).1, ?_⟩
  have hfilter : (significant run).filter (!·.isComment) =
      significant (run.filter (!·.isComment)) := by
    simp only [significant, List.filter_filter, Bool.and_comm]
  rw [hfilter]
  exact Selector.ofTokens_significant hs

theorem IsRuns.condensed {ts : List Token} {ss : List Selector} (h : IsRuns mercator ts ss) :
    IsRuns mercator (significant ts) ss := by
  induction h with
  | nil => exact .nil
  | cons hr hc _ ih =>
    rw [significant_append, significant_cons (Token.isTransparent_of_isChar hc)]
    exact .cons hr.condensed hc ih

theorem IsGroup.condensed {ts : List Token} {ss : List Selector} (h : IsGroup mercator ts ss) :
    IsGroup mercator (significant ts) ss := by
  obtain ⟨hruns, hrun, hb⟩ := h
  rw [significant_append, significant_append, significant_cons (Token.isTransparent_of_isChar hb)]
  exact .mk hruns.condensed hrun.condensed hb

theorem Begins.condensed {ts : List Token} (h : Begins ts) : Begins (significant ts) := by
  obtain ⟨t, us, rfl, ht⟩ := h
  have htr := Ruleset.isTransparent_of_startsSelector ((startsSelector_iff t).mpr ht)
  exact ⟨t, significant us, significant_cons htr us, ht⟩

theorem IsRule.condensed {ts : List Token} {r : Ruleset} (h : IsRule σ ts r) :
    IsRule σ (significant ts) r := by
  obtain ⟨hbegins, hgroup, hbody, hb⟩ := h
  rw [significant_append, significant_append, significant_cons (Token.isTransparent_of_isChar hb)]
  exact .mk hbegins.condensed hgroup.condensed hbody.condensed hb

/-- Without whitespace and comments a sheet of the grammar is one still, with the same rulesets. -/
theorem IsSheet.condensed {ts : List Token} {rs : List Ruleset} (h : IsSheet σ ts rs) :
    IsSheet σ (significant ts) rs := by
  induction h with
  | nil => exact .nil
  | @skip t ts rs ht _ ih => simpa [significant, ht] using ih
  | rule hr _ ih =>
    rw [significant_append]
    exact .rule hr.condensed ih

end Sheet

/-- Comments never matter to what is read, and what is read at all is read the same from the
significant tokens alone. -/
theorem transparent_tokens (σ : Settings) :
    (∀ ts us : List Token, ts.filter (!·.isComment) = us.filter (!·.isComment) →
      (∀ rs, Ruleset.ofTokens σ ts = .ok rs ↔ Ruleset.ofTokens σ us = .ok rs) ∧
      ∀ ds, Declaration.ofTokens σ ts = .ok ds ↔ Declaration.ofTokens σ us = .ok ds) ∧
    ∀ ts : List Token,
      (∀ rs, Ruleset.ofTokens σ ts = .ok rs → Ruleset.ofTokens σ (significant ts) = .ok rs) ∧
      ∀ ds, Declaration.ofTokens σ ts = .ok ds →
        Declaration.ofTokens σ (significant ts) = .ok ds := by
  have hrules : ∀ (ts : List Token) (rs : List Ruleset), Ruleset.ofTokens σ ts = .ok rs →
      Ruleset.ofTokens σ (significant ts) = .ok rs :=
    fun ts rs h => (Sheet.isSheet_of_accepted h).condensed.accepted
  have hdecls := fun ts => (Declaration.matches_ofTokens σ ts).agree
  refine ⟨?_, ?_⟩
  · intro ts us h
    have hagree := Ruleset.Machine.agree_comments σ h
    exact ⟨hagree, (hdecls ts).symm.trans ((hagree.map Cascade.flatten).trans (hdecls us))⟩
  · intro ts
    refine ⟨hrules ts, ?_⟩
    intro ds hds
    obtain ⟨rs, hrs, rfl⟩ := Declaration.flatten_of_ofTokens hds
    rw [← hdecls, hrules ts rs hrs]
    rfl

/-- Comments inside an operator and between names, and whitespace wherever it may stand. -/
theorem transparent_tokens_roads :
    let σ := Settings.standard true
    let ts := Token.scan "Layer/* a */.road[ zoom >/* b */= 11 ] \x7b line-width : 2 ; \x7d"
    (∃ rs, Ruleset.ofTokens σ ts = .ok rs ∧
      Ruleset.ofTokens σ (ts.filter (!·.isComment)) = .ok rs ∧
      Ruleset.ofTokens σ (significant ts) = .ok rs) ∧
    ∃ ds, Declaration.ofTokens σ ts = .ok ds ∧
      Declaration.ofTokens σ (ts.filter (!·.isComment)) = .ok ds ∧
      Declaration.ofTokens σ (significant ts) = .ok ds := by
  intro σ ts
  obtain ⟨hcomments, hall⟩ := transparent_tokens σ
  obtain ⟨hrules, hdecls⟩ := hcomments ts (ts.filter (!·.isComment)) (by simp)
  have hr : (Ruleset.ofTokens σ ts).toBool = true := by decide +kernel
  have hd : (Declaration.ofTokens σ ts).toBool = true := by decide +kernel
  constructor
  · cases h : Ruleset.ofTokens σ ts with
    | error f => rw [h] at hr; cases hr
    | ok rs => exact ⟨rs, rfl, (hrules rs).mp h, (hall ts).1 rs h⟩
  · cases h : Declaration.ofTokens σ ts with
    | error f => rw [h] at hd; cases hd
    | ok ds => exact ⟨ds, rfl, (hdecls ds).mp h, (hall ts).2 ds h⟩

end Cartosheet
