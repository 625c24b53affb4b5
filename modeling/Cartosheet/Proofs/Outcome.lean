import Cartosheet.Proofs.Cursor
import Cartosheet.Ruleset.Reader

namespace Cartosheet

namespace Reading

/-- What comes of a reading that is followed by `k`. -/
def resume {α β : Type} (r : Reading α) (k : α → Cursor → Except Fault β) : Except Fault β :=
  match r with
  | .ok a c => k a c
  | .error f _ => .error f

theorem resume_map {α β γ : Type} (f : α → β) (r : Reading α)
    (k : β → Cursor → Except Fault γ) : resume (map f r) k = resume r fun a => k (f a) := by
  cases r <;> rfl

theorem map_resume {α β γ : Type} (f : β → γ) (r : Reading α) (k : α → Cursor → Except Fault β) :
    (resume r k).map f = resume r fun a c => (k a c).map f := by
  cases r <;> rfl

theorem resume_bind {α β γ : Type} (r : Reader α) (s : α → Reader β) (c : Cursor)
    (k : β → Cursor → Except Fault γ) :
    resume ((r >>= s) c) k = resume (r c) fun a d => resume (s a d) k := by
  change resume (EStateM.bind r s c) k = _
  unfold EStateM.bind
  cases r c <;> rfl

theorem resume_require {γ : Type} (accept : Token → Bool) (wrong missing : Place) (c : Cursor)
    (k : Token → Cursor → Except Fault γ) :
    resume (Reader.require accept wrong missing c) k =
      resume (Reader.expect missing c) fun t d =>
        if accept t then k t d else .error (.unexpected t wrong) := by
  rw [Reader.require, resume_bind]
  congr
  funext t d
  split <;> rfl

end Reading

namespace Ruleset

theorem kind_of_startsSelector {t : Token} (h : startsSelector t = true) :
    t.kind = .identifier ∨ t.kind = .hash ∨ t.kind = .character := by
  simp only [startsSelector, Bool.or_eq_true, decide_eq_true_eq] at h
  rcases h with (((h | h) | h) | h) | h
  · exact .inl h
  · exact .inr (.inl h)
  all_goals exact .inr (.inr (Token.kind_of_isChar h))

theorem isTransparent_of_startsSelector {t : Token} (h : startsSelector t = true) :
    t.isTransparent = false := by
  rcases kind_of_startsSelector h with h | h | h <;> simp [Token.isTransparent, h]

theorem isComment_of_startsSelector {t : Token} (h : startsSelector t = true) :
    t.isComment = false := by
  rcases kind_of_startsSelector h with h | h | h <;> simp [Token.isComment, h]

/-- A token that a selector begins with does not end one. -/
theorem isTerminator_of_startsSelector {t : Token} (h : startsSelector t = true) :
    Selector.isTerminator t = false := by
  simp only [startsSelector, Bool.or_eq_true, decide_eq_true_eq] at h
  rcases h with (((h | h) | h) | h) | h
  · simp [Selector.isTerminator, Token.isChar, h]
  · simp [Selector.isTerminator, Token.isChar, h]
  all_goals simp [Selector.isTerminator, Token.isChar_eq_false h]

end Ruleset

namespace Ruleset.Machine

/-- Where the machine ends up when fed the tokens, the token before them having begun at `last`. -/
def outcome (σ : Settings) (m : Machine) (last : Position) :
    List Token → Except Fault (List Ruleset)
  | [] => m.finish last
  | t :: ts =>
    match m.feed σ t with
    | .error f => .error f
    | .ok m' => m'.outcome σ t.position ts

/-- Where the machine ends up when fed what a cursor still has. -/
def outcomeAt (σ : Settings) (m : Machine) (c : Cursor) : Except Fault (List Ruleset) :=
  m.outcome σ c.last c.pending

theorem outcome_eq_feedAll (σ : Settings) (m : Machine) (last : Position) (ts : List Token) :
    m.outcome σ last ts =
      match m.feedAll σ ts with
      | .error f => .error f
      | .ok m' => m'.finish (Token.lastOr last ts) := by
  induction ts generalizing m last with
  | nil => rfl
  | cons t ts ih =>
    simp only [outcome, feedAll]
    cases m.feed σ t with
    | error f => rfl
    | ok m' => exact ih m' t.position

theorem feedAll_append {σ : Settings} {m m' : Machine} {ts : List Token}
    (h : m.feedAll σ ts = .ok m') (us : List Token) :
    m.feedAll σ (ts ++ us) = m'.feedAll σ us := by
  induction ts generalizing m with
  | nil => cases h; rfl
  | cons t ts ih =>
    simp only [List.cons_append, feedAll] at h ⊢
    cases hf : m.feed σ t with
    | error f => rw [hf] at h; cases h
    | ok m₁ =>
      rw [hf] at h
      exact ih h

theorem outcome_append {σ : Settings} {m m' : Machine} {ts : List Token}
    (h : m.feedAll σ ts = .ok m') (last : Position) (us : List Token) :
    m.outcome σ last (ts ++ us) = m'.outcome σ (Token.lastOr last ts) us := by
  induction ts generalizing m last with
  | nil => cases h; rfl
  | cons t ts ih =>
    simp only [List.cons_append, feedAll, outcome, Token.lastOr] at h ⊢
    cases hf : m.feed σ t with
    | error f => rw [hf] at h; cases h
    | ok m₁ =>
      rw [hf] at h
      exact ih h t.position

/-- Among selectors the machine only gathers until a terminator comes. -/
theorem feedAll_run (σ : Settings) (done : List Ruleset) (ss : List Selector)
    (gathered : List Token) {run : List Token}
    (h : ∀ u ∈ run, Selector.isTerminator u = false) :
    feedAll σ ⟨done, .inSelectors ss gathered⟩ run =
      .ok ⟨done, .inSelectors ss (gathered ++ run.filter (!·.isComment))⟩ := by
  induction run generalizing gathered with
  | nil => simp [feedAll]
  | cons u run ih =>
    have hr : ∀ v ∈ run, Selector.isTerminator v = false := fun v hv => h v (by simp [hv])
    simp only [feedAll, feed, h u (by simp), Bool.false_eq_true, if_false]
    cases hc : u.isComment with
    | true => simpa [hc] using ih gathered hr
    | false => simpa [hc] using ih (gathered ++ [u]) hr

theorem position_getLast (t : Token) (ts : List Token) :
    (ts.getLast?.getD t).position = Token.lastOr t.position ts := by
  induction ts generalizing t with
  | nil => rfl
  | cons u us ih =>
    rw [List.getLast?_cons, Option.getD_some]
    exact ih u

theorem lastPosition_eq_lastOr (ts : List Token) :
    lastPosition ts = Token.lastOr .start ts := by
  cases ts with
  | nil => rfl
  | cons t ts =>
    rw [lastPosition, List.getLast?_cons, Option.map_some, Option.getD_some]
    exact position_getLast t ts

theorem ofTokens_eq_outcome (σ : Settings) (tokens : List Token) :
    ofTokens σ tokens = start.outcomeAt σ { rest := tokens } := by
  simp only [ofTokens, outcomeAt, outcome_eq_feedAll, lastPosition_eq_lastOr]
  rfl

/-- The rulesets of a token list are those complete when the tokens end between rules. -/
theorem ofTokens_eq_ok_iff (σ : Settings) (tokens : List Token) (rs : List Ruleset) :
    ofTokens σ tokens = .ok rs ↔ start.feedAll σ tokens = .ok ⟨rs, .betweenRules⟩ := by
  unfold ofTokens
  cases start.feedAll σ tokens with
  | error f => simp
  | ok m =>
    obtain ⟨done, context⟩ := m
    cases context <;> simp [finish]

/-- The machine with more rulesets behind it. -/
def behind (done : List Ruleset) (m : Machine) : Machine := ⟨done ++ m.done, m.context⟩

/-- What is complete has no part in a step. -/
theorem feed_behind (σ : Settings) (done : List Ruleset) (m : Machine) (t : Token) :
    (m.behind done).feed σ t = (m.feed σ t).map (behind done) := by
  obtain ⟨done', context⟩ := m
  cases context with
  | betweenRules =>
    simp only [feed, behind]
    split
    · rfl
    · split <;> rfl
  | inSelectors ss run =>
    simp only [feed, behind]
    split
    · split
      · rfl
      · split <;> rfl
    · split <;> rfl
  | inBlock ss es =>
    simp only [feed, behind]
    split
    · rfl
    · split
      · simp [Except.map, behind]
      · split <;> rfl
  | inDeclaration ss es draft =>
    simp only [feed, behind]
    split
    · rfl
    · split <;> rfl

/-- Nor in where the machine ends up: it only stands before what is still to be completed. -/
theorem outcome_behind (σ : Settings) (done : List Ruleset) (m : Machine) (last : Position)
    (ts : List Token) :
    (m.behind done).outcome σ last ts = (m.outcome σ last ts).map (done ++ ·) := by
  induction ts generalizing m last with
  | nil =>
    obtain ⟨done', context⟩ := m
    cases context <;> rfl
  | cons t ts ih =>
    simp only [outcome, feed_behind]
    cases m.feed σ t with
    | error f => rfl
    | ok m' => exact ih m' t.position

/-- Outside selectors whitespace and comments leave the machine as it is. -/
theorem feed_transparent {σ : Settings} {m : Machine} {t : Token}
    (hm : ∀ ss run, m.context ≠ .inSelectors ss run) (ht : t.isTransparent = true) :
    m.feed σ t = .ok m := by
  obtain ⟨done, context⟩ := m
  cases context with
  | betweenRules => simp [feed, ht]
  | inSelectors ss run => exact absurd rfl (hm ss run)
  | inBlock ss es => simp [feed, ht]
  | inDeclaration ss es d => simp [feed, ht]

/-- Outside selectors the machine goes on with the next significant token. -/
theorem outcome_dropWhile {σ : Settings} {m : Machine}
    (hm : ∀ ss run, m.context ≠ .inSelectors ss run) (last : Position) (ts : List Token) :
    m.outcome σ last ts =
      match ts.dropWhile Token.isTransparent with
      | [] => m.finish (Token.lastOr last ts)
      | u :: us => m.outcome σ last (u :: us) := by
  induction ts generalizing last with
  | nil => rfl
  | cons t ts ih =>
    cases ht : t.isTransparent with
    | false => rw [List.dropWhile_cons_of_neg (by simp [ht])]
    | true =>
      rw [List.dropWhile_cons_of_pos ht, outcome, feed_transparent hm ht]
      dsimp only
      rw [ih]
      cases ts.dropWhile Token.isTransparent <;> rfl

/-- Outside selectors the machine moves on with the token that a reader would get, and ends where
a reader would find none. -/
theorem outcomeAt_expect {σ : Settings} {m : Machine}
    (hm : ∀ ss run, m.context ≠ .inSelectors ss run) (hb : m.context ≠ .betweenRules)
    (c : Cursor) :
    m.outcomeAt σ c =
      Reading.resume (Reader.expect m.context.place c) fun t d =>
        match m.feed σ t with
        | .error f => .error f
        | .ok m' => m'.outcomeAt σ d := by
  rw [outcomeAt, outcome_dropWhile hm]
  cases h : c.pending.dropWhile Token.isTransparent with
  | nil =>
    rw [Reader.expect_nil h]
    obtain ⟨done, context⟩ := m
    cases context with
    | betweenRules => exact absurd rfl hb
    | inSelectors ss run => exact absurd rfl (hm ss run)
    | inBlock ss es => rfl
    | inDeclaration ss es d => rfl
  | cons t ts =>
    rw [Reader.expect_cons h]
    rfl

/-- Where the machine ends up after a step of the declaration it is in. -/
def outcomeAfter (σ : Settings) (done : List Ruleset) (ss : List Selector) (es : List Entry)
    (step : Except Fault (Draft ⊕ Entry)) (c : Cursor) : Except Fault (List Ruleset) :=
  match step with
  | .error f => .error f
  | .ok (.inl draft) => outcomeAt σ ⟨done, .inDeclaration ss es draft⟩ c
  | .ok (.inr e) => outcomeAt σ ⟨done, .inBlock ss (es ++ [e])⟩ c

section

variable (σ : Settings) (done : List Ruleset) (ss : List Selector) (es : List Entry)

theorem outcomeAt_draft (draft : Draft) (c : Cursor) :
    outcomeAt σ ⟨done, .inDeclaration ss es draft⟩ c =
      Reading.resume (Reader.expect .insideDeclaration c) fun t d =>
        outcomeAfter σ done ss es (draft.feed σ t) d := by
  rw [outcomeAt_expect (by simp) (by simp)]
  cases h : Reader.expect .insideDeclaration c with
  | error f d => simp only [Context.place, h]; rfl
  | ok t d =>
    simp only [Context.place, h, Reading.resume, feed, Reader.isTransparent_of_expect h,
      Bool.false_eq_true, if_false]
    cases draft.feed σ t with
    | error f => rfl
    | ok next => cases next <;> rfl

/-- After `!` the machine and the reader ask for the same two tokens. -/
theorem outcomeAt_bang (name : Token) (p : Property) (value : List Token) (c : Cursor) :
    outcomeAt σ ⟨done, .inDeclaration ss es (.valued name p value .bang)⟩ c =
      Reading.resume (Entry.readImportant c) fun _ d =>
        outcomeAfter σ done ss es ((Entry.build p name value true).map .inr) d := by
  rw [outcomeAt_draft, Entry.readImportant, Reading.resume_bind, Reading.resume_require]
  congr
  funext t d
  simp only [Draft.feed]
  split
  · rw [outcomeAfter, outcomeAt_draft, Reading.resume_bind, Reading.resume_require]
    congr
    funext u e
    simp only [Draft.feed]
    split <;> rfl
  · rfl

/-- A value gathered token by token is the one read at once. -/
theorem outcomeAt_value (name : Token) (p : Property) (value : List Token) (c : Cursor) :
    outcomeAt σ ⟨done, .inDeclaration ss es (.valued name p value .none)⟩ c =
      Reading.resume (Entry.readValue c) fun v d =>
        outcomeAfter σ done ss es ((Entry.build p name (value ++ v.1) v.2).map .inr) d := by
  rw [outcomeAt_draft]
  -- the induction is on the reader's own recursion; what the machine has gathered grows with it
  fun_induction Entry.readValue c generalizing value with
  | case1 c f d h =>
    rw [h]
    rfl
  | case2 c t d h semi =>
    rw [h]
    simp [Reading.resume, Draft.feed, semi]
  | case3 c t d h semi bang =>
    rw [h, Reading.resume_map]
    simpa [Reading.resume, Draft.feed, semi, bang, outcomeAfter] using
      outcomeAt_bang σ done ss es name p value d
  | case4 c t d h semi bang brace =>
    rw [h]
    simp only [Reading.resume, Draft.feed, semi, bang, brace]
    rfl
  | case5 c t d h semi bang brace ih =>
    rw [h, Reading.resume_map]
    have hi := ih (value ++ [t])
    rw [← outcomeAt_draft] at hi
    simpa [Reading.resume, Draft.feed, semi, bang, brace, outcomeAfter] using hi

/-- From a property's name on, the machine and the reader of one entry agree. -/
theorem outcomeAt_named (name : Token) (c : Cursor) :
    outcomeAt σ ⟨done, .inDeclaration ss es (.named name)⟩ c =
      Reading.resume (Entry.readAfter σ name c) fun e d =>
        outcomeAt σ ⟨done, .inBlock ss (es ++ [e])⟩ d := by
  rw [outcomeAt_draft, Entry.readAfter, Reading.resume_bind, Reading.resume_require]
  congr
  funext t d
  simp only [Draft.feed]
  split
  · cases σ.registry.find? name.text with
    | none => rfl
    | some p =>
      refine Eq.trans ?_ (Reading.resume_bind Entry.readValue _ d _).symm
      rw [outcomeAfter, outcomeAt_value]
      congr
      funext v e
      rw [List.nil_append]
      cases Entry.build p name v.1 v.2 <;> rfl
  · rfl

/-- From its `{` on, the machine takes a block to the end that the reader of blocks takes it to. -/
theorem outcomeAt_block (c : Cursor) :
    outcomeAt σ ⟨done, .inBlock ss es⟩ c =
      Reading.resume (Entry.readBlock σ c) fun es' d =>
        outcomeAt σ ⟨done ++ [⟨ss, es ++ es'⟩], .betweenRules⟩ d := by
  rw [outcomeAt_expect (by simp) (by simp)]
  simp only [Context.place]
  fun_induction Entry.readBlock σ c generalizing es with
  | case1 c f d h =>
    rw [h]
    rfl
  | case2 c t d h close =>
    rw [h]
    simp [Reading.resume, feed, Reader.isTransparent_of_expect h, close]
  | case3 c t d h close word f e he =>
    rw [h]
    simp [Reading.resume, feed, Reader.isTransparent_of_expect h, close, word, outcomeAt_named, he]
  | case4 c t d h close word entry e he ih =>
    rw [h, Reading.resume_map]
    have hi := ih (es ++ [entry])
    simp only [List.append_assoc, List.singleton_append] at hi
    rw [← hi]
    simp only [Reading.resume, feed, Reader.isTransparent_of_expect h, close, word,
      outcomeAt_named, he, Bool.false_eq_true, if_false, if_true]
    exact outcomeAt_expect (by simp) (by simp) e
  | case5 c t d h close word =>
    rw [h]
    simp [Reading.resume, feed, Reader.isTransparent_of_expect h, close, word]

end

end Ruleset.Machine

end Cartosheet
