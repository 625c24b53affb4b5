import Cartosheet.Proofs.Advance
import Cartosheet.Proofs.Outcome
import Cartosheet.Proofs.SelectorFault

namespace Cartosheet

/-- Two results that succeed alike; their faults may differ. -/
def Agree {α : Type} (x y : Except Fault α) : Prop := ∀ a, x = .ok a ↔ y = .ok a

namespace Agree

variable {α β : Type}

theorem of_eq {x y : Except Fault α} (h : x = y) : Agree x y := by
  intro a
  rw [h]

theorem trans {x y z : Except Fault α} (h : Agree x y) (h' : Agree y z) : Agree x z :=
  fun a => (h a).trans (h' a)

theorem symm {x y : Except Fault α} (h : Agree x y) : Agree y x :=
  fun a => (h a).symm

theorem errors (f g : Fault) : Agree (.error f : Except Fault α) (.error g) := by
  intro a
  simp

theorem map {x y : Except Fault α} (f : α → β) (h : Agree x y) : Agree (x.map f) (y.map f) := by
  cases x with
  | ok a =>
    rw [(h a).mp rfl]
    exact of_eq rfl
  | error e =>
    cases y with
    | error e' => exact errors e e'
    | ok a => cases (h a).mpr rfl

end Agree

/-- The outcome `x` of the machine against the outcome `y` of the reader: they succeed alike, they
fault alike in a block, and where the machine faults by more than syntax, the reader does too. -/
structure Matches {α : Type} (x y : Except Fault α) : Prop where
  agree : Agree x y
  inBlock : ∀ f : Fault, f.inBlock = true → (x = .error f ↔ y = .error f)
  meaning : ∀ f : Fault, f.isSyntax = false → x = .error f → y = .error f

namespace Matches

variable {α β : Type}

theorem of_eq {x y : Except Fault α} (h : x = y) : Matches x y := by
  subst h
  exact ⟨.of_eq rfl, fun _ _ => Iff.rfl, fun _ _ => id⟩

theorem trans {x y z : Except Fault α} (h : Matches x y) (h' : Matches y z) : Matches x z :=
  ⟨h.agree.trans h'.agree, fun f hf => (h.inBlock f hf).trans (h'.inBlock f hf),
    fun f hf hx => h'.meaning f hf (h.meaning f hf hx)⟩

/-- Two faults outside blocks match unless the first is more than syntax and not the second. -/
theorem errors {f g : Fault} (hf : f.inBlock = false) (hg : g.inBlock = false)
    (h : f.isSyntax = false → g = f) : Matches (.error f : Except Fault α) (.error g) := by
  refine ⟨.errors f g, ?_, ?_⟩
  · intro e he
    have hfe : f ≠ e := by
      rintro rfl
      rw [hf] at he
      cases he
    have hge : g ≠ e := by
      rintro rfl
      rw [hg] at he
      cases he
    simp [hfe, hge]
  · intro e he hx
    cases hx
    rw [h he]

theorem map {x y : Except Fault α} (k : α → β) (h : Matches x y) :
    Matches (x.map k) (y.map k) := by
  have herr (z : Except Fault α) (f : Fault) : z.map k = .error f ↔ z = .error f := by
    cases z <;> simp [Except.map]
  refine ⟨h.agree.map k, ?_, ?_⟩
  · intro f hf
    rw [herr, herr]
    exact h.inBlock f hf
  · intro f hf
    rw [herr, herr]
    exact h.meaning f hf

theorem resume {r : Reading α} {k l : α → Cursor → Except Fault β}
    (h : ∀ a d, r = .ok a d → Matches (k a d) (l a d)) :
    Matches (Reading.resume r k) (Reading.resume r l) := by
  cases r with
  | error f d => exact .of_eq rfl
  | ok a d => exact h a d rfl

end Matches

namespace Selector

/-- Without a terminator to come, no selector ends. -/
theorem read_unended {mercator : Bool} {c d : Cursor} {s : Selector} {t : Token}
    (hp : ∀ u ∈ c.pending, isTerminator u = false) :
    read mercator c ≠ .ok (s, some t) d := by
  intro h
  cases hr : readItems [] none c with
  | error f e => rw [read, hr] at h; cases h
  | ok r e =>
    rw [read_of_items hr] at h
    split at h
    · cases h
    · simp only [EStateM.Result.ok.injEq, Prod.mk.injEq] at h
      obtain ⟨hm, ht⟩ := terminator_of_readItems hr h.1.2
      rw [hp t hm] at ht
      cases ht

theorem readGroup_of_read {mercator : Bool} {c d : Cursor} {s : Selector} {t : Token}
    (h : read mercator c = .ok (s, some t) d) :
    readGroup mercator c =
      if t.isChar ',' then Reading.map (s :: ·) (readGroup mercator d) else .ok [s] d := by
  rw [readGroup.eq_def]
  split <;> rename_i hr <;> rw [h] at hr <;> cases hr
  rfl

theorem readGroup_of_read_error {mercator : Bool} {c d : Cursor} {f : Fault}
    (h : read mercator c = .error f d) : readGroup mercator c = .error f d := by
  rw [readGroup.eq_def]
  split <;> rename_i hr <;> rw [h] at hr <;> cases hr
  rfl

theorem readGroup_unended {mercator : Bool} {c : Cursor}
    (hp : ∀ u ∈ c.pending, isTerminator u = false) :
    ∃ f d, readGroup mercator c = .error f d := by
  rw [readGroup.eq_def]
  split
  · rename_i f d _
    exact ⟨f, d, rfl⟩
  · rename_i d _
    exact ⟨_, d, rfl⟩
  · rename_i h
    exact absurd h (read_unended hp)

/-- No selector is read from a token that none can begin with. -/
theorem read_of_stray (mercator : Bool) {c d : Cursor} {t : Token}
    (h : c.nextSignificant = (some t, d)) (ht : Ruleset.startsSelector t = false) :
    ∃ f e, read mercator c = .error f e := by
  simp only [Ruleset.startsSelector, Bool.or_eq_false_iff, decide_eq_false_iff_not] at ht
  obtain ⟨⟨⟨⟨hi, hh⟩, hu⟩, hd⟩, hb⟩ := ht
  have hn := readItems_of_next [] none h
  cases hterm : isTerminator t with
  | true =>
    rw [hterm, if_pos rfl] at hn
    exact ⟨_, d, read_of_items hn⟩
  | false =>
    have hitem : readItem [] t d = .error (.unexpected t .inSelector) d := by
      simp only [readItem, hi, hh, hu, hd, hb, if_false, Bool.false_eq_true]
      rfl
    rw [hterm, hitem] at hn
    exact ⟨.unexpected t .inSelector, d, by rw [read, hn]; rfl⟩

/-- A list has its first terminator somewhere, or none. -/
theorem split_run (ts : List Token) :
    (∀ u ∈ ts, isTerminator u = false) ∨
      ∃ run t rest, ts = run ++ t :: rest ∧ isTerminator t = true ∧
        ∀ u ∈ run, isTerminator u = false := by
  cases h : ts.dropWhile (!isTerminator ·) with
  | nil =>
    rw [List.dropWhile_eq_nil_iff] at h
    exact .inl fun u hu => by simpa using h u hu
  | cons t rest =>
    have ht := Token.not_skipped_of_dropWhile h
    refine .inr ⟨ts.takeWhile (!isTerminator ·), t, rest, ?_, by simpa using ht, ?_⟩
    · rw [← h, List.takeWhile_append_dropWhile]
    · intro u hu
      simpa using List.mem_takeWhile_imp hu

end Selector

namespace Ruleset.Machine

theorem outcome_unended (σ : Settings) (done : List Ruleset) (ss : List Selector)
    (last : Position) {ts : List Token} (h : ∀ u ∈ ts, Selector.isTerminator u = false) :
    outcome σ ⟨done, .inSelectors ss []⟩ last ts =
      .error (.unexpectedEnd .insideSelector (Token.lastOr last ts)) := by
  have ho := outcome_append (feedAll_run σ done ss [] h) last []
  rw [List.append_nil] at ho
  exact ho

/-- At the terminator the machine reads what it has gathered as one selector. -/
theorem outcome_run (σ : Settings) (done : List Ruleset) (ss : List Selector) (last : Position)
    {run : List Token} {t : Token} (rest : List Token)
    (hr : ∀ u ∈ run, Selector.isTerminator u = false) (ht : Selector.isTerminator t = true) :
    outcome σ ⟨done, .inSelectors ss []⟩ last (run ++ t :: rest) =
      match Selector.ofTokens σ.mercator (run.filter (!·.isComment)) t.position with
      | .error f => .error f
      | .ok s =>
        if t.isChar '{' then outcome σ ⟨done, .inBlock (ss ++ [s]) []⟩ t.position rest
        else outcome σ ⟨done, .inSelectors (ss ++ [s]) []⟩ t.position rest := by
  rw [outcome_append (feedAll_run σ done ss [] hr)]
  simp only [List.nil_append, outcome, feed, ht, if_true]
  cases Selector.ofTokens σ.mercator (run.filter (!·.isComment)) t.position with
  | error f => rfl
  | ok s => cases t.isChar '{' <;> rfl

/-- The machine and the reader accept the same groups of selectors before a block. -/
theorem matches_group (σ : Settings) (done : List Ruleset) (ss : List Selector) (c : Cursor) :
    Matches (outcomeAt σ ⟨done, .inSelectors ss []⟩ c)
      (Reading.resume (Selector.readGroup σ.mercator c) fun ss' d =>
        outcomeAt σ ⟨done, .inBlock (ss ++ ss') []⟩ d) := by
  rcases Selector.split_run c.pending with hp | ⟨run, t, rest, hp, ht, hr⟩
  · obtain ⟨g, d, hg⟩ := Selector.readGroup_unended hp
    rw [outcomeAt, outcome_unended σ done ss c.last hp, hg]
    exact .errors rfl (Selector.fault_readGroup hg) (by simp [Fault.isSyntax])
  · have hread := Selector.read_of_run σ.mercator ht hr hp
    have hout := outcome_run σ done ss c.last rest hr ht
    rw [outcomeAt, hp, hout]
    cases ho : Selector.ofTokens σ.mercator (run.filter (!·.isComment)) t.position with
    | error f =>
      obtain ⟨hf, g, d, hg, hsame⟩ := Selector.fault_of_run ht hr hp ho
      rw [Selector.readGroup_of_read_error hg]
      exact .errors hf (Selector.fault_read hg) hsame
    | ok s =>
      rw [ho] at hread
      obtain ⟨d, hd, hrest, hlast⟩ := hread
      rw [Selector.readGroup_of_read hd, ← hrest, ← hlast]
      simp only [Selector.isTerminator, Bool.or_eq_true] at ht
      rcases ht with ht | ht
      · have hb : t.isChar '{' = false := Token.isChar_eq_false ht (by decide)
        simp only [ht, hb, if_true, Reading.resume_map]
        have hs : d.size < c.size := Selector.size_read_terminator hd
        have ih := matches_group σ done (ss ++ [s]) d
        simp only [List.append_assoc, List.singleton_append] at ih
        exact ih
      · have hb : t.isChar ',' = false := Token.isChar_eq_false ht (by decide)
        simp only [ht, hb, if_true]
        exact .of_eq rfl
termination_by c.size

/-- From its first token on, a rule is to the machine what it is to the readers of its group and its
block. -/
theorem matches_rule (σ : Settings) {c : Cursor} {t : Token} {ts : List Token}
    (h : c.pending.dropWhile Token.isTransparent = t :: ts) :
    Matches (outcomeAt σ ⟨[], .betweenRules⟩ c)
      (Reading.resume (Selector.readGroup σ.mercator ((c.past t ts).putBack t)) fun ss d =>
        Reading.resume (Entry.readBlock σ d) fun es e =>
          (outcomeAt σ ⟨[], .betweenRules⟩ e).map (⟨ss, es⟩ :: ·)) := by
  have htr : t.isTransparent = false := Token.not_skipped_of_dropWhile h
  have hstart : outcomeAt σ ⟨[], .betweenRules⟩ c =
      outcome σ ⟨[], .betweenRules⟩ c.last (t :: ts) := by
    rw [outcomeAt, outcome_dropWhile (by simp), h]
  cases hs : startsSelector t with
  | false =>
    obtain ⟨f, d, hf⟩ := Selector.read_of_stray σ.mercator (c := (c.past t ts).putBack t)
      (Cursor.nextPast_cons (List.dropWhile_cons_of_neg (by simp [htr]))) hs
    rw [hstart, Selector.readGroup_of_read_error hf]
    simp only [outcome, feed, htr, hs, Bool.false_eq_true, if_false]
    exact .errors rfl (Selector.fault_read hf) (by simp [Fault.isSyntax])
  | true =>
    have hg : outcomeAt σ ⟨[], .betweenRules⟩ c =
        outcomeAt σ ⟨[], .inSelectors [] []⟩ ((c.past t ts).putBack t) := by
      rw [hstart, outcomeAt, Cursor.pending_putBack_past]
      simp [outcome, feed, htr, hs, isTerminator_of_startsSelector hs,
        isComment_of_startsSelector hs]
    rw [hg]
    refine (matches_group σ [] [] _).trans (.resume fun ss d _ => .of_eq ?_)
    rw [outcomeAt_block]
    congr
    funext es e
    exact outcome_behind σ [⟨ss, es⟩] ⟨[], .betweenRules⟩ e.last e.pending

end Ruleset.Machine

namespace Declaration

section

variable {β : Type}

/-- A rule is a group and a block, from the first significant token on. -/
theorem resume_readRule (σ : Settings) {c : Cursor} {t : Token} {ts : List Token}
    (h : c.pending.dropWhile Token.isTransparent = t :: ts)
    (k : Option (List Declaration) → Cursor → Except Fault β) :
    Reading.resume (readRule σ c) k =
      Reading.resume (Selector.readGroup σ.mercator ((c.past t ts).putBack t)) fun ss d =>
        Reading.resume (Entry.readBlock σ d) fun es e => k (some (crossProduct ss es)) e := by
  rw [readRule, Cursor.nextSignificant, Cursor.nextPast_cons h]
  dsimp only
  cases Selector.readGroup σ.mercator ((c.past t ts).putBack t) with
  | error f d => rfl
  | ok ss d => exact Reading.resume_map _ _ _

/-- The rules are the first rule and those after it. -/
theorem resume_readRules (σ : Settings) (c : Cursor)
    (k : List Declaration → Cursor → Except Fault β) :
    Reading.resume (readRules σ c) k =
      Reading.resume (readRule σ c) fun rule d =>
        match rule with
        | none => k [] d
        | some ds => Reading.resume (readRules σ d) fun ds' => k (ds ++ ds') := by
  rw [readRules.eq_def]
  split <;> rename_i hr <;> rw [hr]
  · rfl
  · rfl
  · exact Reading.resume_map _ _ _

end

/-- The rules of a sheet, one after another, are to the machine what they are to the reader. -/
theorem matches_readRules (σ : Settings) (c : Cursor) :
    Matches ((Ruleset.Machine.outcomeAt σ ⟨[], .betweenRules⟩ c).map
        (·.flatMap Ruleset.declarations))
      (Reading.resume (readRules σ c) fun ds _ => .ok ds) := by
  rw [resume_readRules]
  cases h : c.pending.dropWhile Token.isTransparent with
  | nil =>
    rw [Ruleset.Machine.outcomeAt, Ruleset.Machine.outcome_dropWhile (by simp), h, readRule,
      Cursor.nextSignificant, Cursor.nextPast_nil h]
    exact .of_eq rfl
  | cons t ts =>
    rw [resume_readRule σ h]
    refine ((Ruleset.Machine.matches_rule σ h).map _).trans ?_
    simp only [Reading.map_resume]
    refine .resume fun ss d hg => .resume fun es e hb => ?_
    have hrule : readRule σ c = .ok (some (crossProduct ss es)) e := by
      rw [readRule, Cursor.nextSignificant, Cursor.nextPast_cons h]
      simp only [hg, hb, Reading.map]
    have hs : e.size < c.size := size_readRule hrule
    have ih := (matches_readRules σ e).map (crossProduct ss es ++ ·)
    rw [Reading.map_resume] at ih
    refine Matches.trans (.of_eq ?_) ih
    cases Ruleset.Machine.outcomeAt σ ⟨[], .betweenRules⟩ e <;> rfl
termination_by c.size

/-- The declarations of a token list against those of its rulesets. -/
theorem matches_ofTokens (σ : Settings) (tokens : List Token) :
    Matches ((Ruleset.ofTokens σ tokens).map Cascade.flatten) (ofTokens σ tokens) := by
  have h := (matches_readRules σ { rest := tokens }).map Cascade.sort
  rw [Reading.map_resume] at h
  rw [Ruleset.Machine.ofTokens_eq_outcome, Ruleset.Machine.start, ofTokens]
  refine Matches.trans (.of_eq ?_) (h.trans (.of_eq ?_))
  · cases Ruleset.Machine.outcomeAt σ ⟨[], .betweenRules⟩ { rest := tokens } with
    | error f => rfl
    | ok rs => rfl
  · cases readRules σ { rest := tokens } with
    | error f d => rfl
    | ok ds d => rfl

/-- Declarations that were read stem from rulesets. -/
theorem flatten_of_ofTokens {σ : Settings} {tokens : List Token} {ds : List Declaration}
    (h : ofTokens σ tokens = .ok ds) :
    ∃ rs, Ruleset.ofTokens σ tokens = .ok rs ∧ Cascade.flatten rs = ds := by
  rw [← (matches_ofTokens σ tokens).agree ds] at h
  cases hr : Ruleset.ofTokens σ tokens with
  | error f => rw [hr] at h; cases h
  | ok rs =>
    rw [hr] at h
    exact ⟨rs, rfl, Except.ok.inj h⟩

end Declaration

/-- A token list has declarations exactly if it has rulesets, and they are those of the rulesets in
cascade order. -/
theorem declarations_of_rulesets (σ : Settings) (tokens : List Token) (ds : List Declaration) :
    Declaration.ofTokens σ tokens = .ok ds ↔
      ∃ rs, Ruleset.ofTokens σ tokens = .ok rs ∧ Cascade.flatten rs = ds := by
  constructor
  · exact Declaration.flatten_of_ofTokens
  · rintro ⟨rs, hrs, rfl⟩
    have hagree := (Declaration.matches_ofTokens σ tokens).agree (Cascade.flatten rs)
    rw [hrs] at hagree
    exact hagree.mp rfl

end Cartosheet
