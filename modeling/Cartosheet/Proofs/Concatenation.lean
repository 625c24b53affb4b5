import Cartosheet.Proofs.Calls
import Cartosheet.Proofs.Precedence

namespace Cartosheet

namespace Ruleset

/-- Between rules it does not matter where the last token was. -/
theorem Machine.outcome_start (σ : Settings) (last : Position) (ts : List Token) :
    start.outcome σ last ts = start.outcome σ .start ts := by
  cases ts <;> rfl

theorem ofTokens_append {σ : Settings} {ts : List Token} {rs : List Ruleset}
    (h : ofTokens σ ts = .ok rs) (us : List Token) :
    ofTokens σ (ts ++ us) = (ofTokens σ us).map (rs ++ ·) := by
  rw [Machine.ofTokens_eq_ok_iff] at h
  have hbehind : (⟨rs, .betweenRules⟩ : Machine) = Machine.start.behind rs := by
    simp [Machine.behind, Machine.start]
  calc ofTokens σ (ts ++ us)
      = Machine.start.outcome σ .start (ts ++ us) := Machine.ofTokens_eq_outcome σ (ts ++ us)
    _ = Machine.outcome σ ⟨rs, .betweenRules⟩ (Token.lastOr .start ts) us :=
        Machine.outcome_append h .start us
    _ = (Machine.start.outcome σ (Token.lastOr .start ts) us).map (rs ++ ·) := by
        rw [hbehind, Machine.outcome_behind]
    _ = (Machine.start.outcome σ .start us).map (rs ++ ·) := by rw [Machine.outcome_start]
    _ = (ofTokens σ us).map (rs ++ ·) := by
        rw [Machine.ofTokens_eq_outcome]
        rfl

end Ruleset

theorem Reading.map_eq_ok {α β : Type} {k : α → β} {x : Reading α} {b : β} {d : Cursor} :
    Reading.map k x = .ok b d ↔ ∃ a, x = .ok a d ∧ k a = b := by
  constructor
  · intro h
    cases x with
    | ok a e =>
      cases h
      exact ⟨a, rfl, rfl⟩
    | error f e => cases h
  · rintro ⟨a, rfl, rfl⟩
    rfl

/-- The tokens to come are those of `c`, and then more. -/
def Cursor.Extends (more : List Token) (c b : Cursor) : Prop := b.pending = c.pending ++ more

theorem Cursor.Extends.dropWhile {skip : Token → Bool} {more ts : List Token} {c b : Cursor}
    {t : Token} (h : Extends more c b) (hd : c.pending.dropWhile skip = t :: ts) :
    b.pending.dropWhile skip = t :: (ts ++ more) := by
  rw [h, List.dropWhile_append, hd]
  rfl

namespace Reader

variable {α β : Type}

/-- What the reader gives, it gives with more tokens behind too, and leaves these. -/
def Local (r : Reader α) : Prop :=
  ∀ more c b a d, Cursor.Extends more c b → r c = .ok a d →
    ∃ e, r b = .ok a e ∧ Cursor.Extends more d e

theorem Local.pure (a : α) : Local (Pure.pure a : Reader α) := by
  intro more c b a' d h hr
  cases hr
  exact ⟨b, rfl, h⟩

theorem Local.throw (f : Fault) : Local (MonadExcept.throw f : Reader α) := by
  intro more c b a d h hr
  cases hr

theorem Local.bind {r : Reader α} {k : α → Reader β} (hr : Local r) (hk : ∀ a, Local (k a)) :
    Local (r >>= k) := by
  intro more c b x d h hx
  obtain ⟨a, c', hc, ha⟩ := bind_eq_ok.mp hx
  obtain ⟨b', hb, h'⟩ := hr more c b a c' h hc
  obtain ⟨e, he, h''⟩ := hk a more c' b' x d h' ha
  exact ⟨e, bind_eq_ok.mpr ⟨a, b', hb, he⟩, h''⟩

theorem local_expect (place : Place) : Local (expect place) := by
  intro more c b t d h ht
  cases hd : c.pending.dropWhile Token.isTransparent with
  | nil =>
    rw [expect_nil hd] at ht
    cases ht
  | cons u us =>
    rw [expect_cons hd] at ht
    cases ht
    exact ⟨_, expect_cons (h.dropWhile hd), rfl⟩

theorem local_require (accept : Token → Bool) (wrong missing : Place) :
    Local (require accept wrong missing) := by
  refine (local_expect missing).bind fun t => ?_
  split
  · exact .pure t
  · exact .throw _

end Reader

namespace Entry

theorem local_readImportant : Reader.Local readImportant :=
  (Reader.local_require _ _ _).bind fun _ => (Reader.local_require _ _ _).bind fun _ => .pure _

/-- The reading of a value by its first token. -/
theorem readValue_of_expect {c d : Cursor} {t : Token}
    (h : Reader.expect .insideDeclaration c = .ok t d) :
    readValue c =
      if t.isChar ';' then .ok ([], false) d
      else if t.isChar '!' then Reading.map (fun _ => ([], true)) (readImportant d)
      else if t.isChar '{' || t.isChar '}' then .error (.unexpected t .declarationValue) d
      else Reading.map (fun v => (t :: v.1, v.2)) (readValue d) := by
  rw [readValue.eq_def]
  split <;> rename_i hx <;> rw [h] at hx <;> cases hx
  rfl

theorem local_readValue : Reader.Local readValue := by
  intro more c b v d h hv
  fun_induction readValue c generalizing b v with
  | case1 => cases hv
  | case2 c t d hx semi =>
    cases hv
    obtain ⟨e, he, h₁⟩ := Reader.local_expect _ more c b t d h hx
    exact ⟨e, by rw [readValue_of_expect he, if_pos semi], h₁⟩
  | case3 c t d hx semi bang =>
    obtain ⟨u, hu, rfl⟩ := Reading.map_eq_ok.mp hv
    obtain ⟨b₁, hb₁, h₁⟩ := Reader.local_expect _ more c b t d h hx
    obtain ⟨e, he, h₂⟩ := local_readImportant more d b₁ u _ h₁ hu
    refine ⟨e, ?_, h₂⟩
    rw [readValue_of_expect hb₁, if_neg semi, if_pos bang, he]
    rfl
  | case4 => cases hv
  | case5 c t d hx semi bang brace ih =>
    obtain ⟨v', hv', rfl⟩ := Reading.map_eq_ok.mp hv
    obtain ⟨b₁, hb₁, h₁⟩ := Reader.local_expect _ more c b t d h hx
    obtain ⟨e, he, h₂⟩ := ih b₁ v' h₁ hv'
    refine ⟨e, ?_, h₂⟩
    rw [readValue_of_expect hb₁, if_neg semi, if_neg bang, if_neg brace, he]
    rfl

theorem local_readAfter (σ : Settings) (name : Token) : Reader.Local (readAfter σ name) := by
  refine (Reader.local_require _ _ _).bind fun _ => ?_
  split
  · exact .throw _
  · refine local_readValue.bind fun v => ?_
    dsimp only
    split
    · exact .throw _
    · exact .pure _

/-- The reading of a block by its first token. -/
theorem readBlock_of_expect (σ : Settings) {c d : Cursor} {t : Token}
    (h : Reader.expect .insideBlock c = .ok t d) :
    readBlock σ c =
      if t.isChar '}' then .ok [] d
      else if t.kind = .identifier then
        match readAfter σ t d with
        | .error f e => .error f e
        | .ok entry e => Reading.map (entry :: ·) (readBlock σ e)
      else .error (.unexpected t .beforeProperty) d := by
  rw [readBlock.eq_def]
  split <;> rename_i hx <;> rw [h] at hx <;> cases hx
  split
  · rfl
  split
  · split <;> rename_i he <;> rw [he]
  · rfl

theorem local_readBlock (σ : Settings) : Reader.Local (readBlock σ) := by
  intro more c b es d h hes
  fun_induction readBlock σ c generalizing b es with
  | case1 => cases hes
  | case2 c t d hx close =>
    cases hes
    obtain ⟨e, he, h₁⟩ := Reader.local_expect _ more c b t d h hx
    exact ⟨e, by rw [readBlock_of_expect σ he, if_pos close], h₁⟩
  | case3 => cases hes
  | case4 c t d hx close word entry c' hafter ih =>
    obtain ⟨es', hes', rfl⟩ := Reading.map_eq_ok.mp hes
    obtain ⟨b₁, hb₁, h₁⟩ := Reader.local_expect _ more c b t d h hx
    obtain ⟨b₂, hb₂, h₂⟩ := local_readAfter σ t more d b₁ entry c' h₁ hafter
    obtain ⟨e, he, h₃⟩ := ih b₂ es' h₂ hes'
    refine ⟨e, ?_, h₃⟩
    rw [readBlock_of_expect σ hb₁, if_neg close, if_pos word, hb₂]
    dsimp only
    rw [he]
    rfl
  | case5 => cases hes

end Entry

namespace Selector

/-- A selector that was read is that of the run before its terminator, whatever comes behind. -/
theorem read_extends {mercator : Bool} {more : List Token} {c b d : Cursor} {s : Selector}
    {t : Token} (h : Cursor.Extends more c b) (hr : read mercator c = .ok (s, some t) d) :
    ∃ e, read mercator b = .ok (s, some t) e ∧ Cursor.Extends more d e := by
  rcases split_run c.pending with hp | ⟨run, u, rest, hp, hu, hrun⟩
  · exact absurd hr (read_unended hp)
  · have hb : b.pending = run ++ u :: (rest ++ more) := by rw [h, hp]; simp
    have hreadc := read_of_run mercator hu hrun hp
    have hreadb := read_of_run mercator hu hrun hb
    cases ho : ofTokens mercator (run.filter (!·.isComment)) u.position with
    | error f =>
      rw [ho] at hreadc
      obtain ⟨g, d', hd'⟩ := hreadc
      rw [hd'] at hr
      cases hr
    | ok s' =>
      rw [ho] at hreadc hreadb
      obtain ⟨d', hd', hrest, -⟩ := hreadc
      obtain ⟨e, he, hmore, -⟩ := hreadb
      rw [hd'] at hr
      cases hr
      exact ⟨e, he, by rw [Cursor.Extends, hmore, hrest]⟩

theorem local_readGroup (mercator : Bool) : Reader.Local (readGroup mercator) := by
  intro more c b ss d h hss
  fun_induction readGroup mercator c generalizing b ss with
  | case1 => cases hss
  | case2 => cases hss
  | case3 c s t c' hr comma ih =>
    obtain ⟨ss', hss', rfl⟩ := Reading.map_eq_ok.mp hss
    obtain ⟨b₁, hb₁, h₁⟩ := read_extends h hr
    obtain ⟨e, he, h₂⟩ := ih b₁ ss' h₁ hss'
    refine ⟨e, ?_, h₂⟩
    rw [readGroup_of_read hb₁, if_pos comma, he]
    rfl
  | case4 c s t c' hr comma =>
    cases hss
    obtain ⟨e, he, h₁⟩ := read_extends h hr
    exact ⟨e, by rw [readGroup_of_read he, if_neg comma], h₁⟩

end Selector

namespace Declaration

variable {σ : Settings}

/-- A rule is read to its `}` and no further. -/
theorem readRule_extends {more : List Token} {c b d : Cursor} {ds : List Declaration}
    (h : Cursor.Extends more c b) (hr : readRule σ c = .ok (some ds) d) :
    ∃ e, readRule σ b = .ok (some ds) e ∧ Cursor.Extends more d e := by
  cases hd : c.pending.dropWhile Token.isTransparent with
  | nil =>
    rw [readRule, Cursor.nextSignificant, Cursor.nextPast_nil hd] at hr
    cases hr
  | cons t ts =>
    rw [readRule, Cursor.nextSignificant, Cursor.nextPast_cons hd] at hr
    dsimp only at hr
    cases hg : Selector.readGroup σ.mercator ((c.past t ts).putBack t) with
    | error f c' =>
      rw [hg] at hr
      cases hr
    | ok ss c' =>
      rw [hg] at hr
      obtain ⟨es, hes, hds⟩ := Reading.map_eq_ok.mp hr
      cases hds
      have hback : Cursor.Extends more ((c.past t ts).putBack t)
          ((b.past t (ts ++ more)).putBack t) := rfl
      obtain ⟨b₁, hb₁, h₁⟩ := Selector.local_readGroup σ.mercator more _ _ ss c' hback hg
      obtain ⟨e, he, h₂⟩ := Entry.local_readBlock σ more c' b₁ es d h₁ hes
      refine ⟨e, ?_, h₂⟩
      rw [readRule, Cursor.nextSignificant, Cursor.nextPast_cons (h.dropWhile hd)]
      simp only [hb₁, he, Reading.map]

/-- What comes of the rules is settled by the tokens from the first significant one on: no other
trace of what was read before is left in the cursor. -/
theorem result_readRules_congr {c b : Cursor}
    (hp : c.pending.dropWhile Token.isTransparent = b.pending.dropWhile Token.isTransparent)
    (ho : c.overrun = b.overrun) :
    Reading.result (readRules σ c) = Reading.result (readRules σ b) := by
  rw [Reading.result, Reading.result, resume_readRules, resume_readRules]
  cases hd : c.pending.dropWhile Token.isTransparent with
  | nil =>
    have hb := hp.symm.trans hd
    rw [readRule, readRule, Cursor.nextSignificant, Cursor.nextSignificant,
      Cursor.nextPast_nil hd, Cursor.nextPast_nil hb]
    rfl
  | cons t ts =>
    have hb := hp.symm.trans hd
    have hpast : c.past t ts = b.past t ts := by simp [Cursor.past, ho]
    rw [readRule, readRule, Cursor.nextSignificant, Cursor.nextSignificant,
      Cursor.nextPast_cons hd, Cursor.nextPast_cons hb, hpast]

/-- Rules that were read to the end, and then more. -/
theorem result_readRules_append {more : List Token} {c b d : Cursor} {ds : List Declaration}
    (h : Cursor.Extends more c b) (ho : b.overrun = false) (hr : readRules σ c = .ok ds d) :
    Reading.result (readRules σ b) =
      (Reading.result (readRules σ { rest := more })).map (ds ++ ·) := by
  fun_induction readRules σ c generalizing b ds with
  | case1 => cases hr
  | case2 c e hnone =>
    cases hr
    have hsig := (readRule_eq_none_iff σ c).mp ⟨_, hnone⟩
    have hall : ∀ t ∈ c.pending, t.isTransparent = true := by
      simpa [significant, List.filter_eq_nil_iff] using hsig
    have hsame : Reading.result (readRules σ b) =
        Reading.result (readRules σ { rest := more }) := by
      refine result_readRules_congr ?_ ho
      rw [h, List.dropWhile_append_of_pos hall]
      rfl
    rw [hsame]
    cases Reading.result (readRules σ { rest := more }) <;> rfl
  | case3 c ds₁ e hrule ih =>
    obtain ⟨ds₂, hds₂, rfl⟩ := Reading.map_eq_ok.mp hr
    obtain ⟨e₁, he₁, h₁⟩ := readRule_extends h hrule
    have ho₁ := Reader.motion_overrun.moves_readRule σ b
    rw [he₁] at ho₁
    have hi := ih h₁ (ho₁.trans ho) hds₂
    calc Reading.result (readRules σ b)
        = (Reading.result (readRules σ e₁)).map (ds₁ ++ ·) := by
          rw [Reading.result, resume_readRules, he₁, Reading.result, Reading.map_resume]
          rfl
      _ = ((Reading.result (readRules σ { rest := more })).map (ds₂ ++ ·)).map (ds₁ ++ ·) := by
          rw [hi]
      _ = (Reading.result (readRules σ { rest := more })).map (ds₁ ++ ds₂ ++ ·) := by
          cases Reading.result (readRules σ { rest := more }) <;> simp [Except.map]

end Declaration

namespace Cascade

/-- Declarations of one precedence keep their order. -/
theorem filter_sort (p : Precedence) (ds : List Declaration) :
    (sort ds).filter (·.precedence = p) = ds.filter (·.precedence = p) :=
  Precedence.filter_mergeSort Declaration.precedence p ds

theorem mem_of_filter_eq {ds es : List Declaration}
    (h : ∀ p, ds.filter (·.precedence = p) = es.filter (·.precedence = p)) {d : Declaration}
    (hd : d ∈ ds) : d ∈ es := by
  have hmem : d ∈ ds.filter (·.precedence = d.precedence) := List.mem_filter.mpr ⟨hd, by simp⟩
  rw [h] at hmem
  exact (List.mem_filter.mp hmem).1

/-- An ascending list is settled by the order within each precedence. -/
theorem Ascending.eq_of_filter {ds es : List Declaration} (hds : Ascending ds) (hes : Ascending es)
    (h : ∀ p, ds.filter (·.precedence = p) = es.filter (·.precedence = p)) : ds = es := by
  induction ds generalizing es with
  | nil =>
    cases es with
    | nil => rfl
    | cons e es => exact absurd (mem_of_filter_eq (fun p => (h p).symm) List.mem_cons_self) (by simp)
  | cons d ds ih =>
    cases es with
    | nil => exact absurd (mem_of_filter_eq h List.mem_cons_self) (by simp)
    | cons e es =>
      have hle {a b : Declaration} {as : List Declaration} (has : Ascending (a :: as))
          (hb : b ∈ a :: as) : a.precedence.le b.precedence = true := by
        rcases List.mem_cons.mp hb with rfl | hb
        · exact Precedence.le_refl _
        · exact (List.pairwise_cons.mp has).1 b hb
      have hde := hle hds (mem_of_filter_eq (fun p => (h p).symm) List.mem_cons_self)
      have hed := hle hes (mem_of_filter_eq h List.mem_cons_self)
      have hp : d.precedence = e.precedence := Precedence.le_antisymm hde hed
      have hhead := h e.precedence
      rw [List.filter_cons_of_pos (by simp [hp]), List.filter_cons_of_pos (by simp)] at hhead
      obtain ⟨rfl, -⟩ := List.cons.inj hhead
      refine congrArg (d :: ·) (ih hds.of_cons hes.of_cons ?_)
      intro p
      have htail := h p
      by_cases hd : d.precedence = p
      · rw [List.filter_cons_of_pos (by simp [hd]), List.filter_cons_of_pos (by simp [hd])] at htail
        exact (List.cons.inj htail).2
      · rwa [List.filter_cons_of_neg (by simp [hd]), List.filter_cons_of_neg (by simp [hd])] at htail

/-- Two lists sorted first and then together are the same as sorted together. -/
theorem sort_append_sort (ds es : List Declaration) :
    sort (sort ds ++ sort es) = sort (ds ++ es) := by
  refine (ascending_sort _).eq_of_filter (ascending_sort _) ?_
  intro p
  rw [filter_sort, filter_sort, List.filter_append, List.filter_append, filter_sort, filter_sort]

end Cascade

theorem Declaration.ofTokens_append {σ : Settings} {ts : List Token} {ds : List Declaration}
    (h : ofTokens σ ts = .ok ds) (us : List Token) :
    ofTokens σ (ts ++ us) = (ofTokens σ us).map fun ds' => Cascade.sort (ds ++ ds') := by
  have hresult (tokens : List Token) : ofTokens σ tokens =
      (Reading.result (readRules σ { rest := tokens })).map Cascade.sort := by
    rw [ofTokens]
    cases readRules σ { rest := tokens } <;> rfl
  cases hr : readRules σ { rest := ts } with
  | error f d =>
    rw [ofTokens, hr] at h
    cases h
  | ok raw d =>
    rw [ofTokens, hr] at h
    cases h
    have hextends : Cursor.Extends us { rest := ts } { rest := ts ++ us } := rfl
    have hrules := result_readRules_append hextends rfl hr
    rw [hresult, hresult us, hrules]
    cases Reading.result (readRules σ { rest := us }) with
    | error f => rfl
    | ok raw' => exact congrArg Except.ok (Cascade.sort_append_sort raw raw').symm

/-- A token list that has rulesets, with any other behind it, has these and then the rulesets of the
other, or the fault of the other; and its declarations and those of the other come sorted
together, or with the fault of the other. -/
theorem read_concatenation (σ : Settings) (ts us : List Token) :
    (∀ rs, Ruleset.ofTokens σ ts = .ok rs →
      Ruleset.ofTokens σ (ts ++ us) = (Ruleset.ofTokens σ us).map (rs ++ ·)) ∧
    ∀ ds, Declaration.ofTokens σ ts = .ok ds →
      Declaration.ofTokens σ (ts ++ us) =
        (Declaration.ofTokens σ us).map fun ds' => Cascade.sort (ds ++ ds') :=
  ⟨fun _ h => Ruleset.ofTokens_append h us, fun _ h => Declaration.ofTokens_append h us⟩

/-- A rule before a whole rule, and before one that is cut off. -/
theorem read_concatenation_roads :
    let σ := Settings.standard false
    let ts := Token.scan "Layer \x7b line-width: 2; \x7d "
    let whole := Token.scan "Map \x7b map-bgcolor: #fff; \x7d"
    let cut := Token.scan "Map \x7b"
    (∃ rs, Ruleset.ofTokens σ ts = .ok rs ∧
      Ruleset.ofTokens σ (ts ++ whole) = (Ruleset.ofTokens σ whole).map (rs ++ ·)) ∧
    ∃ ds, Declaration.ofTokens σ ts = .ok ds ∧
      (Declaration.ofTokens σ (ts ++ whole) =
        (Declaration.ofTokens σ whole).map fun ds' => Cascade.sort (ds ++ ds')) ∧
      Declaration.ofTokens σ (ts ++ cut) = .error (.unexpectedEnd .insideBlock ⟨1, 5⟩) := by
  intro σ ts whole cut
  have hcut : Declaration.ofTokens σ cut = .error (.unexpectedEnd .insideBlock ⟨1, 5⟩) := by
    decide +kernel
  have hr : (Ruleset.ofTokens σ ts).toBool = true := by decide +kernel
  have hd : (Declaration.ofTokens σ ts).toBool = true := by decide +kernel
  constructor
  · cases h : Ruleset.ofTokens σ ts with
    | error f => rw [h] at hr; cases hr
    | ok rs => exact ⟨rs, rfl, (read_concatenation σ ts whole).1 rs h⟩
  · cases h : Declaration.ofTokens σ ts with
    | error f => rw [h] at hd; cases hd
    | ok ds =>
      refine ⟨ds, rfl, (read_concatenation σ ts whole).2 ds h, ?_⟩
      rw [(read_concatenation σ ts cut).2 ds h, hcut]
      rfl

end Cartosheet
