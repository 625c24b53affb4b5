import Cartosheet.Proofs.Cursor
import Cartosheet.Selector.Reader
import Mathlib.Data.List.TakeWhile

namespace Cartosheet

namespace Selector

theorem kind_of_isTerminator {t : Token} (h : isTerminator t = true) : t.kind = .character := by
  simp only [isTerminator, Bool.or_eq_true] at h
  rcases h with h | h <;> exact Token.kind_of_isChar h

theorem isTransparent_of_isTerminator {t : Token} (h : isTerminator t = true) :
    t.isTransparent = false := by
  apply Token.isTransparent_eq_false_of_kind <;> simp [kind_of_isTerminator h]

theorem isChar_of_isTerminator {t : Token} (h : isTerminator t = true) {a : Char}
    (hc : ',' ≠ a) (hb : '{' ≠ a) : t.isChar a = false := by
  simp only [isTerminator, Bool.or_eq_true] at h
  rcases h with h | h
  · exact Token.isChar_eq_false h hc
  · exact Token.isChar_eq_false h hb

/-- `c` has a run to come, then the terminator `t`, then `rest`; `b` has the run alone, without its
comments. -/
def Mirrors (t : Token) (rest : List Token) (c b : Cursor) : Prop :=
  ∃ run : List Token, (∀ u ∈ run, isTerminator u = false) ∧ c.pending = run ++ t :: rest ∧
    b.pending = run.filter (!·.isComment)

/-- The first token of a run that is not skipped, or else its terminator, comes first in both. -/
theorem dropWhile_run {skip : Token → Bool} {t : Token}
    (hskip : ∀ u, u.isComment = true → skip u = true) (ht : skip t = false)
    (run rest : List Token) :
    (∃ u run', u ∈ run ∧ run' ⊆ run ∧ skip u = false ∧
      (run ++ t :: rest).dropWhile skip = u :: (run' ++ t :: rest) ∧
      (run.filter (!·.isComment)).dropWhile skip = u :: run'.filter (!·.isComment)) ∨
    ((run ++ t :: rest).dropWhile skip = t :: rest ∧
      (run.filter (!·.isComment)).dropWhile skip = []) := by
  induction run with
  | nil =>
    right
    simp [ht]
  | cons v run ih =>
    cases hv : skip v with
    | false =>
      have hc : v.isComment = false := by
        cases h : v.isComment with
        | false => rfl
        | true => rw [hskip v h] at hv; cases hv
      left
      exact ⟨v, run, by simp, by simp, hv, by simp [hv], by simp [hc, hv]⟩
    | true =>
      have hb : ((v :: run).filter (!·.isComment)).dropWhile skip =
          (run.filter (!·.isComment)).dropWhile skip := by
        cases hc : v.isComment <;> simp [hc, hv]
      rw [List.cons_append, List.dropWhile_cons_of_pos hv, hb]
      rcases ih with ⟨u, run', hu, hr, hs, hl, hf⟩ | h
      · exact .inl ⟨u, run', by simp [hu], List.subset_cons_of_subset v hr, hs, hl, hf⟩
      · exact .inr h

/-- Both cursors read the same token of the run, or the run is used up and only the longer list
gives a token, the terminator. -/
theorem Mirrors.nextPast {skip : Token → Bool} {t : Token} {rest : List Token} {c b : Cursor}
    (h : Mirrors t rest c b) (hskip : ∀ u, u.isComment = true → skip u = true)
    (ht : skip t = false) :
    (∃ u c' b', c.nextPast skip = (some u, c') ∧ b.nextPast skip = (some u, b') ∧
      isTerminator u = false ∧ Mirrors t rest c' b' ∧
      Mirrors t rest (c'.putBack u) (b'.putBack u)) ∨
    (c.nextPast skip = (some t, c.past t rest) ∧ b.nextPast skip = (none, b.atEnd)) := by
  obtain ⟨run, hr, hc, hb⟩ := h
  rcases dropWhile_run hskip ht run rest with ⟨u, run', hu, hs, hn, hl, hf⟩ | ⟨hl, hf⟩
  · left
    have hr' : ∀ v ∈ run', isTerminator v = false := fun v hv => hr v (hs hv)
    have huc : u.isComment = false := by
      cases hx : u.isComment with
      | false => rfl
      | true => rw [hskip u hx] at hn; cases hn
    refine ⟨u, _, _, Cursor.nextPast_cons (hc ▸ hl), Cursor.nextPast_cons (hb ▸ hf), hr u hu,
      ⟨run', hr', rfl, rfl⟩, ⟨u :: run', ?_, rfl, ?_⟩⟩
    · intro v hv
      rcases List.mem_cons.mp hv with rfl | hv
      · exact hr v hu
      · exact hr' v hv
    · simp [huc]
  · right
    exact ⟨Cursor.nextPast_cons (hc ▸ hl), Cursor.nextPast_nil (hb ▸ hf)⟩

/-- The same where comments and whitespace are passed over. -/
theorem Mirrors.nextSignificant {t : Token} {rest : List Token} {c b : Cursor}
    (h : Mirrors t rest c b) (ht : isTerminator t = true) :
    (∃ u c' b', c.nextSignificant = (some u, c') ∧ b.nextSignificant = (some u, b') ∧
      isTerminator u = false ∧ Mirrors t rest c' b') ∨
    (c.nextSignificant = (some t, c.past t rest) ∧ b.nextSignificant = (none, b.atEnd)) := by
  rcases h.nextPast (fun _ => Token.isTransparent_of_isComment) (isTransparent_of_isTerminator ht)
    with ⟨u, c', b', hc, hb, hu, hm, _⟩ | ⟨hc, hb⟩
  · exact .inl ⟨u, c', b', hc, hb, hu, hm⟩
  · exact .inr ⟨hc, hb⟩

theorem mirrors_putBack_terminator (t : Token) (rest : List Token) (c b : Cursor) :
    Mirrors t rest ((c.past t rest).putBack t) b.atEnd :=
  ⟨[], by simp, rfl, rfl⟩

/-- What the reading `x` of the longer list owes to the reading `y` of the run: the same result,
and a fault for a fault. -/
def Follows {α : Type} (t : Token) (rest : List Token) (x y : Reading α) : Prop :=
  match y with
  | .ok a b => ∃ c, x = .ok a c ∧ Mirrors t rest c b
  | .error _ _ => ∃ f c, x = .error f c

/-- A reader that the tokens after a run do not lead astray. -/
def Faithful {α : Type} (r : Reader α) : Prop :=
  ∀ (t : Token) (rest : List Token) (c b : Cursor), isTerminator t = true → Mirrors t rest c b →
    Follows t rest (r c) (r b)

/-- A reader that always faults. -/
def Fails {α : Type} (r : Reader α) : Prop := ∀ c, ∃ f d, r c = .error f d

section

variable {α β : Type}

theorem fails_throw (f : Fault) : Fails (throw f : Reader α) := fun c => ⟨f, c, rfl⟩

theorem Fails.faithful {r : Reader α} (h : Fails r) : Faithful r := by
  intro t rest c b _ _
  obtain ⟨f, d, hb⟩ := h b
  rw [hb]
  exact h c

theorem Faithful.pure (a : α) : Faithful (Pure.pure a : Reader α) :=
  fun _ _ c _ _ h => ⟨c, rfl, h⟩

theorem Faithful.bind {r : Reader α} {k : α → Reader β} (hr : Faithful r)
    (hk : ∀ a, Faithful (k a)) : Faithful (r >>= k) := by
  intro t rest c b ht h
  have hf := hr t rest c b ht h
  change Follows t rest (EStateM.bind r k c) (EStateM.bind r k b)
  unfold EStateM.bind
  cases hb : r b with
  | error f d =>
    rw [hb] at hf
    obtain ⟨g, e, hc⟩ := hf
    rw [hc]
    exact ⟨g, e, rfl⟩
  | ok a d =>
    rw [hb] at hf
    obtain ⟨e, hc, hm⟩ := hf
    rw [hc]
    exact hk a t rest e d ht hm

/-- Expecting a token is harmless if what follows cannot use a terminator. -/
theorem faithful_expect {k : Token → Reader β} {place : Place} (hk : ∀ u, Faithful (k u))
    (hfail : ∀ u, isTerminator u = true → Fails (k u)) :
    Faithful (Reader.expect place >>= k) := by
  intro t rest c b ht h
  change Follows t rest (EStateM.bind (Reader.expect place) k c)
    (EStateM.bind (Reader.expect place) k b)
  rcases h.nextSignificant ht with ⟨u, c', b', hc, hb, _, hm⟩ | ⟨hc, hb⟩
  · simp only [EStateM.bind, Reader.expect, hc, hb]
    exact hk u t rest c' b' ht hm
  · simp only [EStateM.bind, Reader.expect, hc, hb]
    exact hfail t ht _

/-- The same for a token that only comments may precede. -/
theorem faithful_pastComments {k : Option Token → Reader β} (hk : ∀ u, Faithful (k (some u)))
    (hend : Fails (k none)) (hfail : ∀ u, isTerminator u = true → Fails (k (some u))) :
    Faithful (Reader.pastComments >>= k) := by
  intro t rest c b ht h
  change Follows t rest (EStateM.bind Reader.pastComments k c)
    (EStateM.bind Reader.pastComments k b)
  have htc : t.isComment = false := by simp [Token.isComment, kind_of_isTerminator ht]
  rcases h.nextPast (fun _ hu => hu) htc with ⟨u, c', b', hc, hb, _, hm, _⟩ | ⟨hc, hb⟩
  · simp only [EStateM.bind, Reader.pastComments, Cursor.nextPastComments, hc, hb]
    exact hk u t rest c' b' ht hm
  · simp only [EStateM.bind, Reader.pastComments, Cursor.nextPastComments, hc, hb]
    obtain ⟨f, d, he⟩ := hend b.atEnd
    rw [he]
    exact hfail t ht _

theorem faithful_require {accept : Token → Bool} {wrong missing : Place}
    (h : ∀ u, isTerminator u = true → accept u = false) :
    Faithful (Reader.require accept wrong missing) := by
  refine faithful_expect (fun u => ?_) (fun u hu => ?_)
  · split
    · exact .pure u
    · exact (fails_throw _).faithful
  · simp only [h u hu, Bool.false_eq_true, if_false]
    exact fails_throw _

end

/-- At the end of its run a comparison stays strict, and so it does before a terminator, which is
put back. -/
theorem faithful_orEqual (strict inclusive : Operator) :
    Faithful (Reader.orEqual strict inclusive) := by
  intro t rest c b ht h
  have htc : t.isComment = false := by simp [Token.isComment, kind_of_isTerminator ht]
  have hte : t.isChar '=' = false := isChar_of_isTerminator ht (by decide) (by decide)
  rcases h.nextPast (fun _ hu => hu) htc with ⟨u, c', b', hc, hb, _, hm, hp⟩ | ⟨hc, hb⟩
  · simp only [Reader.orEqual, Cursor.nextPastComments, hc, hb]
    split
    · exact ⟨c', rfl, hm⟩
    · exact ⟨_, rfl, hp⟩
  · simp only [Reader.orEqual, Cursor.nextPastComments, hc, hb, hte]
    exact ⟨_, rfl, mirrors_putBack_terminator t rest c b⟩

theorem faithful_operator : Faithful Reader.operator := by
  refine faithful_expect (fun u => ?_) (fun u hu => ?_)
  · split
    · exact .pure _
    split
    · exact faithful_orEqual _ _
    split
    · exact faithful_orEqual _ _
    split
    · refine faithful_pastComments (fun v => ?_) (fails_throw _) (fun v hv => ?_)
      · dsimp only
        split
        · exact .pure _
        · exact (fails_throw _).faithful
      · have he : v.isChar '=' = false := isChar_of_isTerminator hv (by decide) (by decide)
        simp only [he, Bool.false_eq_true, if_false]
        exact fails_throw _
    · exact (fails_throw _).faithful
  · have he : u.isChar '=' = false := isChar_of_isTerminator hu (by decide) (by decide)
    have hl : u.isChar '<' = false := isChar_of_isTerminator hu (by decide) (by decide)
    have hg : u.isChar '>' = false := isChar_of_isTerminator hu (by decide) (by decide)
    have hn : u.isChar '!' = false := isChar_of_isTerminator hu (by decide) (by decide)
    simp only [he, hl, hg, hn, Bool.false_eq_true, if_false]
    exact fails_throw _

theorem faithful_scalar : Faithful Reader.scalar := by
  refine faithful_expect (fun u => ?_) (fun u hu => ?_)
  · split
    · split
      · exact .pure _
      · exact (fails_throw _).faithful
    split
    · exact .pure _
    · exact (fails_throw _).faithful
  · simp only [kind_of_isTerminator hu]
    exact fails_throw _

theorem faithful_attributeTest : Faithful Reader.attributeTest := by
  refine (faithful_require fun u hu => by simp [kind_of_isTerminator hu]).bind fun _ => ?_
  refine faithful_operator.bind fun _ => faithful_scalar.bind fun _ => ?_
  refine (faithful_require fun u hu => ?_).bind fun _ => .pure _
  exact isChar_of_isTerminator hu (by decide) (by decide)

theorem faithful_className : Faithful className := by
  refine faithful_pastComments (fun u => ?_) (fun c => ⟨_, _, rfl⟩) (fun u hu => ?_)
  · dsimp only
    split
    · exact .pure _
    · exact (fails_throw _).faithful
  · simp only [kind_of_isTerminator hu]
    exact fails_throw _

theorem faithful_readItem (elements : List Element) (u : Token) :
    Faithful (readItem elements u) := by
  unfold readItem
  split
  · exact .pure _
  split
  · exact .pure _
  split
  · exact .pure _
  split
  · exact faithful_className.bind fun _ => .pure _
  split
  · split
    · exact (fails_throw _).faithful
    · exact faithful_attributeTest.bind fun _ => .pure _
  · exact (fails_throw _).faithful

/-- The reading of items by the first significant token. -/
theorem readItems_of_next (elements : List Element) (start : Option Position) {c d : Cursor}
    {u : Token} (h : c.nextSignificant = (some u, d)) :
    readItems elements start c =
      if isTerminator u then .ok ⟨elements, start, some u⟩ d
      else
        match readItem elements u d with
        | .error f e => .error f e
        | .ok elements' e => readItems elements' (start.or (some u.position)) e := by
  rw [readItems.eq_def]
  split
  · rename_i hn
    rw [h] at hn
    cases hn
  · rename_i v e hn
    rw [h] at hn
    cases hn
    split
    · rfl
    · split <;> rename_i hi <;> rw [hi]

/-- The items of a run are the items read where the run stands, up to its terminator. -/
theorem readItems_mirrors {t : Token} {rest : List Token} (ht : isTerminator t = true)
    (elements : List Element) (start : Option Position) {c b : Cursor} (h : Mirrors t rest c b) :
    match readItems elements start b with
    | .error _ _ => ∃ f d, readItems elements start c = .error f d
    | .ok r _ => r.terminator = none ∧ ∃ d, readItems elements start c =
        .ok { r with terminator := some t } d ∧ d.pending = rest ∧ d.last = t.position := by
  fun_induction readItems elements start b generalizing c with
  | case1 elements start b b' hn =>
    rcases h.nextSignificant ht with ⟨u, c', b'', _, hb, _⟩ | ⟨hc, _⟩
    · rw [hb] at hn
      cases hn
    · rw [readItems_of_next _ _ hc, if_pos ht]
      exact ⟨rfl, _, rfl, rfl, rfl⟩
  | case2 elements start b v b' hn hv =>
    rcases h.nextSignificant ht with ⟨u, c', b'', _, hb, hu, _⟩ | ⟨_, hb⟩
    · rw [hb] at hn
      cases hn
      rw [hv] at hu
      cases hu
    · rw [hb] at hn
      cases hn
  | case3 elements start b v b' hn hv f e hi =>
    rcases h.nextSignificant ht with ⟨u, c', b'', hc, hb, _, hm⟩ | ⟨_, hb⟩
    · rw [hb] at hn
      cases hn
      have hf := faithful_readItem elements v t rest c' b' ht hm
      rw [hi] at hf
      obtain ⟨g, e', hg⟩ := hf
      rw [readItems_of_next _ _ hc, if_neg hv, hg]
      exact ⟨g, e', rfl⟩
    · rw [hb] at hn
      cases hn
  | case4 elements start b v b' hn hv elements' e hi ih =>
    rcases h.nextSignificant ht with ⟨u, c', b'', hc, hb, _, hm⟩ | ⟨_, hb⟩
    · rw [hb] at hn
      cases hn
      have hf := faithful_readItem elements v t rest c' b' ht hm
      rw [hi] at hf
      obtain ⟨e', hg, hm'⟩ := hf
      rw [readItems_of_next _ _ hc, if_neg hv, hg]
      exact ih hm'
    · rw [hb] at hn
      cases hn

/-- Where a selector stands has no part in whether it is one. -/
theorem build_at {mercator : Bool} {elements : List Element} {p : Position} {s : Selector}
    (h : build mercator elements p = .ok s) (q : Position) : build mercator elements q = .ok s := by
  unfold build at h ⊢
  split at h
  · cases h
  · split at h
    · exact h
    · cases h

/-- The reading of a selector by the reading of its items. -/
theorem read_of_items {mercator : Bool} {c d : Cursor} {r : Run}
    (h : readItems [] none c = .ok r d) :
    read mercator c =
      match build mercator r.elements (r.position d.last) with
      | .error f => .error f d
      | .ok s => .ok (s, r.terminator) d := by
  cases hb : build mercator r.elements (r.position d.last) with
  | error f => simp only [read, h, hb]
  | ok s => simp only [read, h, hb]

/-- Where no significant token is left, the items end. -/
theorem readItems_of_none (elements : List Element) (start : Option Position) {c : Cursor}
    (h : c.pending.dropWhile Token.isTransparent = []) :
    readItems elements start c = .ok ⟨elements, start, none⟩ c.atEnd := by
  rw [readItems.eq_def]
  split
  · rename_i hn
    rw [Cursor.nextSignificant, Cursor.nextPast_nil h] at hn
    cases hn
    rfl
  · rename_i hn
    rw [Cursor.nextSignificant, Cursor.nextPast_nil h] at hn
    cases hn

/-- A run of whitespace and comments alone has no items. -/
theorem readItems_of_transparent {ts : List Token} (h : ts.all Token.isTransparent = true) :
    readItems [] none { rest := ts } = .ok ⟨[], none, none⟩ (Cursor.atEnd { rest := ts }) := by
  apply readItems_of_none
  rw [List.dropWhile_eq_nil_iff]
  simpa [Cursor.pending] using h

/-- A run is a selector if its items are, wherever it stops. -/
theorem ofTokens_of_items (mercator : Bool) {ts : List Token} {r : Run} {d : Cursor}
    (h : readItems [] none { rest := ts } = .ok r d) (hr : r.terminator = none)
    (stop p : Position) (s : Selector) :
    ofTokens mercator ts stop = .ok s ↔ build mercator r.elements p = .ok s := by
  unfold ofTokens
  cases ha : ts.all Token.isTransparent with
  | true =>
    rw [readItems_of_transparent ha] at h
    cases h
    simp [build, ofElements]
  | false =>
    rw [read_of_items h, hr]
    cases hb : build mercator r.elements (r.position d.last) with
    | ok s' => simp [build_at hb p]
    | error f =>
      have hp : build mercator r.elements p ≠ .ok s := by
        intro he
        rw [build_at he] at hb
        cases hb
      simp [hp]

theorem ofTokens_of_items_error {mercator : Bool} {ts : List Token} {f : Fault} {d : Cursor}
    (h : readItems [] none { rest := ts } = .error f d) (stop : Position) (s : Selector) :
    ofTokens mercator ts stop ≠ .ok s := by
  unfold ofTokens
  split
  · simp
  · simp [read, h]

/-- A run read alone and read where it stands give the same selector, or else both fault. -/
theorem read_of_run {t : Token} {run rest : List Token} (mercator : Bool) {c : Cursor}
    (ht : isTerminator t = true) (hr : ∀ u ∈ run, isTerminator u = false)
    (hc : c.pending = run ++ t :: rest) :
    match ofTokens mercator (run.filter (!·.isComment)) t.position with
    | .error _ => ∃ f d, read mercator c = .error f d
    | .ok s => ∃ d, read mercator c = .ok (s, some t) d ∧ d.pending = rest ∧
        d.last = t.position := by
  have hi := readItems_mirrors ht [] none (b := { rest := run.filter (!·.isComment) })
    ⟨run, hr, hc, rfl⟩
  cases hb : readItems [] none { rest := run.filter (!·.isComment) } with
  | error f b =>
    rw [hb] at hi
    obtain ⟨g, d, hg⟩ := hi
    cases ho : ofTokens mercator (run.filter (!·.isComment)) t.position with
    | error e => exact ⟨g, d, by rw [read, hg]⟩
    | ok s => exact absurd ho (ofTokens_of_items_error hb t.position s)
  | ok r b =>
    rw [hb] at hi
    obtain ⟨hn, d, hd, hp, hl⟩ := hi
    have hbuild := ofTokens_of_items mercator hb hn t.position
      (Run.position { r with terminator := some t } d.last)
    cases ho : ofTokens mercator (run.filter (!·.isComment)) t.position with
    | ok s => exact ⟨d, by rw [read_of_items hd, (hbuild s).mp ho], hp, hl⟩
    | error e =>
      cases hs : build mercator r.elements
          (Run.position { r with terminator := some t } d.last) with
      | error f => exact ⟨f, d, by rw [read_of_items hd, hs]⟩
      | ok s =>
        rw [(hbuild s).mpr hs] at ho
        cases ho

end Selector

end Cartosheet
