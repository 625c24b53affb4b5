import Cartosheet.Proofs.Transparency
import Cartosheet.Proofs.WellFormed

namespace Cartosheet

/-- Somewhere among significant tokens the word `zoom` stands after a `[`. -/
def testsZoom : List Token → Bool
  | t :: u :: ts => (t.isChar '[' && u.isWord "zoom") || testsZoom (u :: ts)
  | _ => false

/-- None of the tokens opens a test. -/
def Unbracketed (ts : List Token) : Prop := ∀ t ∈ ts, t.isChar '[' = false

/-- What the readers of names and tests take inside them: no token opens another test, and none is
foreign to the language. -/
def Inner (ts : List Token) : Prop := ∀ t ∈ ts, t.isChar '[' = false ∧ t.kind ≠ .other

section

variable {t u : Token} {ts us : List Token}

theorem Inner.nil : Inner [] := by simp [Inner]

theorem Inner.cons (ht : t.isChar '[' = false) (hk : t.kind ≠ .other) (hts : Inner ts) :
    Inner (t :: ts) := by
  intro u hu
  rcases List.mem_cons.mp hu with rfl | hu
  · exact ⟨ht, hk⟩
  · exact hts u hu

/-- A character that opens no test. -/
theorem Inner.char {a : Char} (ht : t.isChar a = true) (ha : a ≠ '[') (hts : Inner ts) :
    Inner (t :: ts) :=
  hts.cons (Token.isChar_eq_false ht ha) (by simp [Token.kind_of_isChar ht])

theorem Inner.append (hts : Inner ts) (hus : Inner us) : Inner (ts ++ us) := by
  intro v hv
  rcases List.mem_append.mp hv with hv | hv
  · exact hts v hv
  · exact hus v hv

theorem Inner.significant (hts : Inner ts) : Inner (significant ts) :=
  fun v hv => hts v (List.mem_filter.mp hv).1

theorem Inner.unbracketed (hts : Inner ts) : Unbracketed ts := fun v hv => (hts v hv).1

theorem testsZoom_cons (ht : t.isChar '[' = false) : testsZoom (t :: ts) = testsZoom ts := by
  cases ts with
  | nil => rfl
  | cons u ts => rw [testsZoom, ht, Bool.false_and, Bool.false_or]

theorem testsZoom_append (hts : Unbracketed ts) : testsZoom (ts ++ us) = testsZoom us := by
  induction ts with
  | nil => rfl
  | cons t ts ih =>
    rw [List.cons_append, testsZoom_cons (hts t (by simp))]
    exact ih fun v hv => hts v (by simp [hv])

theorem testsZoom_bracket (ht : t.isChar '[' = true) (hu : u.isChar '[' = false) :
    testsZoom (t :: u :: ts) = (u.isWord "zoom" || testsZoom ts) := by
  rw [testsZoom, ht, Bool.true_and, testsZoom_cons hu]

end

namespace Cursor

variable {c d : Cursor} {t : Token}

theorem significant_of_next (h : c.nextSignificant = (some t, d)) :
    significant c.pending = t :: significant d.pending := by
  cases hd : c.pending.dropWhile Token.isTransparent with
  | nil =>
    rw [nextSignificant, nextPast_nil hd] at h
    cases h
  | cons u us =>
    rw [nextSignificant, nextPast_cons hd] at h
    cases h
    exact significant_eq_cons hd

theorem significant_of_none (h : c.nextSignificant = (none, d)) : significant c.pending = [] := by
  cases hd : c.pending.dropWhile Token.isTransparent with
  | nil => exact significant_eq_nil hd
  | cons u us =>
    rw [nextSignificant, nextPast_cons hd] at h
    cases h

/-- Past comments comes a token, perhaps whitespace, or none. -/
theorem significant_nextPastComments (c : Cursor) :
    significant c.pending =
      significant c.nextPastComments.1.toList ++ significant c.nextPastComments.2.pending := by
  cases hd : c.pending.dropWhile Token.isComment with
  | nil =>
    rw [nextPastComments, nextPast_nil hd]
    rw [List.dropWhile_eq_nil_iff] at hd
    rw [significant, List.filter_eq_nil_iff.mpr]
    · rfl
    · intro u hu
      simp [Token.isTransparent_of_isComment (hd u hu)]
  | cons u us =>
    rw [nextPastComments, nextPast_cons hd, significant_pastComments hd, ← significant_append]
    rfl

end Cursor

namespace Reader

variable {α β : Type} {P : α → List Token → Prop} {Q : β → List Token → Prop}

/-- Where the reader succeeds, `P` relates what it gives to the tokens it took, without those that
`keep` leaves out. -/
def TakesKept (keep : Token → Bool) (P : α → List Token → Prop) (r : Reader α) : Prop :=
  ∀ c a d, r c = .ok a d → ∃ us, c.pending.filter keep = us ++ d.pending.filter keep ∧ P a us

section

variable {keep : Token → Bool}

theorem TakesKept.mono {P' : α → List Token → Prop} {r : Reader α} (hr : TakesKept keep P r)
    (h : ∀ a us, P a us → P' a us) : TakesKept keep P' r := by
  intro c a d hc
  obtain ⟨us, hus, hP⟩ := hr c a d hc
  exact ⟨us, hus, h a us hP⟩

theorem TakesKept.pure {a : α} (h : P a []) : TakesKept keep P (Pure.pure a : Reader α) := by
  intro c a' d hc
  cases hc
  exact ⟨[], rfl, h⟩

theorem TakesKept.throw (f : Fault) : TakesKept keep P (MonadExcept.throw f : Reader α) := by
  intro c a d hc
  cases hc

/-- What the second reader takes stands after what the first takes. -/
theorem TakesKept.bind {r : Reader α} {k : α → Reader β} (hr : TakesKept keep P r)
    (hk : ∀ a us, P a us → TakesKept keep (fun b vs => Q b (us ++ vs)) (k a)) :
    TakesKept keep Q (r >>= k) := by
  intro c b e h
  obtain ⟨a, d, hc, hd⟩ := bind_eq_ok.mp h
  obtain ⟨us, hus, hP⟩ := hr c a d hc
  obtain ⟨vs, hvs, hQ⟩ := hk a us hP d b e hd
  exact ⟨us ++ vs, by rw [hus, hvs, List.append_assoc], hQ⟩

end

/-- Where the reader succeeds, `P` relates what it gives to the significant tokens it took. -/
def Takes (P : α → List Token → Prop) (r : Reader α) : Prop :=
  ∀ c a d, r c = .ok a d → ∃ us, significant c.pending = us ++ significant d.pending ∧ P a us

theorem Takes.mono {P' : α → List Token → Prop} {r : Reader α} (hr : Takes P r)
    (h : ∀ a us, P a us → P' a us) : Takes P' r :=
  TakesKept.mono hr h

theorem Takes.pure {a : α} (h : P a []) : Takes P (Pure.pure a : Reader α) :=
  TakesKept.pure h

theorem Takes.throw (f : Fault) : Takes P (MonadExcept.throw f : Reader α) :=
  TakesKept.throw f

theorem Takes.bind {r : Reader α} {k : α → Reader β} (hr : Takes P r)
    (hk : ∀ a us, P a us → Takes (fun b vs => Q b (us ++ vs)) (k a)) : Takes Q (r >>= k) :=
  TakesKept.bind hr hk

theorem takes_expect (place : Place) : Takes (fun t us => us = [t]) (expect place) := by
  intro c t d hc
  unfold expect at hc
  split at hc
  · rename_i u e hn
    cases hc
    exact ⟨[t], Cursor.significant_of_next hn, rfl⟩
  · cases hc

theorem takes_require (accept : Token → Bool) (wrong missing : Place) :
    Takes (fun t us => us = [t] ∧ accept t = true) (require accept wrong missing) := by
  refine (takes_expect missing).bind fun t us hus => ?_
  subst hus
  split
  · rename_i ht
    exact .pure ⟨rfl, ht⟩
  · exact .throw _

theorem takes_pastComments :
    Takes (fun found us => us = significant found.toList) pastComments := by
  intro c found d hc
  cases hc
  exact ⟨_, Cursor.significant_nextPastComments c, rfl⟩

theorem takes_orEqual (strict inclusive : Operator) :
    Takes (fun _ us => Inner us) (orEqual strict inclusive) := by
  intro c op d hc
  cases hd : c.pending.dropWhile Token.isComment with
  | nil =>
    have hs := Cursor.significant_nextPastComments c
    rw [Cursor.nextPastComments, Cursor.nextPast_nil hd] at hs
    rw [orEqual_nil _ _ hd] at hc
    cases hc
    exact ⟨[], hs, .nil⟩
  | cons t ts =>
    have hs := significant_pastComments hd
    rw [orEqual_cons _ _ hd] at hc
    split at hc
    · rename_i ht
      cases hc
      rw [significant_cons (Token.isTransparent_of_isChar ht)] at hs
      exact ⟨[t], hs, .char ht (by decide) .nil⟩
    · cases hc
      exact ⟨[], hs, .nil⟩

theorem takes_operator : Takes (fun _ us => Inner us) operator := by
  refine (takes_expect _).bind fun t us hus => ?_
  subst hus
  split
  · rename_i ht
    exact .pure (.char ht (by decide) .nil)
  split
  · rename_i ht
    exact (takes_orEqual _ _).mono fun _ _ => .char ht (by decide)
  split
  · rename_i ht
    exact (takes_orEqual _ _).mono fun _ _ => .char ht (by decide)
  split
  · rename_i ht
    refine takes_pastComments.bind fun found us hus => ?_
    subst hus
    cases found with
    | none => exact .throw _
    | some u =>
      dsimp only
      split
      · rename_i hu
        have hequals : Inner [u] := .char hu (by decide) .nil
        exact .pure (.char ht (by decide) (hequals.significant.append .nil))
      · exact .throw _
  · exact .throw _

theorem takes_scalar : Takes (fun _ us => Inner us) scalar := by
  refine (takes_expect _).bind fun t us hus => ?_
  subst hus
  split
  · rename_i ht
    split
    · exact .pure (Inner.nil.cons (Token.isChar_of_kind (by simp [ht])) (by simp [ht]))
    · exact .throw _
  split
  · rename_i ht
    exact .pure (Inner.nil.cons (Token.isChar_of_kind (by simp [ht])) (by simp [ht]))
  · exact .throw _

/-- A test is its name and tokens without another test. -/
theorem takes_attributeTest :
    Takes (fun test us => ∃ name vs, us = name :: vs ∧ name.kind = .identifier ∧
      name.text = test.property ∧ Inner vs) attributeTest := by
  refine (takes_require _ _ _).bind fun name us hname => ?_
  refine takes_operator.bind fun op vs hvs => takes_scalar.bind fun value ws hws => ?_
  refine (takes_require _ _ _).bind fun close us' hclose => .pure ?_
  obtain ⟨rfl, hk⟩ := hname
  obtain ⟨rfl, hc⟩ := hclose
  have hend : Inner [close] := .char hc (by decide) .nil
  exact ⟨name, _, rfl, by simpa using hk, rfl, hvs.append (hws.append (hend.append .nil))⟩

end Reader

namespace Selector

open Reader (Takes)

theorem takes_className : Takes (fun _ us => Inner us) className := by
  refine Reader.takes_pastComments.bind fun found us hus => ?_
  subst hus
  cases found with
  | none =>
    intro c a d hc
    cases hc
  | some t =>
    dsimp only
    split
    · rename_i ht
      have hname : Inner [t] := Inner.nil.cons (Token.isChar_of_kind (by simp [ht])) (by simp [ht])
      exact .pure (hname.significant.append .nil)
    · exact .throw _

/-- Some element tests `zoom`. -/
def zoomIn (elements : List Element) : Bool := elements.any (·.tests.any Zoom.isShorthand)

theorem zoomIn_joinLast (change : Element → Element) (shorthand : Bool)
    (h : ∀ e, (change e).tests.any Zoom.isShorthand =
      (e.tests.any Zoom.isShorthand || shorthand)) (elements : List Element) :
    zoomIn (joinLast change elements) = (zoomIn elements || shorthand) := by
  unfold zoomIn
  fun_induction joinLast change elements with
  | case1 => simp [h]
  | case2 e => simp [h]
  | case3 e es _ ih => rw [List.any_cons, List.any_cons, ih, Bool.or_assoc]

theorem zoomIn_addName (n : Name) (elements : List Element) :
    zoomIn (joinLast (·.addName n) elements) = zoomIn elements := by
  rw [zoomIn_joinLast _ false (by simp [Element.addName]), Bool.or_false]

theorem zoomIn_addTest (test : Test) (elements : List Element) :
    zoomIn (joinLast (·.addTest test) elements) =
      (zoomIn elements || Zoom.isShorthand test) :=
  zoomIn_joinLast _ _ (by simp [Element.addTest]) elements

/-- An item moves its tests on `zoom` from the tokens to the elements. -/
theorem takes_readItem (elements : List Element) (t : Token) :
    Takes (fun elements' us => ∀ rest, (zoomIn elements' || testsZoom rest) =
      (zoomIn elements || testsZoom (t :: (us ++ rest)))) (readItem elements t) := by
  unfold readItem
  split
  · rename_i ht
    refine .pure fun rest => ?_
    rw [List.nil_append, testsZoom_cons (Token.isChar_of_kind (by simp [ht]))]
    simp [zoomIn]
  split
  · rename_i ht
    refine .pure fun rest => ?_
    rw [List.nil_append, testsZoom_cons (Token.isChar_of_kind (by simp [ht])), zoomIn_addName]
  split
  · rename_i ht
    refine .pure fun rest => ?_
    rw [List.nil_append, testsZoom_cons (Token.isChar_eq_false ht (by decide)), zoomIn_addName]
  split
  · rename_i ht
    refine takes_className.bind fun n us hus => .pure fun rest => ?_
    rw [List.append_nil, testsZoom_cons (Token.isChar_eq_false ht (by decide)),
      testsZoom_append hus.unbracketed, zoomIn_addName]
  split
  · rename_i ht
    split
    · exact .throw _
    · refine Reader.takes_attributeTest.bind fun test us hus => .pure fun rest => ?_
      obtain ⟨name, vs, rfl, hk, htext, hvs⟩ := hus
      have hword : name.isWord "zoom" = Zoom.isShorthand test := by
        simp only [Token.isWord, hk, htext, decide_true, Bool.true_and]
        rfl
      rw [List.append_nil, List.cons_append,
        testsZoom_bracket ht (Token.isChar_of_kind (by simp [hk])),
        testsZoom_append hvs.unbracketed, zoomIn_addTest, hword, Bool.or_assoc]
  · exact .throw _

theorem zoomIn_readItems {elements : List Element} {start : Option Position} {c d : Cursor}
    {r : Run} (h : readItems elements start c = .ok r d) (hr : r.terminator = none) :
    zoomIn r.elements = (zoomIn elements || testsZoom (significant c.pending)) := by
  fun_induction readItems elements start c with
  | case1 elements start c e hn =>
    cases h
    rw [Cursor.significant_of_none hn]
    exact (Bool.or_false _).symm
  | case2 =>
    cases h
    cases hr
  | case3 => cases h
  | case4 elements start c t e hn _ elements' e' hi ih =>
    obtain ⟨us, hus, hitem⟩ := takes_readItem elements t e elements' e' hi
    rw [ih h, hitem, Cursor.significant_of_next hn, hus]

end Selector

end Cartosheet
