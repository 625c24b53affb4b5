import Cartosheet.Ruleset.Reader

namespace Cartosheet.Ruleset

/-- A marker after which `;` ends the declaration, and whether the value is then important. -/
inductive Marker.Ends : Marker → Bool → Prop
  | none : Ends .none false
  | important : Ends .important true

/-- What a token that is not transparent can make of a draft. -/
inductive Draft.Step (σ : Settings) (t : Token) : Draft → Draft ⊕ Entry → Prop
  | colon {name : Token} {p : Property} : t.isChar ':' = true →
      σ.registry.find? name.text = some p →
      Step σ t (.named name) (.inl (.valued name p [] .none))
  | value {name : Token} {p : Property} {value : List Token} : t.isChar ';' = false →
      t.isChar '!' = false → t.isChar '{' = false → t.isChar '}' = false →
      Step σ t (.valued name p value .none) (.inl (.valued name p (value ++ [t]) .none))
  | bang {name : Token} {p : Property} {value : List Token} : t.isChar '!' = true →
      Step σ t (.valued name p value .none) (.inl (.valued name p value .bang))
  | word {name : Token} {p : Property} {value : List Token} : t.isWord "important" = true →
      Step σ t (.valued name p value .bang) (.inl (.valued name p value .important))
  | complete {name : Token} {p : Property} {value : List Token} {marker : Marker}
      {important : Bool} {v : Value} : marker.Ends important → t.isChar ';' = true →
      p.grammar.read value = .ok v →
      Step σ t (.valued name p value marker) (.inr ⟨p, v, important, name.position⟩)

/-- What a token can make of the machine. -/
inductive Machine.Step (σ : Settings) (t : Token) : Machine → Machine → Prop
  | pass {m : Machine} : (∀ ss run, m.context ≠ .inSelectors ss run) → t.isTransparent = true →
      Step σ t m m
  | begin {done : List Ruleset} : startsSelector t = true →
      Step σ t ⟨done, .betweenRules⟩ ⟨done, .inSelectors [] [t]⟩
  | comment {done : List Ruleset} {ss : List Selector} {run : List Token} :
      Selector.isTerminator t = false → t.isComment = true →
      Step σ t ⟨done, .inSelectors ss run⟩ ⟨done, .inSelectors ss run⟩
  | gather {done : List Ruleset} {ss : List Selector} {run : List Token} :
      Selector.isTerminator t = false → t.isComment = false →
      Step σ t ⟨done, .inSelectors ss run⟩ ⟨done, .inSelectors ss (run ++ [t])⟩
  | comma {done : List Ruleset} {ss : List Selector} {run : List Token} {s : Selector} :
      t.isChar ',' = true → Selector.ofTokens σ.mercator run t.position = .ok s →
      Step σ t ⟨done, .inSelectors ss run⟩ ⟨done, .inSelectors (ss ++ [s]) []⟩
  | brace {done : List Ruleset} {ss : List Selector} {run : List Token} {s : Selector} :
      t.isChar '{' = true → Selector.ofTokens σ.mercator run t.position = .ok s →
      Step σ t ⟨done, .inSelectors ss run⟩ ⟨done, .inBlock (ss ++ [s]) []⟩
  | close {done : List Ruleset} {ss : List Selector} {es : List Entry} : t.isChar '}' = true →
      Step σ t ⟨done, .inBlock ss es⟩ ⟨done ++ [⟨ss, es⟩], .betweenRules⟩
  | name {done : List Ruleset} {ss : List Selector} {es : List Entry} : t.kind = .identifier →
      Step σ t ⟨done, .inBlock ss es⟩ ⟨done, .inDeclaration ss es (.named t)⟩
  | draft {done : List Ruleset} {ss : List Selector} {es : List Entry} {d d' : Draft} :
      t.isTransparent = false → d.Step σ t (.inl d') →
      Step σ t ⟨done, .inDeclaration ss es d⟩ ⟨done, .inDeclaration ss es d'⟩
  | entry {done : List Ruleset} {ss : List Selector} {es : List Entry} {d : Draft} {e : Entry} :
      t.isTransparent = false → d.Step σ t (.inr e) →
      Step σ t ⟨done, .inDeclaration ss es d⟩ ⟨done, .inBlock ss (es ++ [e])⟩

variable {σ : Settings} {t : Token}

theorem Draft.step_of_build {name : Token} {p : Property} {value : List Token} {marker : Marker}
    {important : Bool} {r : Draft ⊕ Entry} (hm : marker.Ends important)
    (ht : t.isChar ';' = true) (h : (Entry.build p name value important).map .inr = .ok r) :
    Draft.Step σ t (.valued name p value marker) r := by
  unfold Entry.build at h
  split at h
  · rename_i v hv
    cases h
    exact .complete hm ht hv
  · cases h

theorem Draft.step_of_feed {d : Draft} {r : Draft ⊕ Entry} (h : d.feed σ t = .ok r) :
    d.Step σ t r := by
  cases d with
  | named name =>
    simp only [feed] at h
    split at h
    · rename_i hc
      split at h
      · rename_i p hp
        cases h
        exact .colon hc hp
      · cases h
    · cases h
  | valued name p value marker =>
    cases marker with
    | none =>
      simp only [feed] at h
      split at h
      · rename_i hs
        exact step_of_build .none hs h
      rename_i hs
      split at h
      · rename_i hb
        cases h
        exact .bang hb
      rename_i hb
      split at h
      · cases h
      rename_i hc
      cases h
      simp only [Bool.or_eq_true, not_or, Bool.not_eq_true] at hs hb hc
      exact .value hs hb hc.1 hc.2
    | bang =>
      simp only [feed] at h
      split at h
      · rename_i hw
        cases h
        exact .word hw
      · cases h
    | important =>
      simp only [feed] at h
      split at h
      · rename_i hs
        exact step_of_build .important hs h
      · cases h

/-- The machine moves only by these steps. -/
theorem Machine.step_of_feed {m m' : Machine} (h : m.feed σ t = .ok m') : m.Step σ t m' := by
  obtain ⟨done, context⟩ := m
  cases context with
  | betweenRules =>
    simp only [feed] at h
    split at h
    · rename_i ht
      cases h
      exact .pass (by simp) ht
    split at h
    · rename_i hs
      cases h
      exact .begin hs
    · cases h
  | inSelectors ss run =>
    simp only [feed] at h
    split at h
    · rename_i ht
      split at h
      · cases h
      rename_i s hs
      split at h
      · rename_i hb
        cases h
        exact .brace hb hs
      · rename_i hb
        cases h
        have hc : t.isChar ',' = true := by simpa [Selector.isTerminator, hb] using ht
        exact .comma hc hs
    rename_i ht
    simp only [Bool.not_eq_true] at ht
    split at h
    · rename_i hc
      cases h
      exact .comment ht hc
    · rename_i hc
      cases h
      simp only [Bool.not_eq_true] at hc
      exact .gather ht hc
  | inBlock ss es =>
    simp only [feed] at h
    split at h
    · rename_i ht
      cases h
      exact .pass (by simp) ht
    split at h
    · rename_i hb
      cases h
      exact .close hb
    split at h
    · rename_i hk
      cases h
      exact .name hk
    · cases h
  | inDeclaration ss es d =>
    simp only [feed] at h
    split at h
    · rename_i ht
      cases h
      exact .pass (by simp) ht
    rename_i ht
    simp only [Bool.not_eq_true] at ht
    split at h
    · cases h
    · rename_i d' hd
      cases h
      exact .draft ht (Draft.step_of_feed hd)
    · rename_i e hd
      cases h
      exact .entry ht (Draft.step_of_feed hd)

end Cartosheet.Ruleset
