import Cartosheet.Proofs.Agreement
import Cartosheet.Stylesheet

namespace Cartosheet

namespace Ruleset

/-- The selectors of the rule are complete, its block is not. -/
def Context.isInside : Context → Bool
  | betweenRules => false
  | inSelectors _ _ => false
  | inBlock _ _ => true
  | inDeclaration _ _ _ => true

namespace Machine

/-- The machine faults inside a block: at a token, or where the tokens end. -/
inductive FaultsInside (σ : Settings) (tokens : List Token) (f : Fault) : Prop
  | feed {before after : List Token} {t : Token} {m : Machine} : tokens = before ++ t :: after →
      start.feedAll σ before = .ok m → m.context.isInside = true → m.feed σ t = .error f →
      FaultsInside σ tokens f
  | finish {m : Machine} : start.feedAll σ tokens = .ok m → m.context.isInside = true →
      m.finish (lastPosition tokens) = .error f → FaultsInside σ tokens f

variable {σ : Settings}

/-- The first fault is the one reported. -/
theorem FaultsInside.reported {tokens : List Token} {f : Fault} (h : FaultsInside σ tokens f) :
    ofTokens σ tokens = .error f := by
  unfold ofTokens
  cases h with
  | feed htokens hbefore _ hfeed =>
    subst htokens
    rw [feedAll_append hbefore, feedAll, hfeed]
  | finish hall _ hfinish =>
    rw [hall]
    exact hfinish

/-- A draft faults in a block. -/
theorem inBlock_of_draft {draft : Draft} {t : Token} {f : Fault}
    (h : draft.feed σ t = .error f) : f.inBlock = true := by
  have hbuild {p : Property} {name : Token} {value : List Token} {important : Bool}
      (hb : (Entry.build p name value important).map (Sum.inr (α := Draft)) = .error f) :
      f.inBlock = true := by
    unfold Entry.build at hb
    split at hb
    · cases hb
    · cases hb
      rfl
  cases draft with
  | named name =>
    simp only [Draft.feed] at h
    split at h
    · split at h
      · cases h
      · cases h
        rfl
    · cases h
      rfl
  | valued name p value marker =>
    cases marker with
    | none =>
      simp only [Draft.feed] at h
      split at h
      · exact hbuild h
      split at h
      · cases h
      split at h
      · cases h
        rfl
      · cases h
    | bang =>
      simp only [Draft.feed] at h
      split at h
      · cases h
      · cases h
        rfl
    | important =>
      simp only [Draft.feed] at h
      split at h
      · exact hbuild h
      · cases h
        rfl

/-- Inside a block every step that fails fails with a fault of the block. -/
theorem inBlock_of_feed {m : Machine} {t : Token} {f : Fault} (hm : m.context.isInside = true)
    (h : m.feed σ t = .error f) : f.inBlock = true := by
  obtain ⟨done, context⟩ := m
  cases context with
  | betweenRules => cases hm
  | inSelectors ss run => cases hm
  | inBlock ss es =>
    simp only [Machine.feed] at h
    split at h
    · cases h
    split at h
    · cases h
    split at h
    · cases h
    · cases h
      rfl
  | inDeclaration ss es draft =>
    simp only [Machine.feed] at h
    split at h
    · cases h
    split at h
    · rename_i hd
      cases h
      exact inBlock_of_draft hd
    · cases h
    · cases h

theorem inBlock_of_finish {m : Machine} {last : Position} {f : Fault}
    (hm : m.context.isInside = true) (h : m.finish last = .error f) : f.inBlock = true := by
  obtain ⟨done, context⟩ := m
  cases context with
  | betweenRules => cases hm
  | inSelectors ss run => cases hm
  | inBlock ss es => cases h; rfl
  | inDeclaration ss es draft => cases h; rfl

theorem FaultsInside.inBlock {tokens : List Token} {f : Fault} (h : FaultsInside σ tokens f) :
    f.inBlock = true := by
  cases h with
  | feed _ _ hm hfeed => exact inBlock_of_feed hm hfeed
  | finish _ hm hfinish => exact inBlock_of_finish hm hfinish

end Machine

end Ruleset

/-- A fault of the rulesets that is not of syntax, or that came up inside a block, is the fault of
the declarations too; and so is an unknown property or an invalid value of the declarations the
fault of the rulesets. -/
theorem faults_shared (σ : Settings) (tokens : List Token) (f : Fault) :
    (Ruleset.ofTokens σ tokens = .error f → f.isSyntax = false →
      Declaration.ofTokens σ tokens = .error f) ∧
    (Ruleset.Machine.FaultsInside σ tokens f →
      Ruleset.ofTokens σ tokens = .error f ∧ Declaration.ofTokens σ tokens = .error f) ∧
    (Declaration.ofTokens σ tokens = .error f →
      ((∃ name p, f = .unknownProperty name p) ∨ ∃ name cause p, f = .invalidValue name cause p) →
      Ruleset.ofTokens σ tokens = .error f) := by
  have hm := Declaration.matches_ofTokens σ tokens
  have herr : (Ruleset.ofTokens σ tokens).map Cascade.flatten = .error f ↔
      Ruleset.ofTokens σ tokens = .error f := by
    cases Ruleset.ofTokens σ tokens <;> simp [Except.map]
  refine ⟨?_, ?_, ?_⟩
  · intro hr hf
    exact hm.meaning f hf (herr.mpr hr)
  · intro hi
    have hr := hi.reported
    exact ⟨hr, (hm.inBlock f hi.inBlock).mp (herr.mpr hr)⟩
  · intro hd hf
    have hb : f.inBlock = true := by
      rcases hf with ⟨name, p, rfl⟩ | ⟨name, cause, p, rfl⟩ <;> rfl
    exact herr.mp ((hm.inBlock f hb).mpr hd)

/-- A group whose second selector has no root, a sheet that ends in a declaration, and a property
that is not in the table. -/
theorem faults_shared_roads :
    let σ := Settings.standard false
    let unrooted := Token.scan "Map, Roads \x7b \x7d"
    let cut := Token.scan "Layer \x7b line-width: 2"
    let unknown := Token.scan "Layer \x7b line-wdth: 2; \x7d"
    Declaration.ofTokens σ unrooted =
        .error (.invalidSelector "Roads" (.unrooted "Roads") ⟨1, 6⟩) ∧
      Declaration.ofTokens σ cut = .error (.unexpectedEnd .insideDeclaration ⟨1, 21⟩) ∧
      Ruleset.ofTokens σ unknown = .error (.unknownProperty "line-wdth" ⟨1, 9⟩) := by
  intro σ unrooted cut unknown
  refine ⟨?_, ?_, ?_⟩
  · exact (faults_shared σ unrooted _).1 (by decide +kernel) rfl
  · have hcut : Ruleset.Machine.start.feedAll σ cut =
        .ok ⟨[], .inDeclaration [⟨⟨[.tag "Layer"], []⟩, none⟩] []
          (.valued ⟨.identifier, "line-width", ⟨1, 9⟩⟩ ⟨"line-width", .float⟩
            [⟨.number, "2", ⟨1, 21⟩⟩] .none)⟩ := by
      decide +kernel
    exact ((faults_shared σ cut _).2.1 (.finish hcut rfl (by decide +kernel))).2
  · exact (faults_shared σ unknown _).2.2 (by decide +kernel) (.inl ⟨_, _, rfl⟩)

end Cartosheet
