import Cartosheet.Proofs.MachineStep
import Cartosheet.Proofs.SheetGrammar

namespace Cartosheet.Sheet

open Ruleset (Machine Draft Context Marker)

/-- The tokens behind a marker. -/
inductive IsMark : Marker → List Token → Prop
  | none : IsMark .none []
  | bang {bang : Token} : bang.isChar '!' = true → IsMark .bang [bang]
  | important {bang word : Token} : bang.isChar '!' = true → word.isWord "important" = true →
      IsMark .important [bang, word]

/-- The tokens behind a draft, without whitespace and comments. -/
inductive IsDraft (σ : Settings) : Draft → List Token → Prop
  | named {name : Token} : name.kind = .identifier → IsDraft σ (.named name) [name]
  | valued {name colon : Token} {p : Property} {value mark : List Token} {marker : Marker} :
      name.kind = .identifier → colon.isChar ':' = true →
      σ.registry.find? name.text = some p → (∀ t ∈ value, InValue t) → IsMark marker mark →
      IsDraft σ (.valued name p value marker) (name :: colon :: (value ++ mark))

/-- The tokens behind a context: how far the next rule has come. -/
inductive IsPart (σ : Settings) : Context → List Token → Prop
  | betweenRules : IsPart σ .betweenRules []
  | inSelectors {ss : List Selector} {runs run : List Token} : Begins (runs ++ run) →
      IsRuns σ.mercator runs ss → (∀ t ∈ run, t.isChar ',' = false ∧ t.isChar '{' = false) →
      IsPart σ (.inSelectors ss (run.filter (!·.isComment))) (runs ++ run)
  | inBlock {ss : List Selector} {es : List Entry} {group body : List Token} : Begins group →
      IsGroup σ.mercator group ss → IsBody σ body es →
      IsPart σ (.inBlock ss es) (group ++ body)
  | inDeclaration {ss : List Selector} {es : List Entry} {draft : Draft}
      {group body declaration : List Token} : Begins group → IsGroup σ.mercator group ss →
      IsBody σ body es → IsDraft σ draft (significant declaration) →
      IsPart σ (.inDeclaration ss es draft) (group ++ body ++ declaration)

/-- The tokens that brought the machine where it is. -/
inductive HasRead (σ : Settings) (m : Machine) : List Token → Prop
  | mk {sheet part : List Token} : IsSheet σ sheet m.done → IsPart σ m.context part →
      HasRead σ m (sheet ++ part)

theorem significant_snoc {ts : List Token} {t : Token} (h : t.isTransparent = false) :
    significant (ts ++ [t]) = significant ts ++ [t] := by
  simp [significant, h]

theorem significant_snoc_transparent {ts : List Token} {t : Token} (h : t.isTransparent = true) :
    significant (ts ++ [t]) = significant ts := by
  simp [significant, h]

section

variable {σ : Settings}

/-- A token that takes a draft on joins the tokens behind it. -/
theorem IsDraft.step {draft draft' : Draft} {ts : List Token} {t : Token}
    (h : IsDraft σ draft ts) (hs : draft.Step σ t (.inl draft')) :
    IsDraft σ draft' (ts ++ [t]) := by
  cases hs with
  | colon hc hp =>
    cases h with
    | named hn => exact .valued hn hc hp (by simp) .none
  | @value name p value hsemi hbang hopen hclose =>
    cases h with
    | valued hn hc hp hv hm =>
      cases hm
      have hv' : ∀ u ∈ value ++ [t], InValue u := by
        intro u hu
        rcases List.mem_append.mp hu with hu | hu
        · exact hv u hu
        · exact List.mem_singleton.mp hu ▸ ⟨hsemi, hbang, hopen, hclose⟩
      simpa using IsDraft.valued hn hc hp hv' .none
  | bang hb =>
    cases h with
    | valued hn hc hp hv hm =>
      cases hm
      simpa using IsDraft.valued hn hc hp hv (.bang hb)
  | word hw =>
    cases h with
    | valued hn hc hp hv hm =>
      cases hm with
      | bang hb => simpa using IsDraft.valued hn hc hp hv (.important hb hw)

/-- A token that completes a draft completes a declaration. -/
theorem IsDraft.complete {draft : Draft} {ts : List Token} {t : Token} {e : Entry}
    (h : IsDraft σ draft ts) (hs : draft.Step σ t (.inr e)) : IsEntry σ (ts ++ [t]) e := by
  cases hs with
  | complete he ht hr =>
    cases h with
    | valued hn hc hp hv hm =>
      cases he with
      | none =>
        cases hm
        simpa using IsEntry.mk hn hc hv (.plain ht) hp hr
      | important =>
        cases hm with
        | important hb hw => simpa using IsEntry.mk hn hc hv (.important hb hw ht) hp hr

/-- A context with the tokens behind it stays so when whitespace and comments come. -/
theorem IsPart.pass {context : Context} {part : List Token} {t : Token} (h : IsPart σ context part)
    (hc : context ≠ .betweenRules) (hs : ∀ ss run, context ≠ .inSelectors ss run)
    (ht : t.isTransparent = true) : IsPart σ context (part ++ [t]) := by
  cases h with
  | betweenRules => exact absurd rfl hc
  | inSelectors _ _ _ => exact absurd rfl (hs _ _)
  | inBlock hb hg hbody =>
    rw [List.append_assoc]
    refine .inBlock hb hg ?_
    simpa using hbody.append (.skip ht .nil)
  | inDeclaration hb hg hbody hd =>
    rw [List.append_assoc]
    exact .inDeclaration hb hg hbody (by rwa [significant_snoc_transparent ht])

/-- A token among selectors joins the run, whether it is gathered or is a comment. -/
theorem IsPart.gather {ss : List Selector} {run part : List Token} {t : Token}
    (h : IsPart σ (.inSelectors ss run) part) (ht : Selector.isTerminator t = false) :
    IsPart σ (.inSelectors ss (run ++ [t].filter (!·.isComment))) (part ++ [t]) := by
  cases h with
  | @inSelectors ss runs run hb hr hn =>
    rw [List.append_assoc, ← List.filter_append]
    refine .inSelectors (List.append_assoc .. ▸ hb.append [t]) hr ?_
    intro u hu
    rcases List.mem_append.mp hu with hu | hu
    · exact hn u hu
    · exact List.mem_singleton.mp hu ▸ (isTerminator_eq_false_iff t).mp ht

/-- One token: what brought the machine where it was, and the token, brought it where it is. -/
theorem HasRead.step {m m' : Machine} {ts : List Token} {t : Token} (h : HasRead σ m ts)
    (hs : m.Step σ t m') : HasRead σ m' (ts ++ [t]) := by
  obtain ⟨hsheet, hpart⟩ := h
  rename_i sheet part
  rw [List.append_assoc]
  cases hs with
  | pass hm ht =>
    by_cases hc : m.context = .betweenRules
    · rw [hc] at hpart
      cases hpart
      have hs := hsheet.append (.skip ht .nil)
      rw [List.append_nil] at hs
      have hp : IsPart σ m.context [] := hc ▸ .betweenRules
      simpa using HasRead.mk hs hp
    · exact .mk hsheet (hpart.pass hc hm ht)
  | begin hs =>
    cases hpart
    have hb : Begins ([] ++ [t]) := ⟨t, [], rfl, (startsSelector_iff t).mp hs⟩
    have hp := IsPart.inSelectors (σ := σ) hb .nil (by
      intro u hu
      rw [List.mem_singleton.mp hu]
      exact (isTerminator_eq_false_iff t).mp (Ruleset.isTerminator_of_startsSelector hs))
    rw [List.filter_cons_of_pos (by simp [Ruleset.isComment_of_startsSelector hs])] at hp
    exact .mk hsheet hp
  | comment hterm hc =>
    have hp := hpart.gather hterm
    rw [List.filter_cons_of_neg (by simp [hc]), List.filter_nil, List.append_nil] at hp
    exact .mk hsheet hp
  | gather hterm hc =>
    have hp := hpart.gather hterm
    rw [List.filter_cons_of_pos (by simp [hc])] at hp
    exact .mk hsheet hp
  | comma hc hsel =>
    cases hpart with
    | @inSelectors ss runs run hb hr hn =>
      have hb' : Begins (runs ++ (run ++ [t]) ++ []) := by simpa using hb.append [t]
      have hp := IsPart.inSelectors hb' (hr.append (.cons ⟨hn, hsel⟩ hc .nil)) (by simp)
      exact .mk hsheet (by simpa using hp)
  | brace hb hsel =>
    cases hpart with
    | inSelectors hbegins hr hn =>
      refine .mk hsheet ?_
      have hp := IsPart.inBlock (hbegins.append [t]) (.mk hr ⟨hn, hsel⟩ hb) .nil
      rwa [List.append_nil] at hp
  | close hb =>
    cases hpart with
    | inBlock hbegins hg hbody =>
      have hs := hsheet.append (.rule (.mk hbegins hg hbody hb) .nil)
      have hr := HasRead.mk (m := ⟨_, .betweenRules⟩) hs .betweenRules
      simpa using hr
  | name hk =>
    cases hpart with
    | inBlock hbegins hg hbody =>
      have ht : t.isTransparent = false := by simp [Token.isTransparent, hk]
      refine .mk hsheet (.inDeclaration hbegins hg hbody ?_)
      simpa [significant, ht] using IsDraft.named hk
  | draft ht hd =>
    cases hpart with
    | inDeclaration hbegins hg hbody hdraft =>
      refine .mk hsheet ?_
      rw [List.append_assoc]
      exact .inDeclaration hbegins hg hbody (significant_snoc ht ▸ hdraft.step hd)
  | entry ht hd =>
    cases hpart with
    | inDeclaration hbegins hg hbody hdraft =>
      refine .mk hsheet ?_
      have he := hdraft.complete hd
      rw [← significant_snoc ht] at he
      have hp := IsPart.inBlock hbegins hg (hbody.append (.entry he .nil))
      simpa using hp

/-- Any number of tokens: the induction is on those still to be fed, behind what was read. -/
theorem HasRead.feedAll {m m' : Machine} {ts us : List Token} (h : HasRead σ m ts)
    (hf : m.feedAll σ us = .ok m') : HasRead σ m' (ts ++ us) := by
  induction us generalizing m ts with
  | nil =>
    cases hf
    rwa [List.append_nil]
  | cons u us ih =>
    rw [Machine.feedAll] at hf
    split at hf
    · cases hf
    · rename_i m₁ hu
      have hi := ih (h.step (Machine.step_of_feed hu)) hf
      rwa [List.append_assoc] at hi

/-- Between rules nothing is half read. -/
theorem HasRead.sheet {done : List Ruleset} {ts : List Token}
    (h : HasRead σ ⟨done, .betweenRules⟩ ts) : IsSheet σ ts done := by
  obtain ⟨hs, hp⟩ := h
  cases hp
  rwa [List.append_nil]

/-- What the machine accepts is a sheet of the grammar. -/
theorem isSheet_of_accepted {tokens : List Token} {rs : List Ruleset}
    (h : Ruleset.ofTokens σ tokens = .ok rs) : IsSheet σ tokens rs := by
  rw [Machine.ofTokens_eq_ok_iff] at h
  exact (HasRead.feedAll (.mk .nil .betweenRules) h).sheet

theorem IsSheet.accepted {tokens : List Token} {rs : List Ruleset} (h : IsSheet σ tokens rs) :
    Ruleset.ofTokens σ tokens = .ok rs := by
  rw [Machine.ofTokens_eq_ok_iff]
  exact feedAll_sheet σ [] h

end

/-- The machine accepts exactly the stylesheets of the grammar, with the rulesets that they are. -/
theorem ofTokens_iff_isSheet (σ : Settings) (tokens : List Token) (rs : List Ruleset) :
    Ruleset.ofTokens σ tokens = .ok rs ↔ IsSheet σ tokens rs :=
  ⟨isSheet_of_accepted, IsSheet.accepted⟩

end Cartosheet.Sheet
