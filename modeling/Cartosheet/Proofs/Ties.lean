import Cartosheet.Proofs.ScanOrder
import Cartosheet.Proofs.WellFormed
import Cartosheet.Proofs.Winner
import Cartosheet.Stylesheet
import Mathlib.Data.List.Nodup

namespace Cartosheet

namespace Sheet

variable {σ : Settings}

/-- An entry stands where one of its tokens does. -/
theorem IsEntry.position {ts : List Token} {e : Entry} (h : IsEntry σ ts e) :
    [e.position].Sublist (ts.map (·.position)) := by
  obtain ⟨-, -, -, -, -, -⟩ := h
  simp

theorem IsBody.positions {ts : List Token} {es : List Entry} (h : IsBody σ ts es) :
    (es.map (·.position)).Sublist (ts.map (·.position)) := by
  induction h with
  | nil => exact .slnil
  | skip _ _ ih => exact ih.cons _
  | @entry ts us e es he _ ih =>
    have hsig : ((significant ts).map (·.position)).Sublist (ts.map (·.position)) :=
      List.filter_sublist.map _
    rw [List.map_append]
    exact (he.position.trans hsig).append ih

theorem IsRule.positions {ts : List Token} {r : Ruleset} (h : IsRule σ ts r) :
    (r.entries.map (·.position)).Sublist (ts.map (·.position)) := by
  obtain ⟨-, -, hbody, -⟩ := h
  rw [List.append_assoc, List.map_append, List.map_append]
  exact List.sublist_append_of_sublist_right (List.sublist_append_of_sublist_left hbody.positions)

/-- The entries of a sheet stand in the order of their tokens. -/
theorem IsSheet.positions {ts : List Token} {rs : List Ruleset} (h : IsSheet σ ts rs) :
    ((rs.flatMap (·.entries)).map (·.position)).Sublist (ts.map (·.position)) := by
  induction h with
  | nil => exact .slnil
  | skip _ _ ih => exact ih.cons _
  | rule hr _ ih =>
    rw [List.flatMap_cons, List.map_append, List.map_append]
    exact hr.positions.append ih

end Sheet

/-- A stylesheet has no two entries at one position. -/
theorem Stylesheet.nodup_positions {σ : Settings} {source : String} {rs : List Ruleset}
    (h : rulesets σ source = .ok rs) : ((rs.flatMap (·.entries)).map (·.position)).Nodup := by
  have hscan : ((Token.scan source).map (·.position)).Nodup :=
    List.pairwise_map.mpr ((Token.pairwise_scan source).imp Position.Before.ne)
  exact hscan.sublist (Sheet.isSheet_of_accepted h).positions

/-- The position tells which entry it is, and of which ruleset. -/
theorem Ruleset.eq_of_position {rs : List Ruleset}
    (h : ((rs.flatMap (·.entries)).map (·.position)).Nodup) {r r' : Ruleset} {e e' : Entry}
    (hr : r ∈ rs) (hr' : r' ∈ rs) (he : e ∈ r.entries) (he' : e' ∈ r'.entries)
    (hp : e.position = e'.position) : r = r' ∧ e = e' := by
  let held := rs.flatMap fun r => r.entries.map fun e => (r, e)
  have hheld : (held.map (·.2.position)).Nodup := by
    simpa [held, List.map_flatMap, Function.comp_def] using h
  have hmem : (r, e) ∈ held := by simp [held, hr, he]
  have hmem' : (r', e') ∈ held := by simp [held, hr', he']
  exact Prod.mk.inj (List.inj_on_of_nodup_map hheld hmem hmem' hp)

/-- The declaration is an entry of the ruleset under one of its selectors. -/
structure Declaration.StemsFrom (d : Declaration) (r : Ruleset) (e : Entry) : Prop where
  selector : d.selector ∈ r.selectors
  entry : e ∈ r.entries
  entry_eq : d.entry = e

theorem Cascade.stemsFrom_of_mem {rs : List Ruleset} {d : Declaration} (h : d ∈ flatten rs) :
    ∃ r ∈ rs, ∃ e, d.StemsFrom r e := by
  obtain ⟨r, hr, s, hs, e, he, rfl⟩ := mem_flatten.mp h
  exact ⟨r, hr, e, hs, he, rfl⟩

/-- A tie is one entry under two selectors of its ruleset. -/
theorem Cascade.stemsFrom_of_tie {rs : List Ruleset}
    (h : ((rs.flatMap (·.entries)).map (·.position)).Nodup) {d d' : Declaration}
    (hd : d ∈ flatten rs) (hd' : d' ∈ flatten rs) (hp : d.precedence = d'.precedence) :
    ∃ r ∈ rs, ∃ e, d.StemsFrom r e ∧ d'.StemsFrom r e := by
  obtain ⟨r, hr, e, hs⟩ := stemsFrom_of_mem hd
  obtain ⟨r', hr', e', hs'⟩ := stemsFrom_of_mem hd'
  have hpos : e.position = e'.position := by
    rw [← hs.entry_eq, ← hs'.entry_eq]
    exact congrArg (·.position) hp
  obtain ⟨rfl, rfl⟩ := Ruleset.eq_of_position h hr hr' hs.entry hs'.entry hpos
  exact ⟨r, hr, e, hs, hs'⟩

namespace Cascade

/-- What ties agree on is the same for the last of any two ascending orders. -/
theorem map_getLast?_of_perm {α : Type} {ds ds' : List Declaration} (hperm : ds'.Perm ds)
    (h : Ascending ds) (h' : Ascending ds') (f : Declaration → α)
    (hties : ∀ d ∈ ds, ∀ e ∈ ds, d.precedence = e.precedence → f d = f e) :
    ds'.getLast?.map f = ds.getLast?.map f := by
  cases hl : ds.getLast? with
  | none =>
    obtain rfl := List.getLast?_eq_none_iff.mp hl
    rw [hperm.eq_nil]
    rfl
  | some d =>
    cases hl' : ds'.getLast? with
    | none =>
      obtain rfl := List.getLast?_eq_none_iff.mp hl'
      rw [hperm.symm.eq_nil] at hl
      cases hl
    | some d' =>
      have hd : d ∈ ds := List.mem_of_getLast? hl
      have hd' : d' ∈ ds := hperm.mem_iff.mp (List.mem_of_getLast? hl')
      have hle := h'.le_last hl' (hperm.mem_iff.mpr hd)
      have hge := h.le_last hl hd'
      exact congrArg some (hties d' hd' d hd (Precedence.le_antisymm hge hle))

end Cascade

/-- Where ties agree on their entries, every ascending order gives a style the same entries. -/
theorem Style.entry_resolve_of_perm {ds ds' : List Declaration} (hperm : ds'.Perm ds)
    (h : Cascade.Ascending ds) (h' : Cascade.Ascending ds')
    (hties : ∀ d ∈ ds, ∀ e ∈ ds, d.precedence = e.precedence → d.entry = e.entry)
    (x : Situation) (property : String) :
    ((resolve ds' x).get? property).map Declaration.entry =
      ((resolve ds x).get? property).map Declaration.entry := by
  rw [get?_resolve, get?_resolve]
  refine Cascade.map_getLast?_of_perm (hperm.filter _) (h.filter _) (h'.filter _) _ ?_
  intro d hd e he
  exact hties d (List.mem_filter.mp hd).1 e (List.mem_filter.mp he).1

/-- In the declarations of a stylesheet a tie of precedence is one entry under two selectors of one
group, so any other order that is still ascending gives every layer the same properties with the
same values. -/
theorem ties_harmless (σ : Settings) (source : String) (ds : List Declaration)
    (h : Stylesheet.declarations σ source = .ok ds) :
    (∃ rs, Stylesheet.rulesets σ source = .ok rs ∧
      ((rs.flatMap (·.entries)).map (·.position)).Nodup ∧
      ∀ d ∈ ds, ∀ d' ∈ ds, d.precedence = d'.precedence →
        ∃ r ∈ rs, ∃ e, d.StemsFrom r e ∧ d'.StemsFrom r e) ∧
    ∀ ds', ds'.Perm ds → Cascade.Ascending ds' → ∀ x property,
      ((Style.resolve ds' x).get? property).map Declaration.entry =
        ((Style.resolve ds x).get? property).map Declaration.entry := by
  obtain ⟨rs, hrs, rfl⟩ := Declaration.flatten_of_ofTokens h
  have hnodup := Stylesheet.nodup_positions hrs
  refine ⟨⟨rs, hrs, hnodup, fun d hd d' hd' => Cascade.stemsFrom_of_tie hnodup hd hd'⟩, ?_⟩
  intro ds' hperm hasc x property
  refine Style.entry_resolve_of_perm hperm (Cascade.ascending_sort _) hasc ?_ x property
  intro d hd e he hp
  obtain ⟨r, -, e, hs, hs'⟩ := Cascade.stemsFrom_of_tie hnodup hd he hp
  rw [hs.entry_eq, hs'.entry_eq]

/-- One entry under two ids: the two declarations tie, and the style is the same with the second
first. -/
theorem ties_harmless_ids :
    let σ : Settings := ⟨.ofList [⟨"line-width", .integer⟩], false⟩
    let source := "#a, #b \x7b line-width: 2; \x7d"
    let e : Entry := ⟨⟨"line-width", .integer⟩, .integer 2, false, ⟨1, 10⟩⟩
    let a : Declaration := .ofEntry ⟨⟨[.id "a"], []⟩, none⟩ e
    let b : Declaration := .ofEntry ⟨⟨[.id "b"], []⟩, none⟩ e
    a ≠ b ∧ a.precedence = b.precedence ∧ ∃ ds, Stylesheet.declarations σ source = .ok ds ∧
      [b, a].Perm ds ∧ ∀ x property,
        ((Style.resolve [b, a] x).get? property).map Declaration.entry =
          ((Style.resolve ds x).get? property).map Declaration.entry := by
  intro σ source e a b
  have hrs : Ruleset.ofTokens σ (Token.scan source) = .ok [⟨[a.selector, b.selector], [e]⟩] := by
    decide +kernel
  have hds : Stylesheet.declarations σ source = .ok (Cascade.sort [a, b]) := by
    refine ((Declaration.matches_ofTokens σ _).agree _).mp ?_
    rw [hrs]
    rfl
  have hperm : [b, a].Perm (Cascade.sort [a, b]) :=
    (List.Perm.swap a b []).trans (List.mergeSort_perm _ _).symm
  have hasc : Cascade.Ascending [b, a] := List.pairwise_pair.mpr (by decide)
  exact ⟨by decide, rfl, _, hds, hperm, (ties_harmless σ source _ hds).2 _ hperm hasc⟩

end Cartosheet
