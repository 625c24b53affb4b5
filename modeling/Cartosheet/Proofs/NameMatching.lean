import Cartosheet.Selector.Matching
import Mathlib.Data.List.Count
import Mathlib.Data.List.Perm.Subperm

namespace Cartosheet

open Selector (Name Element)

/-- The names that have to be satisfied. -/
def Selector.Element.demand (e : Element) : List Name := e.names.filter (· ≠ .universal)

namespace Layer

/-- What the layer satisfies names with, each thing once. -/
def supply (layer : Layer) : List Name :=
  layer.tag.toList.map .tag ++ (layer.id.toList.map .id ++ layer.classes.map .className)

/-- The layer has enough for the names, repetitions counted. -/
def Covers (layer : Layer) (names : List Name) : Prop :=
  ∀ n, n ≠ .universal → names.count n ≤ layer.supply.count n

theorem count_supply_className (layer : Layer) (c : String) :
    layer.supply.count (.className c) = layer.classes.count c := by
  have htag : Name.className c ∉ layer.tag.toList.map .tag := by simp
  have hid : Name.className c ∉ layer.id.toList.map .id := by simp
  rw [supply, List.count_append, List.count_append, List.count_eq_zero.mpr htag,
    List.count_eq_zero.mpr hid, Nat.zero_add, Nat.zero_add]
  exact List.count_map_of_injective _ _ (fun _ _ => Name.className.inj) c

/-- Names of a kind for which the layer holds one thing at most. -/
structure Single (layer : Layer) (wrap : String → Name) (isKind : Name → Bool)
    (held : Option String) : Prop where
  kind : ∀ n, isKind n = true ↔ ∃ s, n = wrap s
  demanded : ∀ s, wrap s ≠ .universal
  supplied : ∀ s, layer.supply.count (wrap s) = if held = some s then 1 else 0

theorem count_toList_map {wrap : String → Name} (h : Function.Injective wrap)
    (held : Option String) (s : String) :
    (held.toList.map wrap).count (wrap s) = if held = some s then 1 else 0 := by
  rw [List.count_map_of_injective _ _ h]
  cases held with
  | none => rfl
  | some r => simp [List.count_singleton]

theorem single_tag (layer : Layer) : layer.Single .tag Name.isTag layer.tag := by
  refine ⟨fun n => ?_, fun t => by simp, fun t => ?_⟩
  · cases n <;> simp [Name.isTag]
  · have hid : Name.tag t ∉ layer.id.toList.map .id := by simp
    have hclass : Name.tag t ∉ layer.classes.map .className := by simp
    rw [supply, List.count_append, List.count_append, List.count_eq_zero.mpr hid,
      List.count_eq_zero.mpr hclass]
    exact count_toList_map (fun _ _ => Name.tag.inj) layer.tag t

theorem single_id (layer : Layer) : layer.Single .id Name.isId layer.id := by
  refine ⟨fun n => ?_, fun i => by simp, fun i => ?_⟩
  · cases n <;> simp [Name.isId]
  · have htag : Name.id i ∉ layer.tag.toList.map .tag := by simp
    have hclass : Name.id i ∉ layer.classes.map .className := by simp
    rw [supply, List.count_append, List.count_append, List.count_eq_zero.mpr htag,
      List.count_eq_zero.mpr hclass, Nat.zero_add]
    exact count_toList_map (fun _ _ => Name.id.inj) layer.id i

variable {layer : Layer} {before names : List Name}

theorem Covers.of_append (h : layer.Covers (before ++ names)) : layer.Covers before := by
  intro n hn
  have hcount := h n hn
  rw [List.count_append] at hcount
  omega

/-- One more name is covered if something is left over for it. -/
theorem Covers.concat_iff (h : layer.Covers before) {n : Name} (hn : n ≠ .universal) :
    layer.Covers (before ++ [n]) ↔ before.count n < layer.supply.count n := by
  constructor
  · intro hnext
    have hcount := hnext n hn
    rw [List.count_append, List.count_singleton_self] at hcount
    omega
  · intro hleft m hm
    rw [List.count_append]
    by_cases hmn : n = m
    · subst hmn
      rw [List.count_singleton_self]
      omega
    · have hother : [n].count m = 0 := List.count_eq_zero.mpr (by simp [Ne.symm hmn])
      rw [hother]
      exact h m hm

section

variable {wrap : String → Name} {isKind : Name → Bool} {held : Option String}

/-- The one thing held is left over as long as no name of its kind has come before. -/
theorem Single.left_over_iff (hs : layer.Single wrap isKind held) (h : layer.Covers before)
    (s : String) :
    before.count (wrap s) < layer.supply.count (wrap s) ↔
      before.all (fun n => !isKind n) = true ∧ held = some s := by
  rw [hs.supplied, List.all_eq_true]
  constructor
  · intro hleft
    have hheld : held = some s := by
      by_contra hne
      rw [if_neg hne] at hleft
      omega
    rw [if_pos hheld] at hleft
    refine ⟨fun n hn => ?_, hheld⟩
    rw [Bool.not_eq_true', Bool.eq_false_iff]
    intro hkind
    obtain ⟨r, rfl⟩ := (hs.kind n).mp hkind
    -- a name of the kind before has taken the only thing held, which is the one asked for now
    have hpos := List.count_pos_iff.mpr hn
    have hcovered := h (wrap r) (hs.demanded r)
    rw [hs.supplied] at hcovered
    by_cases hr : held = some r
    · obtain rfl : s = r := Option.some.inj (hheld.symm.trans hr)
      omega
    · rw [if_neg hr] at hcovered
      omega
  · rintro ⟨hnone, hheld⟩
    have hzero : before.count (wrap s) = 0 := by
      rw [List.count_eq_zero]
      intro hmem
      have hkind := hnone _ hmem
      rw [(hs.kind _).mpr ⟨s, rfl⟩] at hkind
      cases hkind
    rw [if_pos hheld, hzero]
    exact Nat.one_pos

/-- All names of the kind are covered if there is one of them at most and it asks for what is
held. -/
theorem Single.count_le_iff (hs : layer.Single wrap isKind held) (names : List Name) :
    (∀ s, names.count (wrap s) ≤ layer.supply.count (wrap s)) ↔
      names.countP isKind ≤ 1 ∧ ∀ s, wrap s ∈ names → held = some s := by
  simp only [hs.supplied]
  constructor
  · intro hcount
    have hheld (s : String) (hmem : wrap s ∈ names) : held = some s := by
      by_contra hne
      have hpos := List.count_pos_iff.mpr hmem
      have hle := hcount s
      rw [if_neg hne] at hle
      omega
    refine ⟨?_, hheld⟩
    cases held with
    | none =>
      have hzero : names.countP isKind = 0 := by
        rw [List.countP_eq_zero]
        intro n hn hkind
        obtain ⟨s, rfl⟩ := (hs.kind n).mp hkind
        cases hheld s hn
      omega
    | some s =>
      -- the names of the kind are all one name
      have hsame : names.countP isKind = names.count (wrap s) := by
        refine List.countP_congr fun n hn => ?_
        rw [hs.kind, beq_iff_eq]
        constructor
        · rintro ⟨r, rfl⟩
          rw [Option.some.inj (hheld r hn)]
        · intro he
          exact ⟨s, he⟩
      have hle := hcount s
      rw [if_pos rfl] at hle
      omega
  · rintro ⟨honce, hheld⟩ s
    by_cases hmem : wrap s ∈ names
    · rw [if_pos (hheld s hmem)]
      refine Nat.le_trans (List.countP_mono_left fun n _ hn => ?_) honce
      exact (hs.kind n).mpr ⟨s, beq_iff_eq.mp hn⟩
    · rw [List.count_eq_zero.mpr hmem]
      exact Nat.zero_le _

end

/-- Step: a name is satisfied exactly if it is covered together with those before it. -/
theorem Covers.satisfies_iff (h : layer.Covers before) (n : Name) :
    layer.satisfies before n = true ↔ layer.Covers (before ++ [n]) := by
  cases n with
  | universal =>
    refine iff_of_true rfl ?_
    intro m hm
    have hstar : [Name.universal].count m = 0 := List.count_eq_zero.mpr (by simpa using hm)
    rw [List.count_append, hstar]
    exact h m hm
  | tag t =>
    have hstep : layer.satisfies before (.tag t) =
        (before.all (fun n => !n.isTag) && decide (layer.tag = some t)) := rfl
    rw [hstep, h.concat_iff (by simp), layer.single_tag.left_over_iff h, Bool.and_eq_true,
      decide_eq_true_iff]
  | id i =>
    have hstep : layer.satisfies before (.id i) =
        (before.all (fun n => !n.isId) && decide (layer.id = some i)) := rfl
    rw [hstep, h.concat_iff (by simp), layer.single_id.left_over_iff h, Bool.and_eq_true,
      decide_eq_true_iff]
  | className c =>
    rw [h.concat_iff (by simp), count_supply_className]
    exact decide_eq_true_iff

/-- Run: names are satisfied one after the other exactly if all of them are covered. -/
theorem Covers.satisfiesAll_iff (h : layer.Covers before) (names : List Name) :
    layer.satisfiesAll before names = true ↔ layer.Covers (before ++ names) := by
  induction names generalizing before with
  | nil =>
    rw [List.append_nil]
    exact iff_of_true rfl h
  | cons n names ih =>
    rw [satisfiesAll, Bool.and_eq_true, h.satisfies_iff, List.append_cons before n names]
    constructor
    · rintro ⟨hn, hrest⟩
      exact (ih hn).mp hrest
    · intro hall
      exact ⟨hall.of_append, (ih hall.of_append).mpr hall⟩

theorem matchesElement_iff_covers (layer : Layer) (e : Element) :
    layer.matchesElement e = true ↔ layer.Covers e.names := by
  have hnone : layer.Covers [] := fun n _ => Nat.zero_le _
  exact hnone.satisfiesAll_iff e.names

/-- What an element asks of a layer: at most one tag and that of the layer, at most one id and that
of the layer, and each class no more often than the layer has it. -/
structure Meets (layer : Layer) (e : Element) : Prop where
  tags : e.names.countP Name.isTag ≤ 1
  tag : ∀ t, .tag t ∈ e.names → layer.tag = some t
  ids : e.names.countP Name.isId ≤ 1
  id : ∀ i, .id i ∈ e.names → layer.id = some i
  classes : ∀ c, e.names.count (.className c) ≤ layer.classes.count c

theorem covers_iff_meets (layer : Layer) (e : Element) :
    layer.Covers e.names ↔ layer.Meets e := by
  have htags := layer.single_tag.count_le_iff e.names
  have hids := layer.single_id.count_le_iff e.names
  constructor
  · intro h
    obtain ⟨htags, htag⟩ := htags.mp fun t => h (.tag t) (by simp)
    obtain ⟨hids, hid⟩ := hids.mp fun i => h (.id i) (by simp)
    refine ⟨htags, htag, hids, hid, fun c => ?_⟩
    rw [← count_supply_className]
    exact h (.className c) (by simp)
  · intro h n hn
    cases n with
    | universal => exact absurd rfl hn
    | tag t => exact htags.mpr ⟨h.tags, h.tag⟩ t
    | id i => exact hids.mpr ⟨h.ids, h.id⟩ i
    | className c =>
      rw [count_supply_className]
      exact h.classes c

theorem covers_iff_subperm (layer : Layer) (e : Element) :
    layer.Covers e.names ↔ e.demand.Subperm layer.supply := by
  have hcount {n : Name} (hn : n ≠ .universal) : e.demand.count n = e.names.count n :=
    List.count_filter (by simpa using hn)
  rw [List.subperm_ext_iff]
  constructor
  · intro h n hn
    have hstar : n ≠ .universal := by simpa using (List.mem_filter.mp hn).2
    rw [hcount hstar]
    exact h n hstar
  · intro h n hn
    rw [← hcount hn]
    by_cases hmem : n ∈ e.demand
    · exact h n hmem
    · rw [List.count_eq_zero.mpr hmem]
      exact Nat.zero_le _

theorem matchesElement_iff_subperm (layer : Layer) (e : Element) :
    layer.matchesElement e = true ↔ e.demand.Subperm layer.supply :=
  (matchesElement_iff_covers layer e).trans (covers_iff_subperm layer e)

theorem perm_supply {layer' : Layer} (htag : layer'.tag = layer.tag) (hid : layer'.id = layer.id)
    (hclasses : layer'.classes.Perm layer.classes) : layer'.supply.Perm layer.supply := by
  rw [supply, supply, htag, hid]
  exact ((hclasses.map _).append_left _).append_left _

/-- An element matches a layer exactly if it asks for no more than the layer has: its names but `*`
are among the things of the layer as a multiset. So the order of the names and that of the classes
do not matter, and no `*` does. -/
theorem matchesElement_iff_inclusion (layer : Layer) (e : Element) :
    (layer.matchesElement e = true ↔ layer.Meets e) ∧
      (layer.matchesElement e = true ↔ e.demand.Subperm layer.supply) ∧
      ∀ (layer' : Layer) (e' : Element), layer'.tag = layer.tag → layer'.id = layer.id →
        layer'.classes.Perm layer.classes → e'.demand.Perm e.demand →
          layer'.matchesElement e' = layer.matchesElement e := by
  refine ⟨?_, matchesElement_iff_subperm layer e, ?_⟩
  · exact (matchesElement_iff_covers layer e).trans (covers_iff_meets layer e)
  · intro layer' e' htag hid hclasses hdemand
    rw [Bool.eq_iff_iff, matchesElement_iff_subperm, matchesElement_iff_subperm,
      hdemand.subperm_right, (perm_supply htag hid hclasses).subperm_left]

end Layer

end Cartosheet
