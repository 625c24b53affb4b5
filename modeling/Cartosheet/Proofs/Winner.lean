import Cartosheet.Proofs.Precedence
import Cartosheet.Style

namespace Cartosheet

/-- The declaration is for the property and applies. -/
def Situation.competes (x : Situation) (property : String) (d : Declaration) : Bool :=
  x.applies d && d.property.name = property

@[simp] theorem Situation.competes_iff (x : Situation) (property : String) (d : Declaration) :
    x.competes property d = true ↔ x.applies d = true ∧ d.property.name = property := by
  simp [competes]

namespace Style

theorem get?_empty (property : String) : empty.get? property = none := rfl

/-- Wherever a declaration is put, it is found for its own property and hides no other. -/
theorem find?_put (d : Declaration) (ws : List Declaration) (property : String) :
    (put d ws).find? (·.property.name = property) =
      if d.property.name = property then some d
      else ws.find? (·.property.name = property) := by
  induction ws with
  | nil =>
    by_cases hd : d.property.name = property <;> simp [put, hd]
  | cons w ws ih =>
    rw [put]
    split
    · -- before `w`, which is still found behind it
      by_cases hd : d.property.name = property <;> simp [hd]
    · split
      · -- in the place of `w`, which was for the same property
        rename_i hw
        by_cases hd : d.property.name = property
        · simp [hd]
        · simp [hd, hw ▸ hd]
      · -- after `w`, which is for another
        rename_i hw
        by_cases hd : d.property.name = property
        · have hne : ¬w.property.name = property := fun he => hw (hd.trans he.symm)
          simp [hd, hne, ih]
        · simp [hd, ih, List.find?_cons]

theorem get?_insert (s : Style) (d : Declaration) (property : String) :
    (s.insert d).get? property =
      if d.property.name = property then some d else s.get? property :=
  find?_put d s.winners property

/-- What a fold of declarations into a style leaves for a property. -/
theorem get?_foldl (ds : List Declaration) (x : Situation) (s : Style) (property : String) :
    (ds.foldl (fun s d => if x.applies d then s.insert d else s) s).get? property =
      (ds.filter (x.competes property)).getLast?.or (s.get? property) := by
  induction ds generalizing s with
  | nil => simp
  | cons d ds ih =>
    rw [List.foldl_cons, ih, List.filter_cons]
    by_cases ha : x.applies d = true
    · by_cases hn : d.property.name = property
      · have hc : x.competes property d = true := by simp [ha, hn]
        rw [if_pos ha, if_pos hc, get?_insert, if_pos hn, List.getLast?_cons]
        cases (ds.filter (x.competes property)).getLast? <;> rfl
      · have hc : ¬x.competes property d = true := by simp [hn]
        rw [if_pos ha, if_neg hc, get?_insert, if_neg hn]
    · have hc : ¬x.competes property d = true := by simp [ha]
      rw [if_neg ha, if_neg hc]

/-- The last competitor wins. -/
theorem get?_resolve (ds : List Declaration) (x : Situation) (property : String) :
    (resolve ds x).get? property = (ds.filter (x.competes property)).getLast? := by
  rw [resolve, get?_foldl, get?_empty, Option.or_none]

end Style

/-- The declaration at place `i` of the list competes for the property, and every other competitor
stands below it. -/
structure Situation.Wins (x : Situation) (ds : List Declaration) (property : String)
    (d : Declaration) (i : Nat) : Prop where
  place : ds[i]? = some d
  competes : x.competes property d = true
  greatest : ∀ e j, ds[j]? = some e → x.competes property e = true → j ≠ i → e.Below j d i

/-- One declaration wins at most. -/
theorem Situation.Wins.unique {x : Situation} {ds : List Declaration} {property : String}
    {d e : Declaration} {i j : Nat} (hd : x.Wins ds property d i) (he : x.Wins ds property e j) :
    d = e := by
  by_cases hij : i = j
  · subst hij
    exact Option.some.inj (hd.place.symm.trans he.place)
  · have hde := he.greatest d i hd.place hd.competes hij
    have hed := hd.greatest e j he.place he.competes (Ne.symm hij)
    exact absurd hed hde.asymm

namespace Cascade

/-- The last competitor of the cascade wins by standing. -/
theorem wins_of_getLast? {ds : List Declaration} {x : Situation} {property : String}
    {d : Declaration} (h : ((sort ds).filter (x.competes property)).getLast? = some d) :
    ∃ i, x.Wins ds property d i := by
  obtain ⟨placed, hperm, hord, hsort⟩ := sort_by_standing ds
  have hmem (e : Declaration) (j : Nat) : (e, j) ∈ placed ↔ ds[j]? = some e := by
    rw [hperm.mem_iff, List.mk_mem_zipIdx_iff_getElem?]
  rw [← hsort, List.filter_map, List.getLast?_map, Option.map_eq_some_iff] at h
  obtain ⟨⟨d, i⟩, hlast, rfl⟩ := h
  obtain ⟨before, hb⟩ := List.getLast?_eq_some_iff.mp hlast
  have hcomp (a : Declaration × Nat) :
      a ∈ before ++ [(d, i)] ↔ a ∈ placed ∧ x.competes property a.1 = true := by
    rw [← hb, List.mem_filter]
    rfl
  obtain ⟨hd, hc⟩ := (hcomp (d, i)).mp (by simp)
  refine ⟨i, (hmem d i).mp hd, hc, ?_⟩
  intro e j he hce hji
  have hp := hord.filter (x.competes property ∘ (·.1))
  rw [hb] at hp
  rcases List.mem_append.mp ((hcomp (e, j)).mpr ⟨(hmem e j).mpr he, hce⟩) with hm | hm
  · exact Declaration.below_of_not_below
      ((List.pairwise_append.mp hp).2.2 (e, j) hm (d, i) (by simp)) hji
  · obtain ⟨-, rfl⟩ := Prod.mk.inj (List.mem_singleton.mp hm)
    exact absurd rfl hji

theorem getLast?_of_wins {ds : List Declaration} {x : Situation} {property : String}
    {d : Declaration} {i : Nat} (h : x.Wins ds property d i) :
    ((sort ds).filter (x.competes property)).getLast? = some d := by
  have hm : d ∈ (sort ds).filter (x.competes property) :=
    List.mem_filter.mpr ⟨List.mem_mergeSort.mpr (List.mem_of_getElem? h.place), h.competes⟩
  cases hl : ((sort ds).filter (x.competes property)).getLast? with
  | none =>
    rw [List.getLast?_eq_none_iff.mp hl] at hm
    cases hm
  | some e =>
    obtain ⟨j, he⟩ := wins_of_getLast? hl
    rw [h.unique he]

end Cascade

/-- Without a competitor there is no winner; otherwise it is the competitor of greatest standing.
So nothing beats an important competitor but another, and with equal importance nothing beats one
with more ids. -/
theorem Style.get?_resolve_sort (ds : List Declaration) (x : Situation) (property : String) :
    ((resolve (Cascade.sort ds) x).get? property = none ↔
      ∀ d ∈ ds, x.applies d = true → d.property.name ≠ property) ∧
    (∀ d, (resolve (Cascade.sort ds) x).get? property = some d ↔
      ∃ i, x.Wins ds property d i) ∧
    ∀ d, (resolve (Cascade.sort ds) x).get? property = some d →
      ∀ e ∈ ds, x.applies e = true → e.property.name = property →
        (e.important = true → d.important = true) ∧
        (e.important = d.important →
          e.selector.specificity.ids ≤ d.selector.specificity.ids) := by
  rw [get?_resolve]
  refine ⟨?_, ?_, ?_⟩
  · rw [List.getLast?_eq_none_iff, List.filter_eq_nil_iff]
    simp [Cascade.sort]
  · exact fun d => ⟨Cascade.wins_of_getLast?, fun ⟨_, h⟩ => Cascade.getLast?_of_wins h⟩
  · intro d h e he ha hn
    obtain ⟨i, hw⟩ := Cascade.wins_of_getLast? h
    obtain ⟨j, hj⟩ := List.mem_iff_getElem?.mp he
    by_cases hji : j = i
    · subst hji
      obtain rfl := Option.some.inj (hj.symm.trans hw.place)
      exact ⟨id, fun _ => Nat.le_refl _⟩
    · have hbelow := hw.greatest e j hj (by simp [ha, hn]) hji
      exact ⟨hbelow.important, hbelow.ids_le⟩

end Cartosheet
