import Cartosheet.Proofs.NameMatching
import Cartosheet.Proofs.Winner

namespace Cartosheet

namespace Binary64

/-- One number, or two of one value as the two zeros are. -/
def Same (x y : Binary64) : Prop := x = y ∨ x.compare? y = some .eq

theorem Same.place?_eq {x y : Binary64} (h : x.Same y) : x.place? = y.place? := by
  rcases h with rfl | h
  · rfl
  · unfold compare? at h
    split at h
    · rename_i a b hx hy
      simp only [Option.some.injEq, Ordering.then_eq_eq, Int.compare_eq_eq] at h
      rw [hx, hy, Prod.ext h.1 h.2]
    · cases h

/-- Only the place on the number line is ever compared. -/
theorem Same.compare?_eq {x y : Binary64} (h : x.Same y) (z : Binary64) :
    x.compare? z = y.compare? z := by
  simp only [compare?, h.place?_eq]

end Binary64

theorem Test.inRange_of_same {s r : Binary64} (h : s.Same r) (t : Test) :
    t.inRange s = t.inRange r := by
  simp only [inRange, Operator.evaluate, h.compare?_eq]

theorem Selector.admitsScale_of_same {s r : Binary64} (h : s.Same r) (selector : Selector) :
    selector.admitsScale s = selector.admitsScale r := by
  simp only [admitsScale, Test.inRange_of_same h]

namespace Situation

/-- Whatever satisfies a name in the first situation is there in the second, and the second is at no
scale but that of the first. -/
structure Narrower (x y : Situation) : Prop where
  tag : y.tag = x.tag ∨ x.tag = none
  id : y.id = x.id ∨ x.id = none
  classes : x.classes.Subperm y.classes
  scale : ∀ s, y.scale = some s → ∃ r, x.scale = some r ∧ s.Same r

variable {x y : Situation}

theorem Narrower.supply (h : x.Narrower y) : x.toLayer.supply.Subperm y.toLayer.supply := by
  have hheld {a b : Option String} (hab : b = a ∨ a = none) : a.toList.Sublist b.toList := by
    rcases hab with rfl | rfl
    · exact List.Sublist.refl _
    · exact List.nil_sublist _
  have htag := ((hheld h.tag).map Selector.Name.tag).subperm
  have hid := ((hheld h.id).map Selector.Name.id).subperm
  have hclasses := h.classes.map fun _ _ => Selector.Name.className.inj
  exact htag.append (hid.append hclasses)

theorem Narrower.matchesElement (h : x.Narrower y) {e : Selector.Element}
    (he : x.toLayer.matchesElement e = true) : y.toLayer.matchesElement e = true := by
  rw [Layer.matchesElement_iff_subperm] at he ⊢
  exact he.trans h.supply

theorem Narrower.admitsScale (h : x.Narrower y) {selector : Selector}
    (hx : x.scale.all selector.admitsScale = true) : y.scale.all selector.admitsScale = true := by
  cases hy : y.scale with
  | none => rfl
  | some s =>
    obtain ⟨r, hr, hsame⟩ := h.scale s hy
    rw [hr, Option.all_some] at hx
    rw [Option.all_some, Selector.admitsScale_of_same hsame, hx]

/-- Nothing that applies is lost. -/
theorem Narrower.applies (h : x.Narrower y) {d : Declaration} (hd : x.applies d = true) :
    y.applies d = true := by
  rw [Situation.applies, Bool.and_eq_true] at hd ⊢
  exact ⟨h.matchesElement hd.1, h.admitsScale hd.2⟩

theorem Narrower.competes (h : x.Narrower y) {property : String} {d : Declaration}
    (hd : x.competes property d = true) : y.competes property d = true := by
  rw [competes_iff] at hd ⊢
  exact ⟨h.applies hd.1, hd.2⟩

end Situation

/-- In a wider situation everything applies that applied before, and each property that had a winner
has one, of at least the precedence of the other. -/
theorem Style.resolve_monotone (ds : List Declaration) (hds : Cascade.Ascending ds)
    (x y : Situation) (h : x.Narrower y) :
    (∀ d, x.applies d = true → y.applies d = true) ∧
      ∀ property d, (resolve ds x).get? property = some d →
        ∃ d', (resolve ds y).get? property = some d' ∧
          d.precedence.le d'.precedence = true := by
  refine ⟨fun d => h.applies, ?_⟩
  intro property d hd
  rw [get?_resolve] at hd
  obtain ⟨hmem, hcompetes⟩ := List.mem_filter.mp (List.mem_of_getLast? hd)
  have hcompetitor : d ∈ ds.filter (y.competes property) :=
    List.mem_filter.mpr ⟨hmem, h.competes hcompetes⟩
  rw [get?_resolve]
  cases hlast : (ds.filter (y.competes property)).getLast? with
  | none =>
    rw [List.getLast?_eq_none_iff.mp hlast] at hcompetitor
    cases hcompetitor
  | some d' => exact ⟨d', rfl, (hds.filter _).le_last hlast hcompetitor⟩

/-- A class more and no scale any more: the declaration that they let in takes the property over. -/
theorem Style.resolve_monotone_classes :
    let width : Property := ⟨"line-width", .integer⟩
    let far : Test := ⟨Test.scaleDenominator, .greater, .number (.ofInt 5000)⟩
    let d : Declaration := ⟨⟨⟨[.className "a"], []⟩, none⟩, width, .integer 1, false, ⟨1, 6⟩⟩
    let d' : Declaration := ⟨⟨⟨[.className "b"], [far]⟩, none⟩, width, .integer 2, false, ⟨2, 6⟩⟩
    let x : Situation := { classes := ["a"], scale := some (.ofInt 1000) }
    let y : Situation := { tag := some "Layer", classes := ["b", "a"] }
    Cascade.Ascending [d, d'] ∧ x.Narrower y ∧ (resolve [d, d'] x).get? "line-width" = some d ∧
      (resolve [d, d'] y).get? "line-width" = some d' ∧
      d.precedence.le d'.precedence = true := by
  intro width far d d' x y
  have hds : Cascade.Ascending [d, d'] := List.pairwise_pair.mpr (by decide)
  have hxy : x.Narrower y := by
    refine ⟨.inr rfl, .inl rfl, ?_, ?_⟩
    · exact (List.sublist_cons_self "b" ["a"]).subperm
    · rintro s ⟨⟩
  have hx : (resolve [d, d'] x).get? "line-width" = some d := by decide +kernel
  have hy : (resolve [d, d'] y).get? "line-width" = some d' := by decide +kernel
  obtain ⟨w, hw, hle⟩ := (resolve_monotone [d, d'] hds x y hxy).2 "line-width" d hx
  obtain rfl := Option.some.inj (hy.symm.trans hw)
  exact ⟨hds, hxy, hx, hy, hle⟩

end Cartosheet
