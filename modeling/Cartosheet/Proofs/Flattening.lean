import Cartosheet.Proofs.Precedence
import Mathlib.Algebra.GroupWithZero.Nat

namespace Cartosheet

/-- Each selector with each entry of the block, all entries under the first selector first. -/
def Ruleset.pairings (r : Ruleset) : List (Selector × Entry) :=
  r.selectors.flatMap fun s => r.entries.map fun e => (s, e)

theorem Ruleset.length_pairings (r : Ruleset) : r.pairings.length = r.count := by
  simp [pairings, count, List.length_flatMap, List.map_const']

namespace Cascade

/-- The declaration of a pairing. -/
def declare (x : Selector × Entry) : Declaration :=
  ⟨x.1, x.2.property, x.2.value, x.2.important, x.2.position⟩

/-- What a pairing is placed by: importance, the counts of the selector's specificity, and the line
and column of the entry, from the heaviest to the lightest. -/
def weight (x : Selector × Entry) : List Nat :=
  [if x.2.important then 1 else 0, x.1.specificity.ids, x.1.specificity.names,
    x.1.specificity.tests, x.2.position.line, x.2.position.column]

/-- `placed` holds the pairings of `pairs` by ascending weight, and those of one weight as they
stood. -/
structure Arranges (pairs placed : List (Selector × Entry)) : Prop where
  perm : placed.Perm pairs
  ascending : placed.Pairwise fun x y => ¬List.Lex (· < ·) (weight y) (weight x)
  stable : ∀ w, placed.filter (weight · = w) = pairs.filter (weight · = w)

/-- The fields that declarations are compared by are the weight of their pairing. -/
theorem ranks_declare (x : Selector × Entry) : (declare x).precedence.ranks = weight x := by
  obtain ⟨s, p, v, important, position⟩ := x
  cases important <;> rfl

theorem declarations_eq_map (r : Ruleset) : r.declarations = r.pairings.map declare := by
  rw [Ruleset.declarations, Declaration.crossProduct, Ruleset.pairings, List.map_flatMap]
  congr
  funext s
  rw [List.map_map]
  rfl

/-- The pairings in the order of the precedence that their declarations have. -/
def arranged (pairs : List (Selector × Entry)) : List (Selector × Entry) :=
  pairs.mergeSort fun x y => (declare x).precedence.le (declare y).precedence

theorem sort_map_declare (pairs : List (Selector × Entry)) :
    sort (pairs.map declare) = (arranged pairs).map declare := by
  rw [sort, arranged, List.map_mergeSort]
  intro x _ y _
  rfl

theorem arranges_arranged (pairs : List (Selector × Entry)) : Arranges pairs (arranged pairs) := by
  refine ⟨List.mergeSort_perm pairs _, ?_, ?_⟩
  · have hsorted : (arranged pairs).Pairwise
        fun x y => (declare x).precedence.le (declare y).precedence = true :=
      List.pairwise_mergeSort
        (fun x y z => Precedence.le_trans (declare x).precedence (declare y).precedence
          (declare z).precedence)
        (fun x y => Precedence.le_total (declare x).precedence (declare y).precedence) pairs
    refine hsorted.imp fun {x y} hle => ?_
    rw [Precedence.le_iff_ranks, ranks_declare, ranks_declare] at hle
    exact hle
  · intro w
    by_cases hw : ∃ x, weight x = w
    · obtain ⟨x, rfl⟩ := hw
      have hkey (y : Selector × Entry) :
          weight y = weight x ↔ (declare y).precedence = (declare x).precedence := by
        rw [← ranks_declare, ← ranks_declare]
        exact ⟨Precedence.ranks_inj, congrArg Precedence.ranks⟩
      simp only [hkey]
      exact Precedence.filter_mergeSort (fun y => (declare y).precedence) _ pairs
    · have hnone (l : List (Selector × Entry)) : l.filter (weight · = w) = [] := by
        refine List.filter_eq_nil_iff.mpr fun y _ hy => hw ⟨y, ?_⟩
        exact of_decide_eq_true hy
      rw [hnone, hnone]

theorem sort_of_ascending {ds : List Declaration} (h : Ascending ds) : sort ds = ds :=
  List.mergeSort_of_pairwise h

/-- Flattening arranges the pairings of the rulesets: nothing is lost, nothing comes twice, and
sorting once more changes nothing. -/
theorem flatten_arranges (rs : List Ruleset) :
    ∃ placed, Arranges (rs.flatMap Ruleset.pairings) placed ∧
      flatten rs = placed.map declare ∧
      (flatten rs).map (·.precedence.ranks) = placed.map weight ∧
      (flatten rs).length = (rs.map Ruleset.count).sum ∧
      sort (flatten rs) = flatten rs := by
  let pairs := rs.flatMap Ruleset.pairings
  have hplaced : flatten rs = (arranged pairs).map declare := by
    have hmap : rs.flatMap Ruleset.declarations = pairs.map declare := by
      rw [List.map_flatMap, ← funext declarations_eq_map]
    rw [flatten, hmap, sort_map_declare]
  have harranges := arranges_arranged pairs
  refine ⟨arranged pairs, harranges, hplaced, ?_, ?_, sort_of_ascending (ascending_sort _)⟩
  · rw [hplaced, List.map_map]
    exact List.map_congr_left fun x _ => ranks_declare x
  · rw [hplaced, List.length_map, harranges.perm.length_eq, List.length_flatMap]
    congr
    funext r
    exact r.length_pairings

end Cascade

end Cartosheet
