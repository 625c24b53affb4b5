import Cartosheet.Cascade

namespace Cartosheet

namespace Precedence

/-- The fields in the order in which they are compared. -/
def ranks (p : Precedence) : List Nat :=
  [p.important.toNat, p.specificity.ids, p.specificity.names, p.specificity.tests,
    p.position.line, p.position.column]

/-- The first field that differs decides. -/
theorem lex_ranks_iff (p q : Precedence) :
    List.Lex (· < ·) p.ranks q.ranks ↔
      p.important.toNat < q.important.toNat ∨ p.important.toNat = q.important.toNat ∧
      (p.specificity.ids < q.specificity.ids ∨ p.specificity.ids = q.specificity.ids ∧
      (p.specificity.names < q.specificity.names ∨ p.specificity.names = q.specificity.names ∧
      (p.specificity.tests < q.specificity.tests ∨ p.specificity.tests = q.specificity.tests ∧
      (p.position.line < q.position.line ∨ p.position.line = q.position.line ∧
        p.position.column < q.position.column)))) := by
  simp only [ranks, List.cons_lex_cons_iff, List.not_lex_nil, and_false, or_false]

theorem le_iff_ranks (p q : Precedence) :
    p.le q = true ↔ ¬List.Lex (· < ·) q.ranks p.ranks := by
  simp only [le, compare, Specificity.compare, Position.compare, importance, lex_ranks_iff,
    Ordering.isLE_then_iff_or, Nat.compare_eq_lt, Nat.compare_eq_eq, Nat.isLE_compare,
    Ordering.then_eq_lt, Ordering.then_eq_eq]
  omega

theorem le_trans (p q r : Precedence) (h : p.le q = true) (h' : q.le r = true) :
    p.le r = true := by
  rw [le_iff_ranks, lex_ranks_iff] at *
  omega

theorem le_total (p q : Precedence) : (p.le q || q.le p) = true := by
  rw [Bool.or_eq_true, le_iff_ranks, le_iff_ranks, lex_ranks_iff, lex_ranks_iff]
  omega

/-- The fields that are compared are all the fields there are. -/
theorem ranks_inj {p q : Precedence} (h : p.ranks = q.ranks) : p = q := by
  have htoNat : ∀ i j : Bool, i.toNat = j.toNat → i = j := by decide
  obtain ⟨i, ⟨_, _, _⟩, ⟨_, _⟩⟩ := p
  obtain ⟨j, ⟨_, _, _⟩, ⟨_, _⟩⟩ := q
  simp only [ranks, List.cons.injEq, and_true] at h
  obtain ⟨hij, rfl, rfl, rfl, rfl, rfl⟩ := h
  rw [htoNat i j hij]

theorem le_refl (p : Precedence) : p.le p = true := by
  simpa using le_total p p

theorem le_antisymm {p q : Precedence} (h : p.le q = true) (h' : q.le p = true) : p = q := by
  rw [le_iff_ranks] at h h'
  exact ranks_inj (List.lex_trichotomous (fun x y => by omega) h h')

/-- Sorting by precedence leaves things of one precedence in their order. -/
theorem filter_mergeSort {α : Type} (key : α → Precedence) (p : Precedence) (xs : List α) :
    (xs.mergeSort fun x y => (key x).le (key y)).filter (key · = p) = xs.filter (key · = p) := by
  have htie : (xs.filter (key · = p)).Pairwise fun x y => (key x).le (key y) = true := by
    rw [List.pairwise_filter]
    refine List.pairwise_of_forall ?_
    intro x y hx hy
    rw [of_decide_eq_true hx, of_decide_eq_true hy]
    exact le_refl p
  have hsub : (xs.filter (key · = p)).Sublist (xs.mergeSort fun x y => (key x).le (key y)) :=
    List.sublist_mergeSort (fun x y z => le_trans (key x) (key y) (key z))
      (fun x y => le_total (key x) (key y)) htie List.filter_sublist
  have hfilter := hsub.filter (key · = p)
  rw [List.filter_filter] at hfilter
  simp only [Bool.and_self] at hfilter
  have hperm := List.mergeSort_perm xs fun x y => (key x).le (key y)
  exact (hfilter.eq_of_length (hperm.filter _).length_eq.symm).symm

end Precedence

namespace Declaration

/-- The precedence of a declaration that stands at place `i` of a list, the place compared last. -/
def standing (d : Declaration) (i : Nat) : List Nat := d.precedence.ranks ++ [i]

/-- The declaration at place `i` stands below the other at place `j`. -/
def Below (d : Declaration) (i : Nat) (e : Declaration) (j : Nat) : Prop :=
  List.Lex (· < ·) (d.standing i) (e.standing j)

section

variable {d e : Declaration} {i j : Nat}

theorem below_iff :
    d.Below i e j ↔
      List.Lex (· < ·) d.precedence.ranks e.precedence.ranks ∨
        d.precedence.ranks = e.precedence.ranks ∧ i < j := by
  simp only [Below, standing, Precedence.ranks, List.cons_append, List.nil_append,
    List.cons_lex_cons_iff, List.not_lex_nil, List.cons.injEq, and_false, or_false, and_true]
  omega

theorem Below.asymm (h : d.Below i e j) : ¬e.Below j d i :=
  List.lex_asymm Nat.lt_asymm h

/-- Of two places one stands below the other. -/
theorem below_of_not_below (h : ¬e.Below j d i) (hij : i ≠ j) : d.Below i e j := by
  have hne : d.standing i ≠ e.standing j := by simp [standing, hij]
  refine Classical.byContradiction fun hn => hne ?_
  exact List.lex_trichotomous (fun x y => by omega) h hn

/-- The fields that weigh most never fall as the standing rises. -/
theorem Below.importance_ids (h : d.Below i e j) :
    d.important.toNat ≤ e.important.toNat ∧
      (d.important.toNat = e.important.toNat →
        d.selector.specificity.ids ≤ e.selector.specificity.ids) := by
  rcases below_iff.mp h with h | ⟨h, -⟩
  · rw [Precedence.lex_ranks_iff] at h
    simp only [precedence] at h
    omega
  · simp only [Precedence.ranks, precedence, List.cons.injEq] at h
    omega

/-- Nothing unimportant stands above an important declaration. -/
theorem Below.important (h : d.Below i e j) (hd : d.important = true) : e.important = true := by
  have hle := h.importance_ids.1
  cases he : e.important with
  | true => rfl
  | false => simp [hd, he] at hle

theorem Below.ids_le (h : d.Below i e j) (hi : d.important = e.important) :
    d.selector.specificity.ids ≤ e.selector.specificity.ids :=
  h.importance_ids.2 (by rw [hi])

end

/-- Ties of precedence are broken by the place. -/
theorem zipIdxLE_iff (a b : Declaration × Nat) :
    List.zipIdxLE (fun d e => d.precedence.le e.precedence) a b = true ↔
      ¬b.1.Below b.2 a.1 a.2 := by
  have h : List.zipIdxLE (fun d e => d.precedence.le e.precedence) a b = true ↔
      a.1.precedence.le b.1.precedence = true ∧
        (b.1.precedence.le a.1.precedence = true → a.2 ≤ b.2) := by
    rw [List.zipIdxLE]
    cases a.1.precedence.le b.1.precedence <;> cases b.1.precedence.le a.1.precedence <;> simp
  rw [h, Precedence.le_iff_ranks, Precedence.le_iff_ranks, below_iff]
  simp only [Precedence.lex_ranks_iff]
  simp only [Precedence.ranks, List.cons.injEq, and_true]
  omega

end Declaration

/-- No declaration stands before one of lower precedence. -/
def Cascade.Ascending (ds : List Declaration) : Prop :=
  ds.Pairwise fun d e => d.precedence.le e.precedence = true

theorem Cascade.ascending_sort (ds : List Declaration) : Ascending (sort ds) :=
  List.pairwise_mergeSort
    (fun d e f => Precedence.le_trans d.precedence e.precedence f.precedence)
    (fun d e => Precedence.le_total d.precedence e.precedence) ds

theorem Cascade.Ascending.filter {ds : List Declaration} (h : Ascending ds) (p : Declaration → Bool) :
    Ascending (ds.filter p) :=
  List.Pairwise.filter p h

/-- The last of an ascending list has the greatest precedence. -/
theorem Cascade.Ascending.le_last {ds : List Declaration} (h : Ascending ds) {last d : Declaration}
    (hlast : ds.getLast? = some last) (hd : d ∈ ds) :
    d.precedence.le last.precedence = true := by
  obtain ⟨before, rfl⟩ := List.getLast?_eq_some_iff.mp hlast
  rcases List.mem_append.mp hd with hb | hl
  · exact (List.pairwise_append.mp h).2.2 d hb last (by simp)
  · rw [List.mem_singleton.mp hl]
    exact Precedence.le_refl _

/-- The cascade is the list of declarations with their places, put in the order of standing. -/
theorem Cascade.sort_by_standing (ds : List Declaration) :
    ∃ placed : List (Declaration × Nat), placed.Perm ds.zipIdx ∧
      placed.Pairwise (fun a b => ¬b.1.Below b.2 a.1 a.2) ∧
      placed.map (·.1) = sort ds := by
  refine ⟨_, List.mergeSort_perm ds.zipIdx _, ?_, List.mergeSort_zipIdx⟩
  have htrans := List.zipIdxLE_trans fun (a b c : Declaration) =>
    Precedence.le_trans a.precedence b.precedence c.precedence
  have htotal := List.zipIdxLE_total fun (a b : Declaration) =>
    Precedence.le_total a.precedence b.precedence
  exact (List.pairwise_mergeSort htrans htotal _).imp (Declaration.zipIdxLE_iff _ _).mp

end Cartosheet
