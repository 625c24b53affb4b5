import Cartosheet.Declaration.Reader
import Cartosheet.Proofs.SelectorRun

namespace Cartosheet

/-- The places that a reader comes to inside a block. -/
def Place.inBlock : Place → Bool
  | beforeProperty | insideBlock | insideDeclaration | beforeColon | declarationValue => true
  | afterBang | afterImportant => true
  | _ => false

namespace Fault

/-- The fault lies in a block. -/
def inBlock : Fault → Bool
  | unexpected _ place => place.inBlock
  | unexpectedEnd place _ => place.inBlock
  | unknownProperty _ _ => true
  | invalidValue _ _ _ => true
  | invalidSelector _ _ _ => false
  | projection _ => false

/-- A token is out of place or missing; every other fault lies in what tokens mean. -/
def isSyntax : Fault → Bool
  | unexpected _ _ => true
  | unexpectedEnd _ _ => true
  | _ => false

theorem inBlock_ofSelector (text : String) (cause : SelectorFault) (p : Position) :
    (ofSelector text cause p).inBlock = false := by
  cases cause <;> rfl

end Fault

namespace Reader

variable {α β : Type}

/-- The reader faults only by syntax, and not in a block. -/
def FaultsBeforeBlock (r : Reader α) : Prop :=
  ∀ c f d, r c = .error f d → f.isSyntax = true ∧ f.inBlock = false

namespace FaultsBeforeBlock

theorem pure (a : α) : FaultsBeforeBlock (Pure.pure a : Reader α) := by
  intro c f d h
  cases h

theorem throw {t : Token} {place : Place} (hp : place.inBlock = false) :
    FaultsBeforeBlock (MonadExcept.throw (.unexpected t place) : Reader α) := by
  intro c f d h
  cases h
  exact ⟨rfl, hp⟩

theorem bind {r : Reader α} {k : α → Reader β} (hr : FaultsBeforeBlock r)
    (hk : ∀ a, FaultsBeforeBlock (k a)) : FaultsBeforeBlock (r >>= k) := by
  intro c f d h
  rcases bind_eq_error.mp h with h | ⟨a, e, -, h⟩
  · exact hr c f d h
  · exact hk a e f d h

theorem pastComments : FaultsBeforeBlock Reader.pastComments := by
  intro c f d h
  cases h

theorem endAt {place : Place} (hp : place.inBlock = false) :
    FaultsBeforeBlock (Reader.endAt place : Reader α) := by
  intro c f d h
  cases h
  exact ⟨rfl, hp⟩

theorem expect {place : Place} (hp : place.inBlock = false) :
    FaultsBeforeBlock (Reader.expect place) := by
  intro c f d h
  unfold Reader.expect at h
  split at h
  · cases h
  · cases h
    exact ⟨rfl, hp⟩

theorem require {accept : Token → Bool} {wrong missing : Place} (hw : wrong.inBlock = false)
    (hm : missing.inBlock = false) : FaultsBeforeBlock (Reader.require accept wrong missing) := by
  refine bind (expect hm) fun t => ?_
  split
  · exact pure t
  · exact throw hw

theorem orEqual (strict inclusive : Operator) :
    FaultsBeforeBlock (Reader.orEqual strict inclusive) := by
  intro c f d h
  unfold Reader.orEqual at h
  split at h
  · split at h <;> cases h
  · cases h

theorem operator : FaultsBeforeBlock Reader.operator := by
  refine bind (expect rfl) fun t => ?_
  split
  · exact pure _
  split
  · exact orEqual _ _
  split
  · exact orEqual _ _
  split
  · refine bind pastComments fun u => ?_
    cases u with
    | none => exact throw rfl
    | some u =>
      dsimp only
      split
      · exact pure _
      · exact throw rfl
  · exact throw rfl

theorem scalar : FaultsBeforeBlock Reader.scalar := by
  refine bind (expect rfl) fun t => ?_
  split
  · split
    · exact pure _
    · exact throw rfl
  split
  · exact pure _
  · exact throw rfl

theorem attributeTest : FaultsBeforeBlock Reader.attributeTest :=
  bind (require rfl rfl) fun _ => bind operator fun _ => bind scalar fun _ =>
    bind (require rfl rfl) fun _ => pure _

theorem className : FaultsBeforeBlock Selector.className := by
  refine bind pastComments fun t => ?_
  cases t with
  | none => exact endAt rfl
  | some t =>
    dsimp only
    split
    · exact pure _
    · exact throw rfl

theorem readItem (elements : List Selector.Element) (t : Token) :
    FaultsBeforeBlock (Selector.readItem elements t) := by
  unfold Selector.readItem
  split
  · exact pure _
  split
  · exact pure _
  split
  · exact pure _
  split
  · exact bind className fun _ => pure _
  split
  · split
    · exact throw rfl
    · exact bind attributeTest fun _ => pure _
  · exact throw rfl

end FaultsBeforeBlock

end Reader

namespace Selector

theorem fault_readItems {elements : List Element} {start : Option Position} {c d : Cursor}
    {f : Fault} (h : readItems elements start c = .error f d) :
    f.isSyntax = true ∧ f.inBlock = false := by
  fun_induction readItems elements start c with
  | case1 => cases h
  | case2 => cases h
  | case3 elements start c t d hn _ f e hi =>
    cases h
    exact Reader.FaultsBeforeBlock.readItem elements t _ _ _ hi
  | case4 elements start c t d hn _ elements' e hi ih => exact ih h

theorem fault_build {mercator : Bool} {elements : List Element} {p : Position} {f : Fault}
    (h : build mercator elements p = .error f) : f.inBlock = false := by
  unfold build at h
  split at h
  · cases h
    exact Fault.inBlock_ofSelector _ _ _
  · split at h
    · cases h
    · cases h
      exact Fault.inBlock_ofSelector _ _ _

theorem fault_read {mercator : Bool} {c d : Cursor} {f : Fault}
    (h : read mercator c = .error f d) : f.inBlock = false := by
  cases hr : readItems [] none c with
  | error g e =>
    rw [read, hr] at h
    cases h
    exact (fault_readItems hr).2
  | ok r e =>
    rw [read_of_items hr] at h
    split at h
    · rename_i g hb
      cases h
      exact fault_build hb
    · cases h

theorem fault_readGroup {mercator : Bool} {c d : Cursor} {f : Fault}
    (h : readGroup mercator c = .error f d) : f.inBlock = false := by
  fun_induction readGroup mercator c with
  | case1 c g e hr =>
    cases h
    exact fault_read hr
  | case2 =>
    cases h
    rfl
  | case3 c s t e hr _ ih =>
    cases hg : readGroup mercator e with
    | ok ss u => rw [hg] at h; cases h
    | error g u =>
      rw [hg] at h
      cases h
      exact ih hg
  | case4 => cases h

/-- Items that have begun keep where they began. -/
theorem start_readItems {elements : List Element} {p : Position} {c d : Cursor} {r : Run}
    (h : readItems elements (some p) c = .ok r d) : r.start = some p := by
  generalize hs : some p = start at h
  fun_induction readItems elements start c with
  | case1 => cases h; rfl
  | case2 => cases h; rfl
  | case3 => cases h
  | case4 elements start c t d hn _ elements' e hi ih =>
    subst hs
    exact ih rfl h

/-- The first item of a run begins with its first significant token. -/
theorem start_of_first {ts us : List Token} {t : Token} {d : Cursor} {r : Run}
    (h : readItems [] none { rest := ts } = .ok r d) (hr : r.terminator = none)
    (hd : ts.dropWhile Token.isTransparent = t :: us) : r.start = some t.position := by
  have hn : Cursor.nextSignificant { rest := ts } = (some t, Cursor.past { rest := ts } t us) :=
    Cursor.nextPast_cons hd
  rw [readItems_of_next _ _ hn] at h
  split at h
  · cases h
    cases hr
  · split at h
    · cases h
    · exact start_readItems h

/-- A run with more than whitespace and comments in it has a first item. -/
theorem start_of_run {ts : List Token} {d : Cursor} {r : Run}
    (h : readItems [] none { rest := ts } = .ok r d) (hr : r.terminator = none)
    (hs : ts.all Token.isTransparent = false) : ∃ p, r.start = some p := by
  cases hd : ts.dropWhile Token.isTransparent with
  | nil =>
    rw [List.dropWhile_eq_nil_iff] at hd
    have ha : ts.all Token.isTransparent = true := List.all_eq_true.mpr hd
    rw [ha] at hs
    cases hs
  | cons t us => exact ⟨t.position, start_of_first h hr hd⟩

/-- A run that is no selector is none where it stands, and if the reason is not syntax, it is the
same reason at the same position. -/
theorem fault_of_run {t : Token} {run rest : List Token} {mercator : Bool} {c : Cursor} {f : Fault}
    (ht : isTerminator t = true) (hr : ∀ u ∈ run, isTerminator u = false)
    (hc : c.pending = run ++ t :: rest)
    (h : ofTokens mercator (run.filter (!·.isComment)) t.position = .error f) :
    f.inBlock = false ∧
      ∃ g d, read mercator c = .error g d ∧ (f.isSyntax = false → g = f) := by
  have hi := readItems_mirrors ht [] none (b := { rest := run.filter (!·.isComment) })
    ⟨run, hr, hc, rfl⟩
  unfold ofTokens at h
  cases ha : (run.filter (!·.isComment)).all Token.isTransparent with
  | true =>
    rw [ha, if_pos rfl] at h
    rw [readItems_of_transparent ha] at hi
    cases h
    obtain ⟨-, d, hd, -, -⟩ := hi
    exact ⟨rfl, _, d, by rw [read_of_items hd]; rfl, fun _ => rfl⟩
  | false =>
    rw [ha, if_neg (by simp)] at h
    cases hb : readItems [] none { rest := run.filter (!·.isComment) } with
    | error g b =>
      rw [hb] at hi
      obtain ⟨g', d, hg⟩ := hi
      rw [read, hb] at h
      cases h
      have hg' := fault_readItems hb
      refine ⟨hg'.2, g', d, by rw [read, hg], ?_⟩
      rw [hg'.1]
      simp
    | ok r b =>
      rw [hb] at hi
      obtain ⟨hn, d, hd, -, -⟩ := hi
      obtain ⟨p, hp⟩ := start_of_run hb hn ha
      have hpos (last : Position) (u : Option Token) :
          Run.position { r with terminator := u } last = p := by
        simp [Run.position, hp]
      rw [read_of_items hb, hpos b.last r.terminator, hn] at h
      cases hs : build mercator r.elements p with
      | ok s => rw [hs] at h; cases h
      | error g =>
        rw [hs] at h
        cases h
        refine ⟨fault_build hs, f, d, ?_, fun _ => rfl⟩
        rw [read_of_items hd, hpos d.last (some t)]
        dsimp only
        rw [hs]

end Selector

end Cartosheet
