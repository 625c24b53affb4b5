import Cartosheet.Proofs.Calls
import Cartosheet.Proofs.MachineStep

namespace Cartosheet

/-- One of the tokens stands at the position. -/
def Token.At (tokens : List Token) (p : Position) : Prop := ∃ t ∈ tokens, t.position = p

theorem Token.At.of_mem {tokens : List Token} {t : Token} (h : t ∈ tokens) :
    At tokens t.position :=
  ⟨t, h, rfl⟩

theorem Token.At.mono {ts us : List Token} {p : Position} (h : At ts p) (hs : ts ⊆ us) :
    At us p := by
  obtain ⟨t, ht, hp⟩ := h
  exact ⟨t, hs ht, hp⟩

theorem Token.At.lastOr {tokens ts : List Token} {p : Position} (hp : At tokens p)
    (hs : ts ⊆ tokens) : At tokens (lastOr p ts) := by
  induction ts generalizing p with
  | nil => exact hp
  | cons t ts ih =>
    obtain ⟨ht, hts⟩ := List.cons_subset.mp hs
    exact ih (.of_mem ht) hts

/-- What a fault over the tokens can be. A number is refused in a test only where it cannot be read,
and every fault lies at one of the tokens. -/
inductive Fault.Arises (tokens : List Token) : Fault → Prop
  | misplaced {t : Token} {place : Place} : t ∈ tokens → place ≠ .attributeNumber →
      Arises tokens (.unexpected t place)
  | unreadable {t : Token} : t ∈ tokens → t.kind = .number → Binary64.ofText? t.text = none →
      Arises tokens (.unexpected t .attributeNumber)
  | ended {place : Place} {p : Position} : Token.At tokens p →
      Arises tokens (.unexpectedEnd place p)
  | meaning {f : Fault} : f.isSyntax = false → Token.At tokens f.position → Arises tokens f

theorem Fault.Arises.mono {ts us : List Token} {f : Fault} (h : f.Arises ts) (hs : ts ⊆ us) :
    f.Arises us := by
  cases h with
  | misplaced ht hplace => exact .misplaced (hs ht) hplace
  | unreadable ht hkind htext => exact .unreadable (hs ht) hkind htext
  | ended hp => exact .ended (hp.mono hs)
  | meaning hf hp => exact .meaning hf (hp.mono hs)

theorem Fault.Arises.position {tokens : List Token} {f : Fault} (h : f.Arises tokens) :
    Token.At tokens f.position := by
  cases h with
  | misplaced ht => exact .of_mem ht
  | unreadable ht => exact .of_mem ht
  | ended hp => exact hp
  | meaning _ hp => exact hp

/-- A token was read, and those to come are of the list. -/
structure Cursor.Within (tokens : List Token) (c : Cursor) : Prop where
  last : Token.At tokens c.last
  pending : c.pending ⊆ tokens

namespace Cursor

variable {tokens : List Token} {c d : Cursor} {t : Token}

/-- Reading on stays within, and so does putting back what was read. -/
theorem within_nextPast {skip : Token → Bool} (hc : c.pending ⊆ tokens)
    (h : c.nextPast skip = (some t, d)) :
    t ∈ tokens ∧ d.Within tokens ∧ (d.putBack t).Within tokens := by
  have hsuffix := suffix_putBack h
  cases hd : c.pending.dropWhile skip with
  | nil =>
    rw [nextPast_nil hd] at h
    cases h
  | cons u us =>
    rw [nextPast_cons hd] at h
    cases h
    have hall : t :: us ⊆ tokens := List.Subset.trans hsuffix.subset hc
    obtain ⟨ht, hus⟩ := List.cons_subset.mp hall
    exact ⟨ht, ⟨.of_mem ht, hus⟩, ⟨.of_mem ht, hall⟩⟩

theorem Within.atEnd (h : c.Within tokens) : c.atEnd.Within tokens :=
  ⟨h.last.lastOr h.pending, List.nil_subset _⟩

/-- Where no token is left to read, the last one was of the list. -/
theorem Within.nextPast_none {skip : Token → Bool} (hc : c.Within tokens)
    (h : c.nextPast skip = (none, d)) : d.Within tokens := by
  cases hd : c.pending.dropWhile skip with
  | nil =>
    rw [nextPast_nil hd] at h
    cases h
    exact hc.atEnd
  | cons u us =>
    rw [nextPast_cons hd] at h
    cases h

end Cursor

namespace Reading

variable {α β : Type}

/-- What was read is as `Q` says and leaves a cursor within the list, or the fault arises from the
list. -/
def Located (tokens : List Token) (Q : α → Prop) : Reading α → Prop
  | .ok a d => d.Within tokens ∧ Q a
  | .error f _ => f.Arises tokens

theorem Located.map {tokens : List Token} {P : α → Prop} {Q : β → Prop} {x : Reading α}
    {k : α → β} (h : Located tokens P x) (hk : ∀ a, P a → Q (k a)) :
    Located tokens Q (Reading.map k x) := by
  cases x with
  | ok a d => exact ⟨h.1, hk a h.2⟩
  | error f d => exact h

end Reading

/-- A selector that cannot be built is at fault where it is placed, for what it means. -/
theorem Selector.arises_build {tokens : List Token} {mercator : Bool}
    {elements : List Selector.Element} {p : Position} {f : Fault} (hp : Token.At tokens p)
    (h : Selector.build mercator elements p = .error f) : f.Arises tokens := by
  have hof (text : String) (cause : SelectorFault) :
      (Fault.ofSelector text cause p).Arises tokens := by
    cases cause <;> exact .meaning rfl hp
  unfold Selector.build at h
  split at h
  · cases h
    exact hof _ _
  · split at h
    · cases h
    · cases h
      exact hof _ _

/-- An entry that cannot be built is at fault at its name. -/
theorem Entry.arises_build {tokens : List Token} {p : Property} {name : Token}
    {value : List Token} {important : Bool} {f : Fault} (hname : name ∈ tokens)
    (h : Entry.build p name value important = .error f) : f.Arises tokens := by
  unfold Entry.build at h
  split at h <;> cases h
  exact .meaning rfl (.of_mem hname)

namespace Reader

open Reading (Located)

variable {α β : Type} {tokens : List Token}

/-- Within the list the reader stays within it, what it gives is as `Q` says, and its faults arise
from the list. -/
def Locates (tokens : List Token) (Q : α → Prop) (r : Reader α) : Prop :=
  ∀ c, c.Within tokens → Located tokens Q (r c)

namespace Locates

theorem pure {Q : α → Prop} {a : α} (h : Q a) : Locates tokens Q (Pure.pure a : Reader α) :=
  fun _ hc => ⟨hc, h⟩

theorem throw {Q : α → Prop} {f : Fault} (h : f.Arises tokens) :
    Locates tokens Q (MonadExcept.throw f : Reader α) :=
  fun _ _ => h

theorem bind {P : α → Prop} {Q : β → Prop} {r : Reader α} {k : α → Reader β}
    (hr : Locates tokens P r) (hk : ∀ a, P a → Locates tokens Q (k a)) :
    Locates tokens Q (r >>= k) := by
  intro c hc
  have h := hr c hc
  change Located tokens Q (EStateM.bind r k c)
  unfold EStateM.bind
  cases hx : r c with
  | ok a d =>
    rw [hx] at h
    exact hk a h.2 d h.1
  | error f d =>
    rw [hx] at h
    exact h

theorem endAt {Q : α → Prop} (place : Place) :
    Locates tokens Q (Reader.endAt place : Reader α) :=
  fun _ hc => .ended hc.last

theorem expect (place : Place) : Locates tokens (· ∈ tokens) (Reader.expect place) := by
  intro c hc
  unfold Reader.expect
  cases hn : c.nextSignificant with
  | mk found d =>
    cases found with
    | none => exact .ended (hc.nextPast_none hn).last
    | some t =>
      obtain ⟨ht, hd, -⟩ := Cursor.within_nextPast hc.pending hn
      exact ⟨hd, ht⟩

theorem pastComments :
    Locates tokens (fun found => ∀ t, found = some t → t ∈ tokens) Reader.pastComments := by
  intro c hc
  unfold Reader.pastComments
  cases hn : c.nextPastComments with
  | mk found d =>
    cases found with
    | none => exact ⟨hc.nextPast_none hn, by simp⟩
    | some u =>
      obtain ⟨hu, hd, -⟩ := Cursor.within_nextPast hc.pending hn
      refine ⟨hd, ?_⟩
      rintro t ⟨⟩
      exact hu

theorem orEqual (strict inclusive : Operator) :
    Locates tokens (fun _ => True) (Reader.orEqual strict inclusive) := by
  intro c hc
  unfold Reader.orEqual
  cases hn : c.nextPastComments with
  | mk found d =>
    cases found with
    | none => exact ⟨hc.nextPast_none hn, trivial⟩
    | some t =>
      obtain ⟨-, hd, hback⟩ := Cursor.within_nextPast hc.pending hn
      dsimp only
      split
      · exact ⟨hd, trivial⟩
      · exact ⟨hback, trivial⟩

theorem require (accept : Token → Bool) {wrong : Place} (missing : Place)
    (hwrong : wrong ≠ .attributeNumber) :
    Locates tokens (· ∈ tokens) (Reader.require accept wrong missing) := by
  refine bind (expect missing) fun t ht => ?_
  split
  · exact pure ht
  · exact throw (.misplaced ht hwrong)

theorem operator : Locates tokens (fun _ => True) Reader.operator := by
  refine bind (expect _) fun t ht => ?_
  split
  · exact pure trivial
  split
  · exact orEqual _ _
  split
  · exact orEqual _ _
  split
  · refine bind pastComments fun u hu => ?_
    cases u with
    | none => exact throw (.misplaced ht (by decide))
    | some u =>
      dsimp only
      split
      · exact pure trivial
      · exact throw (.misplaced (hu u rfl) (by decide))
  · exact throw (.misplaced ht (by decide))

theorem scalar : Locates tokens (fun _ => True) Reader.scalar := by
  refine bind (expect _) fun t ht => ?_
  split
  · rename_i hkind
    split
    · exact pure trivial
    · rename_i htext
      exact throw (.unreadable ht hkind htext)
  split
  · exact pure trivial
  · exact throw (.misplaced ht (by decide))

theorem attributeTest : Locates tokens (fun _ => True) Reader.attributeTest :=
  bind (require _ _ (by decide)) fun _ _ => bind operator fun _ _ => bind scalar fun _ _ =>
    bind (require _ _ (by decide)) fun _ _ => pure trivial

theorem className : Locates tokens (fun _ => True) Selector.className := by
  refine bind pastComments fun t ht => ?_
  cases t with
  | none => exact endAt _
  | some t =>
    dsimp only
    split
    · exact pure trivial
    · exact throw (.misplaced (ht t rfl) (by decide))

theorem readItem (elements : List Selector.Element) {t : Token} (ht : t ∈ tokens) :
    Locates tokens (fun _ => True) (Selector.readItem elements t) := by
  unfold Selector.readItem
  split
  · exact pure trivial
  split
  · exact pure trivial
  split
  · exact pure trivial
  split
  · exact bind className fun _ _ => pure trivial
  split
  · split
    · exact throw (.misplaced ht (by decide))
    · exact bind attributeTest fun _ _ => pure trivial
  · exact throw (.misplaced ht (by decide))

/-- Where items or a terminator were read, their selector is placed at one of them. -/
theorem readItems (elements : List Selector.Element) (start : Option Position)
    (hstart : ∀ p, start = some p → Token.At tokens p) :
    Locates tokens (fun r => ∀ p, Token.At tokens p → Token.At tokens (r.position p))
      (Selector.readItems elements start) := by
  intro c hc
  fun_induction Selector.readItems elements start c with
  | case1 elements start c d hn =>
    refine ⟨hc.nextPast_none hn, ?_⟩
    intro p hp
    cases start with
    | none => exact hp
    | some q => exact hstart q rfl
  | case2 elements start c t d hn =>
    obtain ⟨ht, hd, -⟩ := Cursor.within_nextPast hc.pending hn
    refine ⟨hd, ?_⟩
    intro p hp
    cases start with
    | none => exact .of_mem ht
    | some q => exact hstart q rfl
  | case3 elements start c t d hn _ f e hi =>
    obtain ⟨ht, hd, -⟩ := Cursor.within_nextPast hc.pending hn
    have hitem := readItem elements ht d hd
    rw [hi] at hitem
    exact hitem
  | case4 elements start c t d hn _ elements' e hi ih =>
    obtain ⟨ht, hd, -⟩ := Cursor.within_nextPast hc.pending hn
    have hitem := readItem elements ht d hd
    rw [hi] at hitem
    refine ih ?_ hitem.1
    intro p hp
    cases start with
    | none =>
      cases hp
      exact .of_mem ht
    | some q => exact hstart p hp

theorem read (mercator : Bool) : Locates tokens (fun _ => True) (Selector.read mercator) := by
  intro c hc
  have hi := readItems [] none (by simp) c hc
  unfold Selector.read
  cases hr : Selector.readItems [] none c with
  | error f d =>
    rw [hr] at hi
    exact hi
  | ok r d =>
    rw [hr] at hi
    dsimp only
    cases hb : Selector.build mercator r.elements (r.position d.last) with
    | ok s => exact ⟨hi.1, trivial⟩
    | error f => exact Selector.arises_build (hi.2 d.last hi.1.last) hb

theorem readGroup (mercator : Bool) :
    Locates tokens (fun _ => True) (Selector.readGroup mercator) := by
  intro c hc
  have hs := read mercator c hc
  fun_induction Selector.readGroup mercator c with
  | case1 c f d hr =>
    rw [hr] at hs
    exact hs
  | case2 c s d hr =>
    rw [hr] at hs
    exact .ended hs.1.last
  | case3 c s t d hr _ ih =>
    rw [hr] at hs
    exact (ih hs.1 (read mercator d hs.1)).map fun _ _ => trivial
  | case4 c s t d hr =>
    rw [hr] at hs
    exact hs

theorem readImportant : Locates tokens (fun _ => True) Entry.readImportant :=
  bind (require _ _ (by decide)) fun _ _ => bind (require _ _ (by decide)) fun _ _ => pure trivial

theorem readValue : Locates tokens (fun _ => True) Entry.readValue := by
  intro c hc
  have hs := expect .insideDeclaration c hc
  fun_induction Entry.readValue c with
  | case1 c f d hx =>
    rw [hx] at hs
    exact hs
  | case2 c t d hx =>
    rw [hx] at hs
    exact ⟨hs.1, trivial⟩
  | case3 c t d hx =>
    rw [hx] at hs
    exact (readImportant d hs.1).map fun _ _ => trivial
  | case4 c t d hx =>
    rw [hx] at hs
    exact .misplaced hs.2 (by decide)
  | case5 c t d hx _ _ _ ih =>
    rw [hx] at hs
    exact (ih hs.1 (expect .insideDeclaration d hs.1)).map fun _ _ => trivial

theorem readAfter (σ : Settings) {name : Token} (hname : name ∈ tokens) :
    Locates tokens (fun _ => True) (Entry.readAfter σ name) := by
  refine bind (require _ _ (by decide)) fun _ _ => ?_
  split
  · exact throw (.meaning rfl (.of_mem hname))
  · refine bind readValue fun v _ => ?_
    dsimp only
    split
    · rename_i f hb
      exact throw (Entry.arises_build hname hb)
    · exact pure trivial

theorem readBlock (σ : Settings) : Locates tokens (fun _ => True) (Entry.readBlock σ) := by
  intro c hc
  have hs := expect .insideBlock c hc
  fun_induction Entry.readBlock σ c with
  | case1 c f d hx =>
    rw [hx] at hs
    exact hs
  | case2 c t d hx =>
    rw [hx] at hs
    exact ⟨hs.1, trivial⟩
  | case3 c t d hx _ _ f e he =>
    rw [hx] at hs
    have hafter := readAfter σ hs.2 d hs.1
    rw [he] at hafter
    exact hafter
  | case4 c t d hx _ _ entry e he ih =>
    rw [hx] at hs
    have hafter := readAfter σ hs.2 d hs.1
    rw [he] at hafter
    exact (ih hafter.1 (expect .insideBlock e hafter.1)).map fun _ _ => trivial
  | case5 c t d hx =>
    rw [hx] at hs
    exact .misplaced hs.2 (by decide)

end Locates

end Reader

namespace Declaration

variable {tokens : List Token}

/-- The faults of a rule arise from the list, whatever was read before it: its own first token has
been read by then. -/
theorem arises_readRule (σ : Settings) {c d : Cursor} {f : Fault} (hc : c.pending ⊆ tokens)
    (h : readRule σ c = .error f d) : f.Arises tokens := by
  unfold readRule at h
  cases hn : c.nextSignificant with
  | mk found e =>
    rw [hn] at h
    cases found with
    | none => cases h
    | some t =>
      obtain ⟨-, -, hback⟩ := Cursor.within_nextPast hc hn
      have hgroup := Reader.Locates.readGroup σ.mercator _ hback
      dsimp only at h
      cases hg : Selector.readGroup σ.mercator (e.putBack t) with
      | error g u =>
        rw [hg] at h hgroup
        cases h
        exact hgroup
      | ok ss u =>
        rw [hg] at h hgroup
        dsimp only at h
        have hblock := Reader.Locates.readBlock σ u hgroup.1
        cases hb : Entry.readBlock σ u with
        | ok es v =>
          rw [hb] at h
          cases h
        | error g v =>
          rw [hb] at h hblock
          cases h
          exact hblock

theorem position_readRule (σ : Settings) {c d : Cursor} {f : Fault} (hc : c.pending ⊆ tokens)
    (h : readRule σ c = .error f d) : Token.At tokens f.position :=
  (arises_readRule σ hc h).position

theorem arises_readRules (σ : Settings) {c d : Cursor} {f : Fault} (hc : c.pending ⊆ tokens)
    (h : readRules σ c = .error f d) : f.Arises tokens := by
  fun_induction readRules σ c with
  | case1 c g e hr =>
    cases h
    exact arises_readRule σ hc hr
  | case2 => cases h
  | case3 c ds e hr ih =>
    have hsuffix := Reader.motion_suffix.moves_readRule σ c
    rw [hr] at hsuffix
    cases hrs : readRules σ e with
    | ok ds' u =>
      rw [hrs] at h
      cases h
    | error g u =>
      rw [hrs] at h
      cases h
      exact ih (List.Subset.trans hsuffix.subset hc) hrs

theorem position_readRules (σ : Settings) {c d : Cursor} {f : Fault} (hc : c.pending ⊆ tokens)
    (h : readRules σ c = .error f d) : Token.At tokens f.position :=
  (arises_readRules σ hc h).position

end Declaration

namespace Selector

theorem mem_of_read {mercator : Bool} {c d : Cursor} {s : Selector} {t : Token}
    (h : read mercator c = .ok (s, some t) d) : t ∈ c.pending := by
  cases hr : readItems [] none c with
  | error f e =>
    rw [read, hr] at h
    cases h
  | ok r e =>
    rw [read_of_items hr] at h
    split at h
    · cases h
    · simp only [EStateM.Result.ok.injEq, Prod.mk.injEq] at h
      exact (terminator_of_readItems hr h.1.2).1

/-- The items of a run that has some are read as if the first had been read before. -/
theorem read_putBack (mercator : Bool) {c d : Cursor} {t : Token}
    (h : c.nextSignificant = (some t, d)) : read mercator (d.putBack t) = read mercator c := by
  unfold read
  rw [readItems_of_next _ _ h, readItems_of_next _ _ (Cursor.nextSignificant_putBack h)]

/-- The faults of a run arise from its tokens and the one that it stops at. -/
theorem arises_ofTokens {mercator : Bool} {run : List Token} {t : Token} {f : Fault}
    (h : ofTokens mercator run t.position = .error f) : f.Arises (t :: run) := by
  unfold ofTokens at h
  split at h
  · cases h
    exact .meaning rfl ⟨t, by simp, rfl⟩
  · rename_i hall
    have hsub : Cursor.pending { rest := run } ⊆ t :: run := List.subset_cons_self t run
    cases hd : (Cursor.pending { rest := run }).dropWhile Token.isTransparent with
    | nil =>
      rw [List.dropWhile_eq_nil_iff] at hd
      exact absurd (List.all_eq_true.mpr hd) hall
    | cons u us =>
      have hn := Cursor.nextPast_cons hd
      obtain ⟨-, -, hback⟩ := Cursor.within_nextPast hsub hn
      have hread := Reader.Locates.read mercator _ hback
      rw [read_putBack mercator hn] at hread
      split at h
      · rename_i g d hr
        rw [hr] at hread
        cases h
        exact hread
      · cases h
      · rename_i s u d hr
        cases h
        exact .misplaced (hsub (mem_of_read hr)) (by decide)

end Selector

namespace Ruleset

/-- The tokens that a context still remembers and may fault at. -/
def Context.remembered : Context → List Token
  | betweenRules => []
  | inSelectors _ run => run
  | inBlock _ _ => []
  | inDeclaration _ _ (.named name) => [name]
  | inDeclaration _ _ (.valued name _ _ _) => [name]

variable {σ : Settings} {tokens : List Token}

/-- A step remembers nothing but the token fed and what was remembered before. -/
theorem Machine.Step.remembered {m m' : Machine} {t : Token} (h : m.Step σ t m') :
    m'.context.remembered ⊆ t :: m.context.remembered := by
  cases h with
  | pass _ _ => exact List.subset_cons_self _ _
  | begin _ => simp [Context.remembered]
  | comment _ _ => exact List.subset_cons_self _ _
  | gather _ _ => simp [Context.remembered]
  | comma _ _ => simp [Context.remembered]
  | brace _ _ => simp [Context.remembered]
  | close _ => simp [Context.remembered]
  | name _ => simp [Context.remembered]
  | draft _ hd => cases hd <;> simp [Context.remembered]
  | entry _ _ => simp [Context.remembered]

theorem Draft.arises_feed {ss : List Selector} {es : List Entry} {draft : Draft} {t : Token}
    {f : Fault} (h : draft.feed σ t = .error f) :
    f.Arises (t :: (Context.inDeclaration ss es draft).remembered) := by
  have hbuild {ts : List Token} {p : Property} {name : Token} {value : List Token}
      {important : Bool} (hname : name ∈ ts)
      (hb : (Entry.build p name value important).map (Sum.inr (α := Draft)) = .error f) :
      f.Arises ts := by
    cases he : Entry.build p name value important with
    | ok e =>
      rw [he] at hb
      cases hb
    | error g =>
      rw [he] at hb
      cases hb
      exact Entry.arises_build hname he
  cases draft with
  | named name =>
    simp only [feed] at h
    split at h
    · split at h
      · cases h
      · cases h
        exact .meaning rfl ⟨name, by simp [Context.remembered], rfl⟩
    · cases h
      exact .misplaced (by simp) (by decide)
  | valued name p value marker =>
    have hname :
        name ∈ t :: (Context.inDeclaration ss es (.valued name p value marker)).remembered := by
      simp [Context.remembered]
    cases marker with
    | none =>
      simp only [feed] at h
      split at h
      · exact hbuild hname h
      split at h
      · cases h
      split at h
      · cases h
        exact .misplaced (by simp) (by decide)
      · cases h
    | bang =>
      simp only [feed] at h
      split at h
      · cases h
      · cases h
        exact .misplaced (by simp) (by decide)
    | important =>
      simp only [feed] at h
      split at h
      · exact hbuild hname h
      · cases h
        exact .misplaced (by simp) (by decide)

/-- The faults of a step arise from the token fed and those remembered. -/
theorem Machine.arises_feed {m : Machine} {t : Token} {f : Fault} (h : m.feed σ t = .error f) :
    f.Arises (t :: m.context.remembered) := by
  obtain ⟨done, context⟩ := m
  cases context with
  | betweenRules =>
    simp only [feed] at h
    split at h
    · cases h
    split at h
    · cases h
    · cases h
      exact .misplaced (by simp) (by decide)
  | inSelectors ss run =>
    simp only [feed] at h
    split at h
    · split at h
      · rename_i g hs
        cases h
        exact Selector.arises_ofTokens hs
      · split at h <;> cases h
    · split at h <;> cases h
  | inBlock ss es =>
    simp only [feed] at h
    split at h
    · cases h
    split at h
    · cases h
    split at h
    · cases h
    · cases h
      exact .misplaced (by simp) (by decide)
  | inDeclaration ss es draft =>
    simp only [feed] at h
    split at h
    · cases h
    split at h
    · rename_i hd
      cases h
      exact Draft.arises_feed hd
    · cases h
    · cases h

/-- Any number of tokens: what is remembered stays among them, and every fault arises from them.
Where the tokens end, the last of them was fed, or the machine is still between rules. -/
theorem Machine.arises_outcome {m : Machine} {last : Position} {ts : List Token} {f : Fault}
    (hm : m.context.remembered ⊆ tokens) (hlast : m.context = .betweenRules ∨ Token.At tokens last)
    (hts : ts ⊆ tokens) (h : m.outcome σ last ts = .error f) : f.Arises tokens := by
  induction ts generalizing m last with
  | nil =>
    obtain ⟨done, context⟩ := m
    rcases hlast with rfl | hlast
    · cases h
    · cases context <;> cases h <;> exact .ended hlast
  | cons t ts ih =>
    obtain ⟨ht, hts⟩ := List.cons_subset.mp hts
    have hall : t :: m.context.remembered ⊆ tokens := List.cons_subset.mpr ⟨ht, hm⟩
    rw [outcome] at h
    split at h
    · rename_i g hg
      cases h
      exact (arises_feed hg).mono hall
    · rename_i m' hm'
      have hm'' := List.Subset.trans (step_of_feed hm').remembered hall
      exact ih hm'' (.inr (.of_mem ht)) hts h

theorem Machine.position_outcome {m : Machine} {last : Position} {ts : List Token} {f : Fault}
    (hm : m.context.remembered ⊆ tokens) (hlast : m.context = .betweenRules ∨ Token.At tokens last)
    (hts : ts ⊆ tokens) (h : m.outcome σ last ts = .error f) : Token.At tokens f.position :=
  (arises_outcome hm hlast hts h).position

end Ruleset

/-- Whatever is read from a token list, and after however many faults, a fault points to one of its
tokens. -/
theorem faults_located (σ : Settings) (tokens : List Token) (f : Fault) :
    (Ruleset.ofTokens σ tokens = .error f → ∃ t ∈ tokens, t.position = f.position) ∧
    (Declaration.ofTokens σ tokens = .error f → ∃ t ∈ tokens, t.position = f.position) ∧
    ∀ n, .error f ∈ Declaration.readCalls σ n { rest := tokens } →
      ∃ t ∈ tokens, t.position = f.position := by
  refine ⟨?_, ?_, ?_⟩
  · intro h
    rw [Ruleset.Machine.ofTokens_eq_outcome] at h
    exact Ruleset.Machine.position_outcome (List.nil_subset _) (.inl rfl) (List.Subset.refl _) h
  · intro h
    unfold Declaration.ofTokens at h
    split at h
    · cases h
    · rename_i g d hr
      cases h
      exact Declaration.position_readRules σ (List.Subset.refl _) hr
  · intro n h
    obtain ⟨i, hi⟩ := List.mem_iff_getElem?.mp h
    have hlt : i < n := by
      rw [← Declaration.length_readCalls σ n { rest := tokens }]
      exact (List.getElem?_eq_some_iff.mp hi).1
    rw [Declaration.getElem?_readCalls σ hlt] at hi
    have hbetween := (Cursor.Between.start tokens).cursorAfter σ i
    have hsub : (Declaration.cursorAfter σ i { rest := tokens }).pending ⊆ tokens := by
      rw [hbetween.pending]
      exact hbetween.suffix.subset
    cases hr : Declaration.readRule σ (Declaration.cursorAfter σ i { rest := tokens }) with
    | ok r d =>
      rw [hr] at hi
      cases hi
    | error g d =>
      rw [hr] at hi
      cases hi
      exact Declaration.position_readRule σ hsub hr

/-- Tokens that end inside an attribute test, none of them where a stylesheet starts: each way of
reading faults at the last of them. -/
theorem faults_located_bracket :
    let σ := Settings.standard false
    let tokens : List Token := [⟨.identifier, "Layer", ⟨3, 4⟩⟩, ⟨.character, "[", ⟨3, 9⟩⟩]
    let f : Fault := .unexpectedEnd .insideSelector ⟨3, 9⟩
    let g : Fault := .unexpectedEnd .insideAttribute ⟨3, 9⟩
    (Ruleset.ofTokens σ tokens = .error f ∧ ∃ t ∈ tokens, t.position = f.position) ∧
      (Declaration.ofTokens σ tokens = .error g ∧ ∃ t ∈ tokens, t.position = g.position) ∧
      (.error g ∈ Declaration.readCalls σ 2 { rest := tokens } ∧
        ∃ t ∈ tokens, t.position = g.position) := by
  intro σ tokens f g
  have hf : Ruleset.ofTokens σ tokens = .error f := by decide +kernel
  have hg : Declaration.ofTokens σ tokens = .error g := by decide +kernel
  have hcalls : .error g ∈ Declaration.readCalls σ 2 { rest := tokens } := by decide +kernel
  obtain ⟨hrules, -, -⟩ := faults_located σ tokens f
  obtain ⟨-, hdeclarations, hrule⟩ := faults_located σ tokens g
  exact ⟨⟨hf, hrules hf⟩, ⟨hg, hdeclarations hg⟩, hcalls, hrule 2 hcalls⟩

end Cartosheet
