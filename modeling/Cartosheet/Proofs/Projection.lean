import Cartosheet.Proofs.MachineStep
import Cartosheet.Proofs.WrittenZoom
import Cartosheet.Proofs.ZoomMeaning
import Mathlib.Data.List.Forall2

namespace Cartosheet

/-- The selectors among significant tokens: outside blocks, what stands before each `,` and `{`.
The selector under way has `run` so far; inside a block there is none. -/
def selectorRuns (run : Option (List Token)) : List Token → List (List Token)
  | [] => []
  | t :: ts =>
    match run with
    | none => selectorRuns (if t.isChar '}' then some [] else none) ts
    | some us =>
      if t.isChar '{' then us :: selectorRuns none ts
      else if t.isChar ',' then us :: selectorRuns (some []) ts
      else selectorRuns (some (us ++ [t])) ts

/-- The selectors of a sheet in source order, each as its significant tokens. -/
def writtenSelectors (tokens : List Token) : List (List Token) :=
  selectorRuns (some []) (significant tokens)

section

variable {t : Token}

theorem selectorRuns_inside (h : t.isChar '}' = false) (ts : List Token) :
    selectorRuns none (t :: ts) = selectorRuns none ts := by
  rw [selectorRuns, h, if_neg (by simp)]

theorem selectorRuns_gather (h : Selector.isTerminator t = false) (us ts : List Token) :
    selectorRuns (some us) (t :: ts) = selectorRuns (some (us ++ [t])) ts := by
  rw [Sheet.isTerminator_eq_false_iff] at h
  rw [selectorRuns, h.2, if_neg (by simp), h.1, if_neg (by simp)]

theorem selectorRuns_comma (h : t.isChar ',' = true) (us ts : List Token) :
    selectorRuns (some us) (t :: ts) = us :: selectorRuns (some []) ts := by
  rw [selectorRuns, Token.isChar_eq_false h (by decide), if_neg (by simp), if_pos h]

theorem selectorRuns_brace (h : t.isChar '{' = true) (us ts : List Token) :
    selectorRuns (some us) (t :: ts) = us :: selectorRuns none ts := by
  rw [selectorRuns, if_pos h]

theorem selectorRuns_close (h : t.isChar '}' = true) (ts : List Token) :
    selectorRuns none (t :: ts) = selectorRuns (some []) ts := by
  rw [selectorRuns, if_pos h]

end

section

variable {α β : Type}

/-- What a reading of selectors gives under another projection if it gives `a` under web mercator:
`a` too, unless a selector tests `zoom`. -/
def permitted (a : α) : List (List Token) → Except Fault α
  | [] => .ok a
  | [] :: runs => permitted a runs
  | (t :: ts) :: runs =>
    if testsZoom (t :: ts) then .error (.projection t.position) else permitted a runs

theorem permitted_append (a : α) (b : β) (runs runs' : List (List Token)) :
    permitted b (runs ++ runs') =
      match permitted a runs with
      | .error f => .error f
      | .ok _ => permitted b runs' := by
  fun_induction permitted a runs with
  | case1 => rfl
  | case2 runs ih => exact ih
  | case3 t ts runs h => rw [List.cons_append, permitted, if_pos h]
  | case4 t ts runs h ih => rw [List.cons_append, permitted, if_neg h, ih]

theorem permitted_map (f : α → β) (a : α) (runs : List (List Token)) :
    (permitted a runs).map f = permitted (f a) runs := by
  fun_induction permitted a runs with
  | case1 => rfl
  | case2 runs ih => exact ih
  | case3 t ts runs h => rw [permitted, if_pos h]; rfl
  | case4 t ts runs h ih => rw [permitted, if_neg h, ih]

theorem permitted_eq_ok_iff (a b : α) (runs : List (List Token)) :
    permitted a runs = .ok b ↔ a = b ∧ ∀ run ∈ runs, testsZoom run = false := by
  fun_induction permitted a runs with
  | case1 => simp
  | case2 runs ih => rw [ih, List.forall_mem_cons, testsZoom.eq_def]; simp
  | case3 t ts runs h => simp [h]
  | case4 t ts runs h ih => simp [ih, h]

/-- The tokens of a refused selector are in order. -/
theorem isSyntax_of_permitted {a : α} {runs : List (List Token)} {f : Fault}
    (h : permitted a runs = .error f) : f.isSyntax = false := by
  fun_induction permitted a runs with
  | case1 => cases h
  | case2 runs ih => exact ih h
  | case3 => cases h; rfl
  | case4 t ts runs _ ih => exact ih h

/-- The first selector that tests `zoom` is refused where it begins. -/
theorem permitted_first (a : α) {first : List (List Token)} {run : List Token}
    (rest : List (List Token)) (hfirst : ∀ r ∈ first, testsZoom r = false)
    (hrun : testsZoom run = true) :
    ∃ t, run.head? = some t ∧
      permitted a (first ++ run :: rest) = .error (.projection t.position) := by
  have hok : permitted a first = .ok a := (permitted_eq_ok_iff a a first).mpr ⟨rfl, hfirst⟩
  cases run with
  | nil => cases hrun
  | cons t ts =>
    refine ⟨t, rfl, ?_⟩
    rw [permitted_append a, hok]
    exact if_pos hrun

end

namespace Zoom

/-- Without shorthand there is nothing to expand. -/
theorem expandAll_plain (mercator : Bool) {ts : List Test} (h : ts.any isShorthand = false) :
    expandAll mercator ts = ⟨ts, [], none⟩ := by
  induction ts with
  | nil => rfl
  | cons t ts ih =>
    rw [List.any_cons, Bool.or_eq_false_iff] at h
    rw [expandAll_other h.1, ih h.2]

/-- Under another projection the first shorthand test is a fault. -/
theorem fault_expandAll {ts : List Test} (h : ts.any isShorthand = true) :
    (expandAll false ts).fault = some .notMercator := by
  induction ts with
  | nil => cases h
  | cons t ts ih =>
    cases ht : isShorthand t with
    | true => rw [expandAll_error ht rfl]
    | false =>
      rw [List.any_cons, ht, Bool.false_or] at h
      rw [expandAll_other ht]
      exact ih h

end Zoom

namespace Selector

theorem zoomIn_of_ofElements {elements : List Element} {s : Selector}
    (h : ofElements elements = .ok s) : zoomIn elements = s.tests.any Zoom.isShorthand := by
  obtain ⟨rfl, -, hbare⟩ := ofElements_eq_ok h
  cases hd : s.descendant with
  | none => simp [zoomIn, elements, tests, hd]
  | some e => simp [zoomIn, elements, tests, hd, (hbare e hd).1]

variable {elements : List Element} {p : Position} {s : Selector}

theorem build_plain (mercator mercator' : Bool) (h : zoomIn elements = false) (p : Position) :
    build mercator elements p = build mercator' elements p := by
  unfold build
  cases hs : ofElements elements with
  | error f => rfl
  | ok s =>
    rw [zoomIn_of_ofElements hs] at h
    simp only [convertZoom, Zoom.expandAll_plain _ h]

/-- The shape of a selector comes before its projection. -/
theorem build_zoom (hz : zoomIn elements = true) (hs : build true elements p = .ok s) :
    build false elements p = .error (.projection p) := by
  unfold build at hs ⊢
  cases he : ofElements elements with
  | error f => rw [he] at hs; cases hs
  | ok s₀ =>
    rw [zoomIn_of_ofElements he] at hz
    simp only [convertZoom, Zoom.fault_expandAll hz]
    rfl

theorem zoomIn_of_build (hs : build false elements p = .ok s) : zoomIn elements = false := by
  unfold build at hs
  cases he : ofElements elements with
  | error f => rw [he] at hs; cases hs
  | ok s₀ =>
    rw [zoomIn_of_ofElements he, ← Bool.not_eq_true]
    intro hz
    rw [he] at hs
    simp only [convertZoom, Zoom.fault_expandAll hz] at hs
    cases hs

section

variable {run : List Token} {r : Run} {d : Cursor}

/-- Faults of a whole run lie at its first significant token. -/
theorem ofTokens_eq_build (mercator : Bool) {t : Token} {ts : List Token}
    (h : readItems [] none { rest := run } = .ok r d) (hr : r.terminator = none)
    (hs : run.dropWhile Token.isTransparent = t :: ts) (stop : Position) :
    ofTokens mercator run stop = build mercator r.elements t.position := by
  have hall : run.all Token.isTransparent = false := by
    rw [← Bool.not_eq_true, List.all_eq_true, ← List.dropWhile_eq_nil_iff, hs]
    simp
  have hposition : r.position d.last = t.position := by
    simp [Run.position, start_of_first h hr hs]
  rw [ofTokens, hall, if_neg (by simp), read_of_items h, hposition, hr]
  cases build mercator r.elements t.position <;> rfl

/-- Under another projection a selector is the same or refused. -/
theorem ofTokens_permitted {stop : Position} (h : ofTokens true run stop = .ok s) :
    ofTokens false run stop = permitted s [significant run] := by
  obtain ⟨r, d, hi, hr⟩ := items_of_ofTokens h
  have hzoom : zoomIn r.elements = testsZoom (significant run) := zoomIn_readItems hi hr
  cases hs : run.dropWhile Token.isTransparent with
  | nil =>
    have hall : run.all Token.isTransparent = true := by
      rwa [List.all_eq_true, ← List.dropWhile_eq_nil_iff]
    rw [ofTokens, hall, if_pos rfl] at h
    cases h
  | cons t ts =>
    rw [ofTokens_eq_build _ hi hr hs] at h ⊢
    rw [significant_eq_cons hs] at hzoom ⊢
    rw [permitted, ← hzoom]
    cases hz : zoomIn r.elements with
    | true => rw [build_zoom hz h, if_pos rfl]
    | false => rw [build_plain false true hz, h, if_neg (by simp), permitted]

theorem ofTokens_widens {stop : Position} (h : ofTokens false run stop = .ok s) :
    ofTokens true run stop = .ok s := by
  obtain ⟨r, d, hi, hr⟩ := items_of_ofTokens h
  rw [ofTokens_of_items _ hi hr stop stop] at h ⊢
  rwa [build_plain true false (zoomIn_of_build h)]

end

end Selector

/-- The tokens are those of the selector, wherever they stop. -/
def Selector.ReadFrom (mercator : Bool) (run : List Token) (s : Selector) : Prop :=
  ∃ stop, Selector.ofTokens mercator run stop = .ok s

namespace Ruleset

open Selector (isTerminator)

/-- The significant tokens of the selector under way, outside blocks. -/
def Context.gathered : Context → Option (List Token)
  | betweenRules => some []
  | inSelectors _ run => some (significant run)
  | inBlock _ _ => none
  | inDeclaration _ _ _ => none

/-- The selectors read of the ruleset under way. -/
def Context.selectors : Context → List Selector
  | betweenRules => []
  | inSelectors ss _ => ss
  | inBlock ss _ => ss
  | inDeclaration ss _ _ => ss

/-- All selectors read so far. -/
def Machine.selectors (m : Machine) : List Selector :=
  m.done.flatMap Ruleset.selectors ++ m.context.selectors

/-- The selector that a token completes. -/
def Machine.completed (m : Machine) (t : Token) : List (List Token) :=
  match m.context with
  | .inSelectors _ run => if isTerminator t then [significant run] else []
  | _ => []

/-- Inside a declaration there is no `}`. -/
theorem Draft.Step.inside {σ : Settings} {t : Token} {d : Draft} {r : Draft ⊕ Entry}
    (h : d.Step σ t r) : t.isChar '}' = false := by
  cases h with
  | colon hc => exact Token.isChar_eq_false hc (by decide)
  | value _ _ _ hb => exact hb
  | bang hb => exact Token.isChar_eq_false hb (by decide)
  | word hw =>
    simp only [Token.isWord, Bool.and_eq_true, decide_eq_true_eq] at hw
    exact Token.isChar_of_kind (by simp [hw.1])
  | complete _ hs => exact Token.isChar_eq_false hs (by decide)

namespace Machine

variable {registry : Registry} {m m' : Machine} {t : Token}

theorem completed_of_ne (h : ∀ ss run, m.context ≠ .inSelectors ss run) (t : Token) :
    m.completed t = [] := by
  unfold completed
  split
  · rename_i ss run hc
    exact absurd hc (h ss run)
  · rfl

/-- The machine goes through the selectors as they are written. -/
theorem Step.selectorRuns {σ : Settings} (h : m.Step σ t m') (ts : List Token) :
    selectorRuns m.context.gathered (significant (t :: ts)) =
      m.completed t ++ selectorRuns m'.context.gathered (significant ts) := by
  cases h with
  | pass hc ht =>
    rw [completed_of_ne hc, significant, List.filter_cons_of_neg (by simp [ht])]
    rfl
  | begin hs =>
    have ht := isTransparent_of_startsSelector hs
    rw [significant_cons ht]
    simp only [Context.gathered, selectorRuns_gather (isTerminator_of_startsSelector hs),
      significant_cons ht]
    rfl
  | @comment done ss run hn hc =>
    have ht := Token.isTransparent_of_isComment hc
    rw [completed, significant, List.filter_cons_of_neg (by simp [ht])]
    simp only [hn]
    rfl
  | @gather done ss run hn hc =>
    simp only [completed, hn, Context.gathered, significant_append]
    cases ht : t.isTransparent with
    | true => simp [significant, ht]
    | false =>
      rw [significant_cons ht, selectorRuns_gather hn, significant_cons ht]
      rfl
  | @comma done ss run s hc hs =>
    have hend : isTerminator t = true := by simp [isTerminator, hc]
    rw [significant_cons (Token.isTransparent_of_isChar hc)]
    simp only [completed, hend, Context.gathered, selectorRuns_comma hc]
    rfl
  | @brace done ss run s hb hs =>
    have hend : isTerminator t = true := by simp [isTerminator, hb]
    rw [significant_cons (Token.isTransparent_of_isChar hb)]
    simp only [completed, hend, Context.gathered, selectorRuns_brace hb]
    rfl
  | close hb =>
    rw [significant_cons (Token.isTransparent_of_isChar hb)]
    exact selectorRuns_close hb _
  | name hk =>
    have ht : t.isTransparent = false := by simp [Token.isTransparent, hk]
    rw [significant_cons ht]
    exact selectorRuns_inside (Token.isChar_of_kind (by simp [hk])) _
  | draft ht hd =>
    rw [significant_cons ht]
    exact selectorRuns_inside hd.inside _
  | entry ht hd =>
    rw [significant_cons ht]
    exact selectorRuns_inside hd.inside _

/-- Only where a selector is completed does the projection come in. -/
theorem feed_permitted (h : m.feed ⟨registry, true⟩ t = .ok m') :
    m.feed ⟨registry, false⟩ t = permitted m' (m.completed t) := by
  obtain ⟨done, context⟩ := m
  cases context with
  | betweenRules => exact h
  | inBlock ss es => exact h
  | inDeclaration ss es d => exact h
  | inSelectors ss run =>
    cases ht : isTerminator t with
    | false =>
      simp only [feed, completed, ht] at h ⊢
      exact h
    | true =>
      simp only [feed, completed, ht, if_true] at h ⊢
      cases hs : Selector.ofTokens true run t.position with
      | error f => rw [hs] at h; cases h
      | ok s =>
        have hsame := permitted_append s m' [significant run] []
        rw [List.append_nil] at hsame
        rw [hs] at h
        rw [Selector.ofTokens_permitted hs, hsame]
        cases hp : permitted s [significant run] with
        | error f => rfl
        | ok s' =>
          obtain ⟨rfl, -⟩ := (permitted_eq_ok_iff _ _ _).mp hp
          exact h

theorem feed_widens (h : m.feed ⟨registry, false⟩ t = .ok m') :
    m.feed ⟨registry, true⟩ t = .ok m' := by
  obtain ⟨done, context⟩ := m
  cases context with
  | betweenRules => exact h
  | inBlock ss es => exact h
  | inDeclaration ss es d => exact h
  | inSelectors ss run =>
    simp only [feed] at h ⊢
    split at h
    · rename_i ht
      rw [if_pos ht]
      cases hs : Selector.ofTokens false run t.position with
      | error f => rw [hs] at h; cases h
      | ok s =>
        rw [hs] at h
        rw [Selector.ofTokens_widens hs]
        exact h
    · rename_i ht
      rwa [if_neg ht]

/-- A token that completes a selector adds it to those read. -/
theorem Step.selectors {σ : Settings} (h : m.Step σ t m') :
    ∃ ss, m'.selectors = m.selectors ++ ss ∧
      List.Forall₂ (Selector.ReadFrom σ.mercator) (m.completed t) ss := by
  have hread {run : List Token} {s : Selector}
      (hs : Selector.ofTokens σ.mercator run t.position = .ok s) :
      Selector.ReadFrom σ.mercator (significant run) s :=
    ⟨t.position, Selector.ofTokens_significant hs⟩
  cases h with
  | pass hc ht => exact ⟨[], (List.append_nil _).symm, completed_of_ne hc t ▸ .nil⟩
  | comment hn hc => exact ⟨[], (List.append_nil _).symm, by simp [completed, hn]⟩
  | gather hn hc => exact ⟨[], (List.append_nil _).symm, by simp [completed, hn]⟩
  | @comma done ss run s hc hs =>
    refine ⟨[s], by simp [selectors, Context.selectors], ?_⟩
    simpa [completed, isTerminator, hc] using hread hs
  | @brace done ss run s hb hs =>
    refine ⟨[s], by simp [selectors, Context.selectors], ?_⟩
    simpa [completed, isTerminator, hb] using hread hs
  | close hb => exact ⟨[], by simp [selectors, Context.selectors], .nil⟩
  | _ => exact ⟨[], (List.append_nil _).symm, .nil⟩

/-- The selectors read are those written. -/
theorem selectors_feedAll {σ : Settings} {ts : List Token} (h : m.feedAll σ ts = .ok m') :
    ∃ ss, m'.selectors = m.selectors ++ ss ∧
      List.Forall₂ (Selector.ReadFrom σ.mercator)
        (selectorRuns m.context.gathered (significant ts)) ss := by
  induction ts generalizing m with
  | nil =>
    cases h
    exact ⟨[], (List.append_nil _).symm, .nil⟩
  | cons t ts ih =>
    rw [feedAll] at h
    split at h
    · cases h
    · rename_i m₁ hf
      have hstep := step_of_feed hf
      obtain ⟨ss, hss, hcompleted⟩ := hstep.selectors
      obtain ⟨ss', hss', hrest⟩ := ih h
      refine ⟨ss ++ ss', by rw [hss', hss, List.append_assoc], ?_⟩
      rw [hstep.selectorRuns ts]
      exact List.rel_append hcompleted hrest

theorem feedAll_permitted {ts : List Token} (h : m.feedAll ⟨registry, true⟩ ts = .ok m') :
    m.feedAll ⟨registry, false⟩ ts =
      permitted m' (selectorRuns m.context.gathered (significant ts)) := by
  induction ts generalizing m with
  | nil => exact h
  | cons t ts ih =>
    rw [feedAll] at h
    split at h
    · cases h
    · rename_i m₁ hf
      rw [(step_of_feed hf).selectorRuns ts, permitted_append m₁, feedAll, feed_permitted hf]
      cases hp : permitted m₁ (m.completed t) with
      | error f => rfl
      | ok m₂ =>
        obtain ⟨rfl, -⟩ := (permitted_eq_ok_iff _ _ _).mp hp
        exact ih h

theorem feedAll_widens {ts : List Token} (h : m.feedAll ⟨registry, false⟩ ts = .ok m') :
    m.feedAll ⟨registry, true⟩ ts = .ok m' := by
  induction ts generalizing m with
  | nil => exact h
  | cons t ts ih =>
    rw [feedAll] at h
    split at h
    · cases h
    · rename_i m₁ hf
      rw [feedAll, feed_widens hf]
      exact ih h

end Machine

variable {registry : Registry} {tokens : List Token} {rs : List Ruleset}

theorem ofTokens_permitted (h : ofTokens ⟨registry, true⟩ tokens = .ok rs) :
    ofTokens ⟨registry, false⟩ tokens = permitted rs (writtenSelectors tokens) := by
  rw [Machine.ofTokens_eq_ok_iff] at h
  have hfeed : Machine.start.feedAll ⟨registry, false⟩ tokens =
      permitted ⟨rs, .betweenRules⟩ (writtenSelectors tokens) := Machine.feedAll_permitted h
  rw [ofTokens, hfeed, ← permitted_map Machine.done ⟨rs, .betweenRules⟩]
  cases hp : permitted (⟨rs, .betweenRules⟩ : Machine) (writtenSelectors tokens) with
  | error f => rfl
  | ok m =>
    obtain ⟨rfl, -⟩ := (permitted_eq_ok_iff _ _ _).mp hp
    rfl

theorem ofTokens_widens (h : ofTokens ⟨registry, false⟩ tokens = .ok rs) :
    ofTokens ⟨registry, true⟩ tokens = .ok rs := by
  rw [Machine.ofTokens_eq_ok_iff] at h ⊢
  exact Machine.feedAll_widens h

theorem selectors_ofTokens {σ : Settings} (h : ofTokens σ tokens = .ok rs) :
    List.Forall₂ (Selector.ReadFrom σ.mercator) (writtenSelectors tokens)
      (rs.flatMap Ruleset.selectors) := by
  rw [Machine.ofTokens_eq_ok_iff] at h
  obtain ⟨ss, hss, hread⟩ := Machine.selectors_feedAll h
  have hrs : rs.flatMap Ruleset.selectors = ss := by
    simpa [Machine.selectors, Machine.start, Context.selectors] using hss
  rw [hrs]
  exact hread

end Ruleset

namespace Declaration

variable {registry : Registry} {tokens : List Token} {ds : List Declaration}

theorem ofTokens_permitted (h : ofTokens ⟨registry, true⟩ tokens = .ok ds) :
    ofTokens ⟨registry, false⟩ tokens = permitted ds (writtenSelectors tokens) := by
  obtain ⟨rs, hr, rfl⟩ := flatten_of_ofTokens h
  have hm := matches_ofTokens ⟨registry, false⟩ tokens
  rw [Ruleset.ofTokens_permitted hr, permitted_map] at hm
  cases hp : permitted (Cascade.flatten rs) (writtenSelectors tokens) with
  | ok ds' => exact (hm.agree ds').mp hp
  | error f => exact hm.meaning f (isSyntax_of_permitted hp) hp

theorem ofTokens_widens (h : ofTokens ⟨registry, false⟩ tokens = .ok ds) :
    ofTokens ⟨registry, true⟩ tokens = .ok ds := by
  obtain ⟨rs, hr, rfl⟩ := flatten_of_ofTokens h
  rw [← (matches_ofTokens ⟨registry, true⟩ tokens).agree, Ruleset.ofTokens_widens hr]
  rfl

end Declaration

/-- All that the projection decides about a way of reading, for tokens with these selectors: what is
read under another projection is read under web mercator, and what is read under web mercator is
read under another projection unless a selector tests `zoom`; then the first that does is refused at
its first token. -/
structure ProjectionDecides {α : Type} (reading : Bool → Except Fault α)
    (selectors : List (List Token)) : Prop where
  widens : ∀ a, reading false = .ok a → reading true = .ok a
  same_iff : ∀ a, reading true = .ok a →
    (reading false = .ok a ↔ ∀ run ∈ selectors, testsZoom run = false)
  refuses : ∀ a, reading true = .ok a → ∀ first run rest, selectors = first ++ run :: rest →
    (∀ r ∈ first, testsZoom r = false) → testsZoom run = true →
      ∃ t, run.head? = some t ∧ reading false = .error (.projection t.position)

theorem ProjectionDecides.of_permitted {α : Type} {reading : Bool → Except Fault α}
    {selectors : List (List Token)} (hw : ∀ {a}, reading false = .ok a → reading true = .ok a)
    (hp : ∀ {a}, reading true = .ok a → reading false = permitted a selectors) :
    ProjectionDecides reading selectors where
  widens _ := hw
  same_iff a h := by
    rw [hp h, permitted_eq_ok_iff]
    simp
  refuses a h := by
    rintro first run rest rfl hfirst hrun
    rw [hp h]
    exact permitted_first a rest hfirst hrun

/-- The selectors written are those read, and of a sheet the projection decides only whether they may
test `zoom`, for its rulesets and for its declarations. -/
theorem projection_decides_zoom (registry : Registry) (tokens : List Token) :
    (∀ rs, Ruleset.ofTokens ⟨registry, true⟩ tokens = .ok rs →
      List.Forall₂ (Selector.ReadFrom true) (writtenSelectors tokens)
        (rs.flatMap Ruleset.selectors)) ∧
    ProjectionDecides (fun mercator => Ruleset.ofTokens ⟨registry, mercator⟩ tokens)
      (writtenSelectors tokens) ∧
    ProjectionDecides (fun mercator => Declaration.ofTokens ⟨registry, mercator⟩ tokens)
      (writtenSelectors tokens) :=
  ⟨fun _ => Ruleset.selectors_ofTokens,
    .of_permitted Ruleset.ofTokens_widens Ruleset.ofTokens_permitted,
    .of_permitted Declaration.ofTokens_widens Declaration.ofTokens_permitted⟩

/-- The third selector tests `zoom`, behind one whose attribute only begins like that word; the sheet
is refused where the third begins. -/
theorem projection_decides_zoom_roads :
    let tokens := Token.scan
      "Map \x7b \x7d #a[zoomed < 3], /* near */ Layer[ zoom >= 12] \x7b line-width: 2; \x7d"
    (∃ rs, Ruleset.ofTokens (Settings.standard true) tokens = .ok rs ∧
      Ruleset.ofTokens (Settings.standard false) tokens = .error (.projection ⟨1, 36⟩)) ∧
    ∃ ds, Declaration.ofTokens (Settings.standard true) tokens = .ok ds ∧
      Declaration.ofTokens (Settings.standard false) tokens = .error (.projection ⟨1, 36⟩) := by
  intro tokens
  let selectors := writtenSelectors tokens
  have hsplit : selectors = selectors.take 2 ++ (selectors[2]?.getD []) :: [] := by decide +kernel
  have hfirst : ∀ run ∈ selectors.take 2, testsZoom run = false := by decide +kernel
  have hzoom : testsZoom (selectors[2]?.getD []) = true := by decide +kernel
  have hposition : (selectors[2]?.getD []).head?.map Token.position = some ⟨1, 36⟩ := by
    decide +kernel
  have hr : (Ruleset.ofTokens (Settings.standard true) tokens).toBool = true := by decide +kernel
  have hd : (Declaration.ofTokens (Settings.standard true) tokens).toBool = true := by
    decide +kernel
  obtain ⟨-, hrules, hdeclarations⟩ := projection_decides_zoom .standard tokens
  constructor
  · cases h : Ruleset.ofTokens (Settings.standard true) tokens with
    | error f => rw [h] at hr; cases hr
    | ok rs =>
      obtain ⟨t, ht, hf⟩ := hrules.refuses rs h _ _ _ hsplit hfirst hzoom
      rw [ht, Option.map_some, Option.some.injEq] at hposition
      rw [hposition] at hf
      exact ⟨rs, rfl, hf⟩
  · cases h : Declaration.ofTokens (Settings.standard true) tokens with
    | error f => rw [h] at hd; cases hd
    | ok ds =>
      obtain ⟨t, ht, hf⟩ := hdeclarations.refuses ds h _ _ _ hsplit hfirst hzoom
      rw [ht, Option.map_some, Option.some.injEq] at hposition
      rw [hposition] at hf
      exact ⟨ds, rfl, hf⟩

end Cartosheet
