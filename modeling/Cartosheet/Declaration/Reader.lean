import Cartosheet.Cascade
import Cartosheet.Selector.Reader
import Cartosheet.Value.Typing

namespace Cartosheet

/-- The entry of a property whose name is the token `name`. -/
def Entry.build (p : Property) (name : Token) (value : List Token) (important : Bool) :
    Except Fault Entry :=
  match p.grammar.read value with
  | .ok v => .ok ⟨p, v, important, name.position⟩
  | .error cause => .error (.invalidValue p.name cause name.position)

namespace Entry

/-- What follows the `!` of an important value. -/
def readImportant : Reader Unit := do
  let _ ← Reader.require (·.isWord "important") .afterBang .insideDeclaration
  let _ ← Reader.require (·.isChar ';') .afterImportant .insideDeclaration
  return

/-- The tokens of a value through its closing `;`, and whether it is important. -/
def readValue (c : Cursor) : Reading (List Token × Bool) :=
  match _h : Reader.expect .insideDeclaration c with
  | .error f d => .error f d
  | .ok t d =>
    if t.isChar ';' then .ok ([], false) d
    else if t.isChar '!' then Reading.map (fun _ => ([], true)) (readImportant d)
    else if t.isChar '{' || t.isChar '}' then .error (.unexpected t .declarationValue) d
    else Reading.map (fun v => (t :: v.1, v.2)) (readValue d)
termination_by c.size
decreasing_by exact Reader.size_expect _h

/-- An entry from after its name. -/
def readAfter (σ : Settings) (name : Token) : Reader Entry := do
  let _ ← Reader.require (·.isChar ':') .beforeColon .insideDeclaration
  match σ.registry.find? name.text with
  | none => throw (.unknownProperty name.text name.position)
  | some p =>
    let (value, important) ← readValue
    match build p name value important with
    | .error f => throw f
    | .ok e => return e

theorem shrinks_readImportant : Reader.Shrinks readImportant :=
  (Reader.shrinks_require _ _ _).bind fun _ => (Reader.shrinks_require _ _ _).bind fun _ => .pure _

theorem shrinks_readValue : Reader.Shrinks readValue := by
  intro c
  fun_induction readValue c with
  | case1 c f d h =>
    have hs := Reader.shrinks_expect .insideDeclaration c
    rw [h] at hs
    exact hs
  | case2 c t d h => exact Nat.le_of_lt (Reader.size_expect h)
  | case3 c t d h =>
    rw [Reading.cursor_map]
    exact Nat.le_trans (shrinks_readImportant d) (Nat.le_of_lt (Reader.size_expect h))
  | case4 c t d h => exact Nat.le_of_lt (Reader.size_expect h)
  | case5 c t d h _ _ _ ih =>
    rw [Reading.cursor_map]
    exact Nat.le_trans ih (Nat.le_of_lt (Reader.size_expect h))

theorem shrinks_readAfter (σ : Settings) (name : Token) : Reader.Shrinks (readAfter σ name) := by
  refine (Reader.shrinks_require _ _ _).bind fun _ => ?_
  split
  · exact .throw _
  · refine shrinks_readValue.bind fun v => ?_
    dsimp only
    split
    · exact .throw _
    · exact .pure _

/-- The entries of a block, from after its `{` through its `}`. -/
def readBlock (σ : Settings) (c : Cursor) : Reading (List Entry) :=
  match _h : Reader.expect .insideBlock c with
  | .error f d => .error f d
  | .ok t d =>
    if t.isChar '}' then .ok [] d
    else if t.kind = .identifier then
      match _he : readAfter σ t d with
      | .error f e => .error f e
      | .ok entry e => Reading.map (entry :: ·) (readBlock σ e)
    else .error (.unexpected t .beforeProperty) d
termination_by c.size
decreasing_by
  have h := shrinks_readAfter σ t d
  rw [_he] at h
  exact Nat.lt_of_le_of_lt h (Reader.size_expect _h)

theorem shrinks_readBlock (σ : Settings) : Reader.Shrinks (readBlock σ) := by
  intro c
  fun_induction readBlock σ c with
  | case1 c f d h =>
    have hs := Reader.shrinks_expect .insideBlock c
    rw [h] at hs
    exact hs
  | case2 c t d h => exact Nat.le_of_lt (Reader.size_expect h)
  | case3 c t d h _ _ f e he =>
    have hs := shrinks_readAfter σ t d
    rw [he] at hs
    exact Nat.le_trans hs (Nat.le_of_lt (Reader.size_expect h))
  | case4 c t d h _ _ entry e he ih =>
    have hs := shrinks_readAfter σ t d
    rw [he] at hs
    rw [Reading.cursor_map]
    exact Nat.le_trans ih (Nat.le_trans hs (Nat.le_of_lt (Reader.size_expect h)))
  | case5 c t d h => exact Nat.le_of_lt (Reader.size_expect h)

end Entry

namespace Selector

/-- The selectors before a block, through its `{`. -/
def readGroup (mercator : Bool) (c : Cursor) : Reading (List Selector) :=
  match _h : read mercator c with
  | .error f d => .error f d
  | .ok (_, none) d => .error (.unexpectedEnd .insideSelector d.last) d
  | .ok (s, some t) d =>
    if t.isChar ',' then Reading.map (s :: ·) (readGroup mercator d) else .ok [s] d
termination_by c.size
decreasing_by exact size_read_terminator _h

/-- A group that was read has used up at least its `{`. -/
theorem size_readGroup {mercator : Bool} {c d : Cursor} {ss : List Selector}
    (h : readGroup mercator c = .ok ss d) : d.size < c.size := by
  fun_induction readGroup mercator c generalizing ss with
  | case1 => cases h
  | case2 => cases h
  | case3 c s t e hr _ ih =>
    cases hg : readGroup mercator e with
    | error f u => rw [hg] at h; cases h
    | ok ss' u =>
      rw [hg] at h
      cases h
      exact Nat.lt_trans (ih hg) (size_read_terminator hr)
  | case4 c s t e hr =>
    cases h
    exact size_read_terminator hr

end Selector

namespace Declaration

/-- The declarations of the next rule, or none if only whitespace and comments are left. -/
def readRule (σ : Settings) : Reader (Option (List Declaration)) := fun c =>
  match c.nextSignificant with
  | (none, d) => .ok none d
  | (some t, d) =>
    match Selector.readGroup σ.mercator (d.putBack t) with
    | .error f e => .error f e
    | .ok selectors e =>
      Reading.map (fun entries => some (crossProduct selectors entries)) (Entry.readBlock σ e)

/-- A rule that was read has used up tokens. -/
theorem size_readRule {σ : Settings} {c d : Cursor} {ds : List Declaration}
    (h : readRule σ c = .ok (some ds) d) : d.size < c.size := by
  unfold readRule at h
  cases hn : c.nextSignificant with
  | mk found e =>
    rw [hn] at h
    cases found with
    | none => cases h
    | some t =>
      dsimp only at h
      cases hg : Selector.readGroup σ.mercator (e.putBack t) with
      | error f u => rw [hg] at h; cases h
      | ok ss u =>
        rw [hg] at h
        have hu : u.size < c.size :=
          Nat.lt_of_lt_of_le (Selector.size_readGroup hg) (Cursor.size_putBack_nextPast hn)
        have hb := Entry.shrinks_readBlock σ u
        rw [← Reading.cursor_map (fun entries => some (crossProduct ss entries))] at hb
        dsimp only at h
        rw [h] at hb
        exact Nat.lt_of_le_of_lt hb hu

/-- The declarations of all rules in source order. -/
def readRules (σ : Settings) (c : Cursor) : Reading (List Declaration) :=
  match _h : readRule σ c with
  | .error f d => .error f d
  | .ok none d => .ok [] d
  | .ok (some ds) d => Reading.map (ds ++ ·) (readRules σ d)
termination_by c.size
decreasing_by exact size_readRule _h

/-- What each of a number of successive readings of a rule gives. A fault does not stop the next. -/
def readCalls (σ : Settings) : Nat → Cursor → List (Except Fault (Option (List Declaration)))
  | 0, _ => []
  | n + 1, c =>
    match readRule σ c with
    | .ok r d => .ok r :: readCalls σ n d
    | .error f d => .error f :: readCalls σ n d

/-- The declarations of a token list in cascade order. -/
def ofTokens (σ : Settings) (tokens : List Token) : Except Fault (List Declaration) :=
  match readRules σ { rest := tokens } with
  | .ok ds _ => .ok (Cascade.sort ds)
  | .error f _ => .error f

end Declaration

end Cartosheet
