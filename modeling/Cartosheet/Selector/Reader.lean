import Cartosheet.Selector.Zoom
import Cartosheet.Token.Reader
import Cartosheet.Value.Quoting

namespace Cartosheet

namespace Reader

/-- `<` and `>` take a `=` that follows at once; only comments may come between. -/
def orEqual (strict inclusive : Operator) : Reader Operator := fun c =>
  match c.nextPastComments with
  | (some t, d) => if t.isChar '=' then .ok inclusive d else .ok strict (d.putBack t)
  | (none, d) => .ok strict d

def operator : Reader Operator := do
  let t ← expect .insideAttribute
  if t.isChar '=' then return .equal
  else if t.isChar '<' then orEqual .less .atMost
  else if t.isChar '>' then orEqual .greater .atLeast
  else if t.isChar '!' then
    match ← pastComments with
    | some u => if u.isChar '=' then return .unequal else throw (.unexpected u .afterNegation)
    | none => throw (.unexpected t .attributeOperator)
  else throw (.unexpected t .attributeOperator)

/-- A number or a quoted string. -/
def scalar : Reader Scalar := do
  let t ← expect .insideAttribute
  if t.kind = .number then
    match Binary64.ofText? t.text with
    | some x => return .number x
    | none => throw (.unexpected t .attributeNumber)
  else if t.kind = .string then return .string (unquoted t.text)
  else throw (.unexpected t .attributeValue)

/-- An attribute test from after its opening bracket. -/
def attributeTest : Reader Test := do
  let name ← require (·.kind = .identifier) .attributeName .insideAttribute
  let op ← operator
  let value ← scalar
  let _ ← require (·.isChar ']') .attributeEnd .insideAttribute
  return ⟨name.text, op, value⟩

theorem shrinks_orEqual (strict inclusive : Operator) : Shrinks (orEqual strict inclusive) := by
  intro c
  unfold orEqual
  cases hn : c.nextPastComments with
  | mk found d =>
    cases found with
    | none =>
      have h := Cursor.size_nextPast_le Token.isComment c
      change c.nextPastComments.2.size ≤ c.size at h
      rw [hn] at h
      exact h
    | some t =>
      dsimp only
      split
      · exact Nat.le_of_lt (Cursor.size_nextPast hn)
      · exact Cursor.size_putBack_nextPast hn

theorem shrinks_operator : Shrinks operator := by
  refine (shrinks_expect _).bind fun t => ?_
  split
  · exact .pure _
  split
  · exact shrinks_orEqual _ _
  split
  · exact shrinks_orEqual _ _
  split
  · refine shrinks_pastComments.bind fun u => ?_
    cases u with
    | none => exact .throw _
    | some u =>
      dsimp only
      split
      · exact .pure _
      · exact .throw _
  · exact .throw _

theorem shrinks_scalar : Shrinks scalar := by
  refine (shrinks_expect _).bind fun t => ?_
  split
  · split
    · exact .pure _
    · exact .throw _
  split
  · exact .pure _
  · exact .throw _

theorem shrinks_attributeTest : Shrinks attributeTest :=
  (shrinks_require _ _ _).bind fun _ => shrinks_operator.bind fun _ => shrinks_scalar.bind fun _ =>
    (shrinks_require _ _ _).bind fun _ => .pure _

end Reader

namespace Selector

/-- Changes the last element, a new one if there is none. -/
def joinLast (change : Element → Element) : List Element → List Element
  | [] => [change {}]
  | [e] => [change e]
  | e :: es => e :: joinLast change es

/-- The name after a dot. -/
def className : Reader Name := do
  match ← Reader.pastComments with
  | none => Reader.endAt .afterDot
  | some t =>
    if t.kind = .identifier then return .className t.text else throw (.unexpected t .afterDot)

/-- The elements after the item that begins with `t`. -/
def readItem (elements : List Element) (t : Token) : Reader (List Element) := do
  if t.kind = .identifier then return elements ++ [{ names := [.tag t.text] }]
  else if t.kind = .hash then return joinLast (·.addName (.ofText t.text)) elements
  else if t.isChar '*' then return joinLast (·.addName .universal) elements
  else if t.isChar '.' then
    let n ← className
    return joinLast (·.addName n) elements
  else if t.isChar '[' then
    if elements.isEmpty then throw (.unexpected t .beforeName)
    else
      let test ← Reader.attributeTest
      return joinLast (·.addTest test) elements
  else throw (.unexpected t .inSelector)

/-- Elements read up to the token that ends their selector. -/
structure Run where
  elements : List Element
  /-- Where the first item began. -/
  start : Option Position
  /-- The `,` or `{` after the last item, if the tokens did not end first. -/
  terminator : Option Token
  deriving DecidableEq, Repr

def isTerminator (t : Token) : Bool := t.isChar ',' || t.isChar '{'

theorem shrinks_className : Reader.Shrinks className := by
  refine Reader.shrinks_pastComments.bind fun t => ?_
  cases t with
  | none => exact Reader.shrinks_endAt _
  | some t =>
    dsimp only
    split
    · exact .pure _
    · exact .throw _

theorem shrinks_readItem (elements : List Element) (t : Token) :
    Reader.Shrinks (readItem elements t) := by
  unfold readItem
  split
  · exact .pure _
  split
  · exact .pure _
  split
  · exact .pure _
  split
  · exact shrinks_className.bind fun _ => .pure _
  split
  · split
    · exact .throw _
    · exact Reader.shrinks_attributeTest.bind fun _ => .pure _
  · exact .throw _

/-- Items up to a terminator, after `elements` that began at `start`. -/
def readItems (elements : List Element) (start : Option Position) (c : Cursor) : Reading Run :=
  match _hn : c.nextSignificant with
  | (none, d) => .ok ⟨elements, start, none⟩ d
  | (some t, d) =>
    if isTerminator t then .ok ⟨elements, start, some t⟩ d
    else
      match _hi : readItem elements t d with
      | .error f e => .error f e
      | .ok elements' e => readItems elements' (start.or (some t.position)) e
termination_by c.size
decreasing_by
  have h := shrinks_readItem elements t d
  rw [_hi] at h
  exact Nat.lt_of_le_of_lt h (Cursor.size_nextPast _hn)

/-- The selector of the elements, with its zoom tests expanded. A fault names the elements as they
were written. -/
def build (mercator : Bool) (elements : List Element) (position : Position) :
    Except Fault Selector :=
  match ofElements elements with
  | .error f => .error (.ofSelector (textOfElements elements) f position)
  | .ok s =>
    match s.convertZoom mercator with
    | (s', none) => .ok s'
    | (_, some f) => .error (.ofSelector (textOfElements elements) f position)

/-- Where a fault of the whole selector lies: at its first item, else at its terminator, else at the
token read last. -/
def Run.position (r : Run) (last : Position) : Position :=
  (r.start.or (r.terminator.map Token.position)).getD last

/-- One selector and its terminator. -/
def read (mercator : Bool) : Reader (Selector × Option Token) := fun c =>
  match readItems [] none c with
  | .error f d => .error f d
  | .ok r d =>
    match build mercator r.elements (r.position d.last) with
    | .error f => .error f d
    | .ok s => .ok (s, r.terminator) d

/-- The selector that a run of tokens is, without its terminator, which began at `stop`. -/
def ofTokens (mercator : Bool) (tokens : List Token) (stop : Position) : Except Fault Selector :=
  if tokens.all Token.isTransparent then .error (.ofSelector "" .empty stop)
  else
    match read mercator { rest := tokens } with
    | .error f _ => .error f
    | .ok (s, none) _ => .ok s
    | .ok (_, some t) _ => .error (.unexpected t .inSelector)

/-- A terminator that was read is used up. -/
theorem size_readItems_terminator {elements : List Element} {start : Option Position}
    {c d : Cursor} {r : Run} {t : Token} (h : readItems elements start c = .ok r d)
    (ht : r.terminator = some t) : d.size < c.size := by
  fun_induction readItems elements start c with
  | case1 => cases h; cases ht
  | case2 elements start c t d hn =>
    cases h
    exact Cursor.size_nextPast hn
  | case3 => cases h
  | case4 elements start c t d hn _ elements' e hi ih =>
    have hs := shrinks_readItem elements t d
    rw [hi] at hs
    exact Nat.lt_trans (ih h) (Nat.lt_of_le_of_lt hs (Cursor.size_nextPast hn))

theorem size_read_terminator {mercator : Bool} {c d : Cursor} {s : Selector} {t : Token}
    (h : read mercator c = .ok (s, some t) d) : d.size < c.size := by
  unfold read at h
  cases hr : readItems [] none c with
  | error f e => rw [hr] at h; cases h
  | ok r e =>
    rw [hr] at h
    dsimp only at h
    split at h
    · cases h
    · simp only [EStateM.Result.ok.injEq, Prod.mk.injEq] at h
      obtain ⟨⟨_, ht⟩, rfl⟩ := h
      exact size_readItems_terminator hr ht

end Selector

end Cartosheet
