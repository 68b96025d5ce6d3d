import Shorthand.Attribute.Reader
import Shorthand.Node

/-!
# Reading elements

An element is a sequence of parts without blanks: a name, `.class`, `#id`, an attribute list, a text
payload, a repeat, and at the very end `/`. The name has to come before the attributes. Reading stops
in front of the first character that starts no part.
-/

namespace Shorthand.Node

/-- May the character stand in the name of an element, in a class or in an id? -/
def isNameChar (c : Char) : Bool :=
  c.isAlphanum || ['_', '-', ':', '$', '@', '!', '%'].contains c

/-- What was read of an element in one step. -/
inductive Part where
  /-- The next character starts no part. -/
  | absent
  /-- A part, with the node it leads to; more may follow. -/
  | more (node : Node)
  /-- The part that ends an element. -/
  | last (node : Node)
  deriving DecidableEq, Repr

/-- Reads the end mark of an element, behind which a repeat may stand. -/
def readSlash (n : Node) (c : Cursor) : Except Failure (Part × Cursor) :=
  if n.isGroup then c.fail .straySlash
  else
    let closed := { n with selfClosing := true }
    match Repeat.read c.advance with
    | (none, c) => .ok (.last closed, c)
    | (some r, c) => .ok (.last { closed with repeats := some r }, c)

/-- Reads one more part of an element, of which `n` has been read. -/
def readPart (n : Node) (c : Cursor) : Except Failure (Part × Cursor) :=
  match c.rest with
  | [] => .ok (.absent, c)
  | '.' :: _ =>
    let name := c.advance.takeRun isNameChar
    .ok (.more (n.addClass (String.ofList name.1)), name.2)
  | '#' :: _ =>
    let name := c.advance.takeRun isNameChar
    .ok (.more (n.setAttribute (Attribute.named "id" (String.ofList name.1))), name.2)
  | '/' :: _ => readSlash n c
  | '[' :: _ =>
    match Attribute.readList c with
    | .error failure => .error failure
    | .ok (none, c') => .ok (.absent, c')
    | .ok (some list, c') => .ok (.more (list.foldl setAttribute n), c')
  | '\x7b' :: _ =>
    match Payload.read c with
    | .error failure => .error failure
    | .ok (none, c') => .ok (.absent, c')
    | .ok (some text, c') => .ok (.more { n with text := some text }, c')
  | '*' :: _ =>
    match Repeat.read c with
    | (none, c') => .ok (.absent, c')
    | (some r, c') => .ok (.more { n with repeats := some r }, c')
  | x :: _ =>
    -- Behind a name or an attribute, a name character belongs to something else.
    if isNameChar x && n.name.isNone && n.attributes.isEmpty then
      let name := c.takeRun isNameChar
      .ok (.more { n with name := some (String.ofList name.1) }, name.2)
    else .ok (.absent, c)

/-! ### What the readers take -/

/-- An element that is closed, perhaps with a repeat behind its end mark. -/
def closed (n : Node) (repeats : Option Repeat) : Node :=
  { n with selfClosing := true, repeats := repeats.or n.repeats }

/-- The end mark stands behind an element that is no group, and ends it. -/
theorem eq_of_readSlash {n : Node} {part : Part} {c c' : Cursor}
    (h : readSlash n c = .ok (part, c')) : n.isGroup = false ∧
      part = .last (n.closed (Repeat.read c.advance).1) ∧ c' = (Repeat.read c.advance).2 := by
  unfold readSlash at h
  split at h
  · simp [Cursor.fail] at h
  next hgroup =>
  refine ⟨by simpa using hgroup, ?_⟩
  split at h <;>
  · next hread =>
    cases h
    simp [hread, closed]

/-- The parts behind which an element goes on, with what each makes of the element. -/
inductive TakesPart (n : Node) (c : Cursor) : Node → Cursor → Prop where
  | className (hrest : c.rest ≠ []) : TakesPart n c
      (n.addClass (String.ofList (c.advance.takeRun isNameChar).1)) (c.advance.takeRun isNameChar).2
  | id (hrest : c.rest ≠ []) : TakesPart n c
      (n.setAttribute (Attribute.named "id" (String.ofList (c.advance.takeRun isNameChar).1)))
      (c.advance.takeRun isNameChar).2
  | list {list : List Attribute} {c' : Cursor} (hread : Attribute.readList c = .ok (some list, c')) :
      TakesPart n c (list.foldl setAttribute n) c'
  | text {text : String} {c' : Cursor} (hread : Payload.read c = .ok (some text, c')) :
      TakesPart n c { n with text := some text } c'
  | count {r : Repeat} {c' : Cursor} (hread : Repeat.read c = (some r, c')) :
      TakesPart n c { n with repeats := some r } c'
  | name (hname : (c.takeRun isNameChar).1 ≠ []) : TakesPart n c
      { n with name := some (String.ofList (c.takeRun isNameChar).1) } (c.takeRun isNameChar).2

/-- Reading leads on with one of these parts: the end mark ends the element, and where nothing was read
there is no part. -/
theorem takesPart_of_readPart {n n' : Node} {c c' : Cursor}
    (h : readPart n c = .ok (.more n', c')) : TakesPart n c n' c' := by
  revert h
  fun_cases readPart n c with
  | case1 hrest => simp
  | case2 tail hrest name =>
      intro h
      cases h
      exact .className (by simp [hrest])
  | case3 tail hrest name =>
      intro h
      cases h
      exact .id (by simp [hrest])
  | case4 tail hrest =>
      intro h
      obtain ⟨-, hpart, -⟩ := eq_of_readSlash h
      cases hpart
  | case5 | case6 | case8 | case9 | case11 | case14 => simp
  | case7 tail hrest list c₁ hread =>
      intro h
      cases h
      exact .list hread
  | case10 tail hrest text c₁ hread =>
      intro h
      cases h
      exact .text hread
  | case12 tail hrest r c₁ hread =>
      intro h
      cases h
      exact .count hread
  | case13 x tail hdot hhash hslash hlist htext hstar hrest hname name =>
      intro h
      cases h
      simp only [Bool.and_eq_true] at hname
      exact .name (by simp [Cursor.takeRun, Cursor.run, hrest, hname.1.1])

theorem eq_of_readPart_last {n n' : Node} {c c' : Cursor}
    (h : readPart n c = .ok (.last n', c')) : c.rest ≠ [] ∧ n.isGroup = false ∧
      n' = n.closed (Repeat.read c.advance).1 ∧ c' = (Repeat.read c.advance).2 := by
  revert h
  fun_cases readPart n c with
  | case4 tail hrest =>
      intro h
      obtain ⟨hgroup, hpart, hend⟩ := eq_of_readSlash h
      cases hpart
      exact ⟨by simp [hrest], hgroup, rfl, hend⟩
  | _ => simp

/-- Where there is no part, nothing is read. -/
theorem eq_of_readPart_absent {n : Node} {c c' : Cursor} (h : readPart n c = .ok (.absent, c')) :
    c' = c := by
  revert h
  fun_cases readPart n c with
  | case1 | case14 => simp [eq_comm]
  | case4 tail hrest =>
      intro h
      obtain ⟨-, hpart, -⟩ := eq_of_readSlash h
      cases hpart
  | case6 tail hrest c₁ hread => simp [Attribute.eq_of_readList_none hread, eq_comm]
  | case9 tail hrest c₁ hread => simp [Payload.eq_of_read_none hread, eq_comm]
  | case11 tail hrest c₁ hread => simp [Repeat.eq_of_read_none hread, eq_comm]
  | _ => simp

/-- A part that was read leaves less to read. -/
theorem length_rest_of_readPart {n n' : Node} {c c' : Cursor}
    (h : readPart n c = .ok (.more n', c')) : c'.rest.length < c.rest.length := by
  have hmark : c.rest ≠ [] → (c.advance.takeRun isNameChar).2.rest.length < c.rest.length :=
    fun hne => Nat.lt_of_le_of_lt (Cursor.length_rest_takeRun_le _ _) (Cursor.length_rest_advance hne)
  cases takesPart_of_readPart h with
  | className hrest => exact hmark hrest
  | id hrest => exact hmark hrest
  | list hread => exact Attribute.length_rest_of_readList hread
  | text hread => exact Payload.length_rest_of_read hread
  | count hread => exact Repeat.length_rest_of_read hread
  | name hname => exact Cursor.length_rest_run_lt (c := { c with mark := c.before }) hname

/-- So does the part that ends an element. -/
theorem length_rest_of_readPart_last {n n' : Node} {c c' : Cursor}
    (h : readPart n c = .ok (.last n', c')) : c'.rest.length < c.rest.length := by
  obtain ⟨hrest, -, -, rfl⟩ := eq_of_readPart_last h
  exact Nat.lt_of_le_of_lt (Repeat.length_rest_read_le _) (Cursor.length_rest_advance hrest)

/-! ### Whole elements -/

/-- Reads the remaining parts of an element, of which `n` has been read. -/
def readParts (n : Node) (c : Cursor) : Except Failure (Node × Cursor) :=
  match _h : readPart n c with
  | .error failure => .error failure
  | .ok (.absent, _) => .ok (n, c)
  | .ok (.last n', c') => .ok (n', c')
  | .ok (.more n', c') => readParts n' c'
termination_by c.rest.length
decreasing_by exact length_rest_of_readPart _h

/-- Reads an element, of which at least one part has to be there. -/
def read (c : Cursor) : Except Failure (Node × Cursor) :=
  match readPart {} c with
  | .error failure => .error failure
  | .ok (.absent, _) => c.fail (.noElement c.peek)
  | .ok (.last n, c') => .ok (n, c')
  | .ok (.more n, c') => readParts n c'

theorem length_rest_of_readParts {n n' : Node} {c c' : Cursor}
    (h : readParts n c = .ok (n', c')) : c'.rest.length ≤ c.rest.length := by
  fun_induction readParts n c with
  | case1 => simp at h
  | case2 =>
    simp only [Except.ok.injEq, Prod.mk.injEq] at h
    exact Nat.le_of_eq (by rw [h.2])
  | case3 n c n1 c1 hpart =>
    simp only [Except.ok.injEq, Prod.mk.injEq] at h
    rw [← h.2]
    exact Nat.le_of_lt (length_rest_of_readPart_last hpart)
  | case4 n c n1 c1 hpart ih =>
    exact Nat.le_trans (ih h) (Nat.le_of_lt (length_rest_of_readPart hpart))

/-- An element that was read leaves less to read. -/
theorem length_rest_of_read {n : Node} {c c' : Cursor} (h : read c = .ok (n, c')) :
    c'.rest.length < c.rest.length := by
  unfold read at h
  split at h
  · simp at h
  · simp [Cursor.fail] at h
  · next hpart =>
    simp only [Except.ok.injEq, Prod.mk.injEq] at h
    rw [← h.2]
    exact length_rest_of_readPart_last hpart
  · next hpart =>
    exact Nat.lt_of_le_of_lt (length_rest_of_readParts h) (length_rest_of_readPart hpart)

end Shorthand.Node
