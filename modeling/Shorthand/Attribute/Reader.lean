import Shorthand.Attribute
import Shorthand.Payload

/-!
# Reading attribute lists

A list such as `[attr col=3 title="Quoted string" selected. support={expression}]` holds, between
white space, entries of three kinds:

* a quoted literal, which is a value without a name;
* an unquoted token that is no name, which is a value without a name too;
* a name, perhaps after `!` and before `.`, and perhaps with `=` and a value behind it: a quoted
  literal, an expression between braces, or an unquoted token.

An unquoted token may hold a balanced `{…}` behind its first character, so `${1:name}` is one token.
-/

namespace Shorthand.Attribute

/-- The characters that have a meaning of their own in a list. -/
def reservedChars : List Char := ['[', ']', '\x7b', '\x7d', '=']

/-- May the character stand in an unquoted token? -/
def isUnquotedChar (c : Char) : Bool :=
  !Text.isWhiteSpace c && !reservedChars.contains c && !Literal.isQuote c

/-- May the character stand in the name of an attribute? -/
def isNameChar (c : Char) : Bool :=
  c.isAlphanum || ['_', '-', ':', '$', '@'].contains c

/-- A name as it stands in a list. -/
structure WrittenName where
  name : List Char
  boolean : Bool
  implied : Bool
  deriving DecidableEq, Repr

/-- A token without the character `c` in front, and whether it was there. -/
def dropFront (c : Char) (token : List Char) : List Char × Bool :=
  if token.head? = some c then (token.drop 1, true) else (token, false)

/-- A token without the character `c` at its end, and whether it was there. -/
def dropBack (c : Char) (token : List Char) : List Char × Bool :=
  if token.getLast? = some c then (token.dropLast, true) else (token, false)

/-- The name that a token stands for: name characters, at least one, perhaps after `!` and perhaps
before `.`. -/
def writtenName? (token : List Char) : Option WrittenName :=
  let (token, implied) := dropFront '!' token
  let (name, boolean) := dropBack '.' token
  if !name.isEmpty && name.all isNameChar then some { name, boolean, implied } else none

/-- Reads on in an unquoted token, of which `token` has been read: payloads, each with the unquoted
characters that follow it. -/
def readUnquotedFrom (token : String) (c : Cursor) : Except Failure (String × Cursor) :=
  match _h : Payload.read c with
  | .error failure => .error failure
  | .ok (none, _) => .ok (token, c)
  | .ok (some text, c') =>
    let more := c'.run isUnquotedChar
    readUnquotedFrom (token ++ "\x7b" ++ text ++ "\x7d" ++ String.ofList more.1) more.2
termination_by c.rest.length
decreasing_by
  have hlt := Payload.length_rest_of_read _h
  exact Nat.lt_of_le_of_lt (Cursor.length_rest_run_le isUnquotedChar c') hlt

/-- Reads an unquoted token, which is empty if no unquoted character is next. -/
def readUnquoted (c : Cursor) : Except Failure (String × Cursor) :=
  let token := c.run isUnquotedChar
  if token.1.isEmpty then .ok ("", token.2)
  else readUnquotedFrom (String.ofList token.1) token.2

/-- What stands behind a `=`: the value and, around an expression, its braces. -/
def readValue (c : Cursor) : Except Failure ((String × Bool) × Cursor) := do
  match ← Literal.read c with
  | (some text, c) => return ((text, false), c)
  | (none, c) =>
    match ← Payload.read c with
    | (some text, c) => return ((text, true), c)
    | (none, c) =>
      let (text, c) ← readUnquoted c
      return ((text, false), c)

/-- Reads what follows a name: its value, if there is a `=`. -/
def readNamed (written : WrittenName) (c : Cursor) : Except Failure (Attribute × Cursor) :=
  let name := some (String.ofList written.name)
  let options : Options := { boolean := written.boolean, implied := written.implied }
  match c.eat? (· == '=') with
  | none => .ok ({ make name none with options }, c)
  | some c => do
    let ((value, expression), c) ← readValue c
    if expression then
      let options := { options with before := some "\x7b", after := some "\x7d" }
      return ({ make name (some value) with options }, c)
    else
      return ({ make name (some value) with options }, c)

/-- Reads the next entry of a list, or its end. -/
def readEntry (c : Cursor) : Except Failure (Option Attribute × Cursor) :=
  let c := c.skip Text.isWhiteSpace
  match c.eat? (· == ']') with
  | some c => .ok (none, c)
  | none => do
    match ← Literal.read c with
    | (some text, c) => return (some (anonymous text), c)
    | (none, c) =>
      let (token, c) ← readUnquoted c
      if token = "" then
        -- Only a character that cannot start an entry, or the end, leaves the token empty.
        if c.atEnd then c.fail .openAttributeList else c.fail .noAttributeName
      else
        match writtenName? token.toList with
        | none => return (some (anonymous token), c)
        | some written =>
          let (a, c) ← readNamed written c
          return (some a, c)

/-! ### What the readers take -/

theorem length_rest_of_readUnquotedFrom {token token' : String} {c c' : Cursor}
    (h : readUnquotedFrom token c = .ok (token', c')) : c'.rest.length ≤ c.rest.length := by
  fun_induction readUnquotedFrom token c with
  | case1 => simp at h
  | case2 =>
    simp only [Except.ok.injEq, Prod.mk.injEq] at h
    exact Nat.le_of_eq (by rw [h.2])
  | case3 token c text c1 hread more ih =>
    have hle := Cursor.length_rest_run_le isUnquotedChar c1
    have hlt := Payload.length_rest_of_read hread
    exact Nat.le_trans (ih h) (Nat.le_trans hle (Nat.le_of_lt hlt))

theorem length_rest_of_readUnquoted {token : String} {c c' : Cursor}
    (h : readUnquoted c = .ok (token, c')) : c'.rest.length ≤ c.rest.length := by
  simp only [readUnquoted] at h
  have hle := Cursor.length_rest_run_le isUnquotedChar c
  split at h
  · simp only [Except.ok.injEq, Prod.mk.injEq] at h
    rw [← h.2]
    exact hle
  · exact Nat.le_trans (length_rest_of_readUnquotedFrom h) hle

/-- A token that was read leaves less to read. -/
theorem length_rest_of_readUnquoted_ne {token : String} {c c' : Cursor}
    (h : readUnquoted c = .ok (token, c')) (hne : token ≠ "") :
    c'.rest.length < c.rest.length := by
  simp only [readUnquoted] at h
  split at h
  · simp only [Except.ok.injEq, Prod.mk.injEq] at h
    exact absurd h.1.symm hne
  next hempty =>
    have hlt := Cursor.length_rest_run_lt (p := isUnquotedChar) (c := c) (by simpa using hempty)
    exact Nat.lt_of_le_of_lt (length_rest_of_readUnquotedFrom h) hlt

/-- What can be read behind a `=`: a quoted literal, else an expression, else an unquoted token. -/
inductive TakesValue (c : Cursor) : String × Bool → Cursor → Prop where
  | literal {text : String} {c' : Cursor} (hread : Literal.read c = .ok (some text, c')) :
      TakesValue c (text, false) c'
  | expression {text : String} {c' : Cursor} (hquote : Literal.read c = .ok (none, c))
      (hread : Payload.read c = .ok (some text, c')) : TakesValue c (text, true) c'
  | token {text : String} {c' : Cursor} (hquote : Literal.read c = .ok (none, c))
      (hbrace : Payload.read c = .ok (none, c)) (hread : readUnquoted c = .ok (text, c')) :
      TakesValue c (text, false) c'

/-- What was read was read by the first of the three readers that found something. -/
theorem takesValue_of_readValue {value : String × Bool} {c c' : Cursor}
    (h : readValue c = .ok (value, c')) : TakesValue c value c' := by
  simp only [readValue, bind, Except.bind, pure, Except.pure] at h
  split at h
  · simp at h
  next found hlit =>
  obtain ⟨text?, c₁⟩ := found
  cases text? with
  | some text =>
      cases h
      exact .literal hlit
  | none =>
      obtain rfl := Literal.eq_of_read_none hlit
      simp only at h
      split at h
      · simp at h
      next found hpay =>
      obtain ⟨text?, c₂⟩ := found
      cases text? with
      | some text =>
          cases h
          exact .expression hlit hpay
      | none =>
          obtain rfl := Payload.eq_of_read_none hpay
          simp only at h
          split at h
          · simp at h
          next htok =>
          cases h
          exact .token hlit hpay htok

theorem length_rest_of_readValue {value : String × Bool} {c c' : Cursor}
    (h : readValue c = .ok (value, c')) : c'.rest.length ≤ c.rest.length := by
  cases takesValue_of_readValue h with
  | literal hread => exact Nat.le_of_lt (Literal.length_rest_of_read hread)
  | expression _ hread => exact Nat.le_of_lt (Payload.length_rest_of_read hread)
  | token _ _ hread => exact length_rest_of_readUnquoted hread

theorem length_rest_of_readNamed {written : WrittenName} {a : Attribute} {c c' : Cursor}
    (h : readNamed written c = .ok (a, c')) : c'.rest.length ≤ c.rest.length := by
  simp only [readNamed, bind, Except.bind, pure, Except.pure] at h
  split at h
  · simp only [Except.ok.injEq, Prod.mk.injEq] at h
    exact Nat.le_of_eq (by rw [h.2])
  next heat =>
    have hlt := Cursor.length_rest_of_eat? heat
    split at h
    · simp at h
    next hval =>
      have hle := length_rest_of_readValue hval
      split at h <;>
      · simp only [Except.ok.injEq, Prod.mk.injEq] at h
        rw [← h.2]
        omega

/-- What can be read as an entry, behind white space: a quoted literal, else an unquoted token, which
is a value or a name with what belongs to it. -/
inductive TakesEntry (c : Cursor) : Attribute → Cursor → Prop where
  | literal {text : String} {c' : Cursor} (hread : Literal.read c = .ok (some text, c')) :
      TakesEntry c (anonymous text) c'
  | token {token : String} {c' : Cursor} (hquote : Literal.read c = .ok (none, c))
      (hread : readUnquoted c = .ok (token, c')) (hne : token ≠ "")
      (hname : writtenName? token.toList = none) : TakesEntry c (anonymous token) c'
  | named {token : String} {written : WrittenName} {a : Attribute} {c₁ c' : Cursor}
      (hquote : Literal.read c = .ok (none, c)) (hread : readUnquoted c = .ok (token, c₁))
      (hne : token ≠ "") (hname : writtenName? token.toList = some written)
      (hnamed : readNamed written c₁ = .ok (a, c')) : TakesEntry c a c'

/-- An entry was read where the list does not end. -/
theorem takesEntry_of_readEntry {a : Attribute} {c c' : Cursor}
    (h : readEntry c = .ok (some a, c')) :
    (c.skip Text.isWhiteSpace).eat? (· == ']') = none ∧
      TakesEntry (c.skip Text.isWhiteSpace) a c' := by
  simp only [readEntry, bind, Except.bind, pure, Except.pure] at h
  generalize c.skip Text.isWhiteSpace = c at h ⊢
  split at h
  · simp at h
  next heat =>
  refine ⟨heat, ?_⟩
  split at h
  · simp at h
  next found hlit =>
  obtain ⟨text?, c₁⟩ := found
  cases text? with
  | some text =>
      cases h
      exact .literal hlit
  | none =>
      obtain rfl := Literal.eq_of_read_none hlit
      simp only at h
      split at h
      · simp at h
      next htok =>
      split at h
      · split at h <;> simp [Cursor.fail] at h
      next hne =>
      split at h
      · next hname =>
        cases h
        exact .token hlit htok hne hname
      · next hname =>
        split at h
        · simp at h
        next hnamed =>
        cases h
        exact .named hlit htok hne hname hnamed

/-- The end of a list is a closing bracket, perhaps behind white space. -/
theorem eat?_of_readEntry_none {c c' : Cursor} (h : readEntry c = .ok (none, c')) :
    (c.skip Text.isWhiteSpace).eat? (· == ']') = some c' := by
  simp only [readEntry, bind, Except.bind, pure, Except.pure] at h
  split at h
  · next heat =>
    cases h
    exact heat
  · repeat' split at h
    all_goals simp [Cursor.fail] at h

/-- An entry that was read leaves less to read. -/
theorem length_rest_of_readEntry {a : Attribute} {c c' : Cursor}
    (h : readEntry c = .ok (some a, c')) : c'.rest.length < c.rest.length := by
  refine Nat.lt_of_lt_of_le ?_ (Cursor.length_rest_skip_le Text.isWhiteSpace c)
  cases (takesEntry_of_readEntry h).2 with
  | literal hread => exact Literal.length_rest_of_read hread
  | token _ hread hne _ => exact length_rest_of_readUnquoted_ne hread hne
  | named _ hread hne _ hnamed =>
      exact Nat.lt_of_le_of_lt (length_rest_of_readNamed hnamed)
        (length_rest_of_readUnquoted_ne hread hne)

theorem length_rest_of_readEntry_none {c c' : Cursor} (h : readEntry c = .ok (none, c')) :
    c'.rest.length < c.rest.length :=
  Nat.lt_of_lt_of_le (Cursor.length_rest_of_eat? (eat?_of_readEntry_none h))
    (Cursor.length_rest_skip_le Text.isWhiteSpace c)

/-! ### Whole lists -/

/-- Reads the entries up to the end of the list, behind those in `found` (last first). -/
def readEntries (found : List Attribute) (c : Cursor) : Except Failure (List Attribute × Cursor) :=
  match _h : readEntry c with
  | .error failure => .error failure
  | .ok (none, c') => .ok (found.reverse, c')
  | .ok (some a, c') => readEntries (a :: found) c'
termination_by c.rest.length
decreasing_by exact length_rest_of_readEntry _h

/-- Reads an attribute list, if the cursor is on an opening bracket. -/
def readList (c : Cursor) : Except Failure (Option (List Attribute) × Cursor) :=
  match c.eat? (· == '[') with
  | none => .ok (none, c)
  | some c => do
    let (list, c) ← readEntries [] c
    return (some list, c)

theorem length_rest_of_readEntries {found list : List Attribute} {c c' : Cursor}
    (h : readEntries found c = .ok (list, c')) : c'.rest.length ≤ c.rest.length := by
  fun_induction readEntries found c with
  | case1 => simp at h
  | case2 found c c1 hentry =>
    simp only [Except.ok.injEq, Prod.mk.injEq] at h
    rw [← h.2]
    exact Nat.le_of_lt (length_rest_of_readEntry_none hentry)
  | case3 found c a c1 hentry ih =>
    exact Nat.le_trans (ih h) (Nat.le_of_lt (length_rest_of_readEntry hentry))

/-- A list that was read leaves less to read. -/
theorem length_rest_of_readList {list : List Attribute} {c c' : Cursor}
    (h : readList c = .ok (some list, c')) : c'.rest.length < c.rest.length := by
  simp only [readList, bind, Except.bind, pure, Except.pure] at h
  split at h
  · simp at h
  next heat =>
    split at h
    · simp at h
    next hentries =>
      simp only [Except.ok.injEq, Prod.mk.injEq] at h
      rw [← h.2]
      exact Nat.lt_of_le_of_lt (length_rest_of_readEntries hentries)
        (Cursor.length_rest_of_eat? heat)

/-- Where no list is, nothing is read. -/
theorem eq_of_readList_none {c c' : Cursor} (h : readList c = .ok (none, c')) : c' = c := by
  simp only [readList, bind, Except.bind, pure, Except.pure] at h
  split at h
  · simpa [eq_comm] using h
  · split at h <;> simp at h

end Shorthand.Attribute
