import Shorthand.Proofs.Scanner.Values
import Shorthand.Tree.Builder

/-!
# Elements and abbreviations by byte offsets

The readers of elements and items as scans, and the whole of parsing. As with values, each of them is
defined at every place of a cursor and has the outcome of the reader of the same name.
-/

namespace Shorthand

open Text Scanner

/-- An element has been read if the place has changed. -/
theorem Node.read_eq_readParts (c : Cursor) : read c = (readParts {} c >>= fun found =>
    if found.2.pos = c.pos then found.2.fail (.noElement found.2.peek) else .ok found) := by
  rw [readParts_eq, read]
  cases hpart : readPart {} c with
  | error failure => rfl
  | ok found =>
      obtain ⟨part, c₁⟩ := found
      have hpasses := passes_readPart hpart
      cases part with
      | absent =>
          show _ = if c.pos = c.pos then c.fail (.noElement c.peek) else _
          rw [if_pos rfl]
      | last n =>
          have hlt := hpasses.pos_lt (length_rest_of_readPart_last hpart)
          show _ = if c₁.pos = c.pos then c₁.fail (.noElement c₁.peek) else _
          rw [if_neg (Nat.ne_of_gt hlt)]
      | more n =>
          have hlt := hpasses.pos_lt (length_rest_of_readPart hpart)
          show readParts n c₁ = readParts n c₁ >>= _
          cases hparts : readParts n c₁ with
          | error failure => rfl
          | ok found =>
              have hle := (passes_readParts hparts).ahead.pos_le
              show _ = if found.2.pos = c.pos then _ else _
              rw [if_neg (by omega)]

/-- The cursor without its token. -/
def Cursor.plain (c : Cursor) : Cursor :=
  { c with mark := [] }

/-- The builder without the tokens of the places where its groups start. -/
def Builder.plain (b : Builder) : Builder :=
  { b with groups := b.groups.map fun group => { group with start := group.start.plain } }

/-- No builder looks at tokens. -/
theorem Builder.add?_plain (b : Builder) (c : Cursor) (item : Item) :
    b.plain.add? c.plain item = (b.add? c item).map plain := by
  obtain ⟨tree, context, groups⟩ := b
  cases item with
  | groupStart => rfl
  | element node joint => rfl
  | groupEnd repeats => cases groups <;> cases repeats <;> rfl

theorem Builder.finish_plain (b : Builder) : b.plain.finish = b.finish := by
  simp only [finish, plain, List.getLast?_map]
  cases b.groups.getLast? <;> rfl

namespace Scan

/-! ### Repeats and elements -/

/-- Reads a repeat, if the place is in front of a `*`. -/
noncomputable def readRepeat : Scan (Option Repeat) := do
  if ← eat (· == '*') then
    let digits ← consumeWhile Numeral.isDigit
    return some { count := Repeat.countOf digits }
  else return none

theorem run_readRepeat (c : Cursor) :
    readRepeat.run (ofCursor c) = some (.ok (Repeat.read c).1, ofCursor (Repeat.read c).2) := by
  rw [readRepeat, run_bind (run_eat _ c), Repeat.read]
  cases heat : c.eat? (· == '*') with
  | none => rfl
  | some c₁ => exact run_bind (run_consumeWhile Numeral.isDigit c₁)

/-- Reads the end mark of an element, behind which a repeat may stand. -/
noncomputable def readSlash (n : Node) : Scan Node.Part := do
  if n.isGroup then fail .straySlash
  else
    let _ ← advance
    let closed := { n with selfClosing := true }
    match ← readRepeat with
    | none => return .last closed
    | some r => return .last { closed with repeats := some r }

/-- Reads one more part of an element, of which `n` has been read. -/
noncomputable def readPart (n : Node) : Scan Node.Part := do
  match ← peek with
  | none => return .absent
  | some '.' =>
    let _ ← advance
    let name ← consumeWhile Node.isNameChar
    return .more (n.addClass (String.ofList name))
  | some '#' =>
    let _ ← advance
    let name ← consumeWhile Node.isNameChar
    return .more (n.setAttribute (Attribute.named "id" (String.ofList name)))
  | some '/' => readSlash n
  | some '[' =>
    match ← readAttributes with
    | none => return .absent
    | some list => return .more (list.foldl Node.setAttribute n)
  | some '\x7b' =>
    match ← readText with
    | none => return .absent
    | some text => return .more { n with text := some text }
  | some '*' =>
    match ← readRepeat with
    | none => return .absent
    | some r => return .more { n with repeats := some r }
  | some x =>
    if Node.isNameChar x && n.name.isNone && n.attributes.isEmpty then
      let name ← consumeWhile Node.isNameChar
      return .more { n with name := some (String.ofList name) }
    else return .absent

/-- Reads the remaining parts of an element, of which `n` has been read. -/
noncomputable def readParts (n : Node) : Scan Node :=
  loop (fun n => do
    match ← readPart n with
    | .absent => return .inr n
    | .last n => return .inr n
    | .more n => return .inl n) n

/-- Reads an element, of which at least one part has to be there. -/
noncomputable def readElement : Scan Node := do
  let start ← pos
  let n ← readParts {}
  if (← pos) = start then fail (.noElement (← peek)) else return n

theorem run_readSlash (n : Node) (c : Cursor) :
    (readSlash n).run (ofCursor c) = some (ofResult (Node.readSlash n c)) := by
  unfold readSlash Node.readSlash
  split
  · rfl
  · have hread := run_readRepeat c.advance
    rw [run_bind (run_advance c)]
    generalize Repeat.read c.advance = found at hread ⊢
    obtain ⟨r?, c₁⟩ := found
    refine (run_bind hread).trans ?_
    cases r? <;> rfl

/-- **One part of an element.** The scan looks at the next character and calls the reader of the part
that starts with it; each of these has the outcome of the one over characters. -/
theorem run_readPart (n : Node) (c : Cursor) :
    (readPart n).run (ofCursor c) = some (ofResult (Node.readPart n c)) := by
  have hlist := run_readAttributes c
  have htext := run_readText c
  have hrepeat := run_readRepeat c
  rw [readPart, run_bind (run_peek c), Cursor.peek]
  fun_cases Node.readPart n c with
  | case1 hrest =>
      rw [hrest]
      rfl
  -- Behind `.` and `#`, a name is taken.
  | case2 tail hrest name =>
      rw [hrest]
      show (advance >>= _).run _ = _
      rw [run_bind (run_advance c)]
      exact run_bind (run_consumeWhile _ c.advance)
  | case3 tail hrest name =>
      rw [hrest]
      show (advance >>= _).run _ = _
      rw [run_bind (run_advance c)]
      exact run_bind (run_consumeWhile _ c.advance)
  | case4 tail hrest =>
      rw [hrest]
      exact run_readSlash n c
  -- An attribute list, a payload or a repeat may fail, be missing or be there.
  | case5 tail hrest failure hread =>
      rw [hread] at hlist
      rw [hrest]
      exact run_bind_error hlist
  | case6 tail hrest c₁ hread =>
      rw [hread] at hlist
      rw [hrest]
      exact run_bind hlist
  | case7 tail hrest list c₁ hread =>
      rw [hread] at hlist
      rw [hrest]
      exact run_bind hlist
  | case8 tail hrest failure hread =>
      rw [hread] at htext
      rw [hrest]
      exact run_bind_error htext
  | case9 tail hrest c₁ hread =>
      rw [hread] at htext
      rw [hrest]
      exact run_bind htext
  | case10 tail hrest text c₁ hread =>
      rw [hread] at htext
      rw [hrest]
      exact run_bind htext
  | case11 tail hrest c₁ hread =>
      rw [hread] at hrepeat
      rw [hrest]
      exact run_bind hrepeat
  | case12 tail hrest r c₁ hread =>
      rw [hread] at hrepeat
      rw [hrest]
      exact run_bind hrepeat
  -- Any other character starts the name of the element, if there can be one.
  | case13 x tail hdot hhash hslash hlist htext hstar hrest hname name =>
      simp only [hrest, List.head?_cons, hname, if_true]
      exact run_bind (run_consumeWhile _ c)
  | case14 x tail hdot hhash hslash hlist htext hstar hrest hname =>
      simp only [hrest, List.head?_cons, hname]
      rfl

theorem run_readParts (n : Node) (c : Cursor) :
    (readParts n).run (ofCursor c) = some (ofResult (Node.readParts n c)) := by
  have hpart := run_readPart n c
  fun_induction Node.readParts n c with
  | case1 n c failure hread =>
      rw [hread] at hpart
      exact run_loop_error (run_bind_error hpart)
  | case2 n c c₁ hread =>
      rw [Node.eq_of_readPart_absent hread] at hread
      rw [hread] at hpart
      exact run_loop_done (run_bind hpart)
  | case3 n c n₁ c₁ hread =>
      rw [hread] at hpart
      exact run_loop_done (run_bind hpart)
  | case4 n c n₁ c₁ hread ih =>
      rw [hread] at hpart
      exact (run_loop_next (run_bind hpart)).trans (ih (run_readPart n₁ c₁))

theorem run_readElement (c : Cursor) :
    readElement.run (ofCursor c) = some (ofResult (Node.read c)) := by
  rw [readElement, run_bind (run_pos c), Node.read_eq_readParts]
  refine run_bind_ofResult (run_readParts {} c) fun n c' _ => ?_
  rw [run_bind (run_pos c')]
  split
  · exact run_bind (run_peek c')
  · rfl

/-! ### Items and abbreviations -/

/-- Reads as many `^` as there are, behind those that were counted. -/
noncomputable def countClimbs (levels : Nat) : Scan Nat :=
  loop (fun levels => do
    if ← eat (· == '^') then return .inl (levels + 1) else return .inr levels) levels

/-- Reads the operator behind an element. -/
noncomputable def readJoint : Scan Joint := do
  match ← peek with
  | some '+' =>
    let _ ← advance
    return .beside
  | some '>' =>
    let _ ← advance
    return .inside
  | some '^' => return .up (← countClimbs 0)
  | _ => return .beside

/-- Reads one item. -/
noncomputable def readItem : Scan Item := do
  match ← peek with
  | some '(' =>
    let _ ← advance
    return .groupStart
  | some ')' =>
    let _ ← advance
    let repeats ← readRepeat
    let _ ← eat (· == '+')
    return .groupEnd repeats
  | _ =>
    let node ← readElement
    return .element node (← readJoint)

theorem run_countClimbs (levels : Nat) (c : Cursor) :
    (countClimbs levels).run (ofCursor c) =
      some (.ok (levels + (c.run (· == '^')).1.length), ofCursor (c.run (· == '^')).2) := by
  obtain ⟨before, rest, mark⟩ := c
  induction rest generalizing before levels with
  | nil => exact run_loop_done (run_bind (run_eat _ _))
  | cons x rest ih =>
      have heat := run_eat (· == '^') ⟨before, x :: rest, mark⟩
      by_cases hx : x = '^'
      · subst hx
        refine (run_loop_next (run_bind heat)).trans ((ih (levels + 1) ('^' :: before)).trans ?_)
        simp only [Cursor.run, Cursor.past, List.takeWhile_cons, List.dropWhile_cons, beq_self_eq_true,
          if_true, List.length_cons, List.reverse_cons, List.append_assoc, List.singleton_append]
        rw [Nat.add_right_comm, Nat.add_assoc]
      · simp only [Cursor.eat?, beq_iff_eq, hx] at heat
        refine (run_loop_done (run_bind heat)).trans ?_
        simp [Cursor.run, Cursor.past, hx]

theorem run_readJoint (c : Cursor) :
    readJoint.run (ofCursor c) = some (.ok (Joint.read c).1, ofCursor (Joint.read c).2) := by
  rw [readJoint, run_bind (run_peek c), Cursor.peek]
  fun_cases Joint.read c with
  | case1 tail hrest =>
      rw [hrest]
      exact run_bind (run_advance c)
  | case2 tail hrest =>
      rw [hrest]
      exact run_bind (run_advance c)
  | case3 tail hrest climbs =>
      rw [hrest]
      refine (run_bind (run_countClimbs 0 c)).trans ?_
      rw [Nat.zero_add]
      rfl
  | case4 hplus hinside hclimb =>
      cases hrest : c.rest with
      | nil => rfl
      | cons x rest =>
          have hx : ∀ y, (∀ tail, c.rest = y :: tail → False) → x ≠ y := by
            rintro y hy rfl
            exact hy rest hrest
          simp [hx '+' hplus, hx '>' hinside, hx '^' hclimb]

theorem run_readItem (c : Cursor) :
    readItem.run (ofCursor c) = some (ofResult (Item.read c)) := by
  rw [readItem, run_bind (run_peek c), Cursor.peek]
  fun_cases Item.read c with
  | case1 tail hrest =>
      rw [hrest]
      exact run_bind (run_advance c)
  | case2 tail hrest =>
      rw [hrest]
      show (advance >>= _).run _ = _
      rw [run_bind (run_advance c), run_bind (run_readRepeat _), run_bind (run_eat _ _)]
      rfl
  | case3 hstart hend =>
      have helement : (readElement >>= fun node => readJoint >>= fun joint =>
          return .element node joint : Scan Item).run (ofCursor c) =
            some (ofResult (Node.read c >>= fun found =>
              .ok (.element found.1 (Joint.read found.2).1, (Joint.read found.2).2))) :=
        run_bind_ofResult (run_readElement c) fun node c₁ _ => run_bind (run_readJoint c₁)
      cases hrest : c.rest with
      | nil => exact helement
      | cons x rest =>
          have hx : ∀ y, (∀ tail, c.rest = y :: tail → False) → x ≠ y := by
            rintro y hy rfl
            exact hy rest hrest
          rw [List.head?_cons]
          split
          · next heq => exact absurd (Option.some.inj heq) (hx '(' hstart)
          · next heq => exact absurd (Option.some.inj heq) (hx ')' hend)
          · exact helement

/-! ### Parsing -/

/-- The cursor at the place, without a token. -/
def here : Scan Cursor := do
  let s ← get
  let (before, rest) ← ofOption (splitAtByteFrom [] s.pos s.source)
  return { before := before.reverse, rest }

/-- Ends with the tree of a builder, unless a group is open. -/
def conclude (b : Builder) : Scan Tree :=
  match b.finish with
  | .ok t => return t
  | .error fault => throw fault

/-- Reads one more item into the tree, or ends with it. -/
noncomputable def parseStep (b : Builder) : Scan (Builder ⊕ Tree) := do
  match ← peek with
  | none => return .inr (← conclude b)
  | some _ =>
    let c ← here
    let item ← readItem
    match b.add? c item with
    | none => failAt .strayGroupEnd c.pos
    | some b => return .inl b

/-- Reads the remaining items into the tree. -/
noncomputable def parseFrom (b : Builder) : Scan Tree :=
  loop parseStep b

theorem run_here (c : Cursor) : here.run (ofCursor c) = some (.ok c.plain, ofCursor c) := by
  have hsplit : splitAtByteFrom [] c.pos c.source = some (c.before.reverse, c.rest) := by
    rw [Cursor.pos, ← byteLength_reverse, Cursor.source, splitAtByteFrom_append]
    rfl
  show (ofOption (splitAtByteFrom [] c.pos c.source) >>= _).run _ = _
  rw [hsplit, run_bind (run_ofOption _ _)]
  show some (Except.ok (Cursor.mk c.before.reverse.reverse c.rest []), ofCursor c) = _
  rw [List.reverse_reverse]
  rfl

theorem run_conclude (b : Builder) (s : Scanner) : (conclude b).run s = some (b.finish, s) := by
  unfold conclude
  cases b.finish <;> rfl

theorem run_parseStep (b : Builder) {c : Cursor} (h : ¬c.atEnd) :
    (parseStep b).run (ofCursor c) = (readItem >>= fun item => match b.add? c.plain item with
      | none => failAt .strayGroupEnd c.pos
      | some b => return .inl b).run (ofCursor c) := by
  obtain ⟨x, rest, hrest⟩ : ∃ x rest, c.rest = x :: rest :=
    List.exists_cons_of_ne_nil (by simpa [Cursor.atEnd] using h)
  rw [parseStep, run_bind (run_peek c), Cursor.peek, hrest]
  exact run_bind (run_here c)

theorem run_parseFrom_end (b : Builder) {c : Cursor} (h : c.atEnd) :
    (parseFrom b).run (ofCursor c) = some (b.finish, ofCursor c) := by
  have hpeek : c.peek = none := by simpa [Cursor.atEnd, Cursor.peek] using h
  have hstep : (parseStep b).run (ofCursor c) =
      (conclude b >>= fun t => return .inr t).run (ofCursor c) := by
    rw [parseStep, run_bind (run_peek c), hpeek]
  have hconclude := run_conclude b (ofCursor c)
  cases hfinish : b.finish with
  | ok t =>
      rw [hfinish] at hconclude
      exact run_loop_done (hstep.trans (run_bind hconclude))
  | error fault =>
      rw [hfinish] at hconclude
      exact run_loop_error (hstep.trans (run_bind_error hconclude))

/-- **Parsing by byte offsets is parsing.** -/
theorem run_parseFrom (b : Builder) (c : Cursor) : ∃ c', c.Ahead c' ∧
    (parseFrom b.plain).run (ofCursor c) = some (b.run c, ofCursor c') := by
  have hitem := run_readItem c
  fun_induction Builder.run b c with
  | case1 b c hend =>
      refine ⟨c, .refl c, ?_⟩
      rw [run_parseFrom_end _ hend, Builder.finish_plain]
  | case2 b c hend failure hread =>
      rw [hread] at hitem
      have hshows := Item.shows_of_read hread (by simpa [Cursor.atEnd] using hend)
      refine ⟨failure.cursor, hshows.ahead, ?_⟩
      exact run_loop_error ((run_parseStep _ hend).trans (run_bind_error hitem))
  | case3 b c hend item c₁ hread hadd =>
      rw [hread] at hitem
      have hahead := (Item.passes_read hread).ahead
      refine ⟨c₁, hahead, run_loop_error ?_⟩
      rw [run_parseStep _ hend, run_bind hitem, Builder.add?_plain, hadd, Cursor.fault,
        Cursor.faultAt, ← hahead.source_eq]
      rfl
  | case4 b c hend item c₁ hread b' hadd ih =>
      rw [hread] at hitem
      obtain ⟨c', hahead, hrun⟩ := ih (run_readItem c₁)
      refine ⟨c', (Item.passes_read hread).ahead.trans hahead, ?_⟩
      refine (run_loop_next ?_).trans hrun
      rw [run_parseStep _ hend, run_bind hitem, Builder.add?_plain, hadd]
      rfl

/-- Parses an abbreviation, white space around it apart. -/
noncomputable def parse (source : String) : Option (Except Fault Tree × Scanner) :=
  (parseFrom Builder.start).run { source := trim source.toList, pos := 0, start := 0 }

end Scan

end Shorthand
