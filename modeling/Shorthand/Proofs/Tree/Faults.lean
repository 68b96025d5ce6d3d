import Shorthand.Proofs.Forest.Loose
import Shorthand.Proofs.Reader.Refusals
import Shorthand.Proofs.Tree.Listing

/-!
# Faults of abbreviations

An abbreviation that cannot be parsed is refused with a fault that points at what it names. Most
faults are refusals of a reader, which show where they say (`Failure.Shows`). The other two have to
do with groups: a `)` that closes no group, and a `(` that no `)` closes.

Which groups are open is said on the items that were read so far (`Item.Opened`): between the starts
of the groups that are open stand items whose groups match. Parentheses in a text or in a literal
are not items, so they do not count.
-/

namespace Shorthand

open Text

/-! ### Open groups -/

namespace Item

/-- Is the group that is `depth` groups further out closed by one of the items? -/
def isClosed : (depth : Nat) → List Item → Bool
  | _, [] => false
  | depth, .groupStart :: items => isClosed (depth + 1) items
  | depth, .element _ _ :: items => isClosed depth items
  | 0, .groupEnd _ :: _ => true
  | depth + 1, .groupEnd _ :: items => isClosed depth items

/-- The groups that are open behind some items, by the places where they start, innermost first. -/
inductive Opened : List (Nat × Item) → List Nat → Prop where
  | none {items : List (Nat × Item)} (h : Matched (items.map Prod.snd)) : Opened items []
  | group {items inner : List (Nat × Item)} {starts : List Nat} (h : Opened items starts) (pos : Nat)
      (hinner : Matched (inner.map Prod.snd)) :
      Opened (items ++ (pos, .groupStart) :: inner) (pos :: starts)

/-- Items whose groups match close no group around them. -/
theorem Matched.isClosed_append {items : List Item} (h : Matched items) (depth : Nat)
    (more : List Item) : isClosed depth (items ++ more) = isClosed depth more := by
  induction h generalizing depth more with
  | nil => rfl
  | element node joint _ ih => exact ih depth more
  | @group inner items _ repeats _ ihinner ih =>
      rw [List.cons_append, isClosed, List.append_assoc, ihinner, List.cons_append, isClosed, ih]

namespace Opened

variable {items : List (Nat × Item)} {starts : List Nat}

theorem append (h : Opened items starts) {more : List (Nat × Item)}
    (hmore : Matched (more.map Prod.snd)) : Opened (items ++ more) starts := by
  cases h with
  | none h =>
      refine .none ?_
      rw [List.map_append]
      exact h.append hmore
  | group h pos hinner =>
      rw [List.append_assoc, List.cons_append]
      refine .group h pos ?_
      rw [List.map_append]
      exact hinner.append hmore

theorem element (h : Opened items starts) (pos : Nat) (node : Node) (joint : Joint) :
    Opened (items ++ [(pos, .element node joint)]) starts :=
  h.append (.element node joint .nil)

theorem groupStart (h : Opened items starts) (pos : Nat) :
    Opened (items ++ [(pos, .groupStart)]) (pos :: starts) :=
  .group h pos .nil

/-- The end of a group closes the innermost one. -/
theorem groupEnd {start : Nat} (h : Opened items (start :: starts)) (pos : Nat)
    (repeats : Option Repeat) : Opened (items ++ [(pos, .groupEnd repeats)]) starts := by
  cases h with
  | @group outer inner starts h start hinner =>
      rw [List.append_assoc]
      refine h.append ?_
      simpa using Matched.group hinner repeats .nil

/-- Each open group is one more to be closed before a group around all of them is. -/
theorem isClosed_append (h : Opened items starts) (depth : Nat) (more : List Item) :
    isClosed depth (items.map Prod.snd ++ more) = isClosed (depth + starts.length) more := by
  induction h generalizing more with
  | none h => exact h.isClosed_append depth more
  | group _ pos hinner ih =>
      rw [List.map_append, List.append_assoc, ih, List.map_cons, List.cons_append, isClosed,
        hinner.isClosed_append, List.length_cons, Nat.add_assoc]

/-- The outermost open group has no open group in front of it, and all others behind its start. -/
theorem outermost (h : Opened items starts) {pos : Nat} (hpos : starts.getLast? = some pos) :
    ∃ front back, items = front ++ (pos, .groupStart) :: back ∧ Matched (front.map Prod.snd) ∧
      Opened back starts.dropLast := by
  induction h with
  | none => simp at hpos
  | @group items inner starts h start hinner ih =>
      cases h with
      | none hitems =>
          obtain rfl : start = pos := by simpa using hpos
          exact ⟨items, inner, rfl, hitems, .none hinner⟩
      | @group items' inner' starts' h' start' hinner' =>
          rw [List.getLast?_cons_cons] at hpos
          obtain ⟨front, back, hsplit, hfront, hback⟩ := ih hpos
          refine ⟨front, back ++ (start, .groupStart) :: inner, ?_, hfront, ?_⟩
          · rw [hsplit, List.append_assoc, List.cons_append]
          · exact .group hback start hinner

/-- Nothing behind the start of an open group closes it. -/
theorem not_isClosed (h : Opened items starts) : isClosed 0 (items.map Prod.snd) = false := by
  have hend := h.isClosed_append 0 []
  rwa [List.append_nil] at hend

end Opened

theorem head_of_read_groupStart {c c' : Cursor} (h : read c = .ok (.groupStart, c')) :
    c.rest.head? = some '(' := by
  simp only [read, bind, Except.bind, pure, Except.pure] at h
  split at h
  · next hrest => simp [hrest]
  · simp [readGroupEnd] at h
  · split at h <;> simp at h

theorem head_of_read_groupEnd {c c' : Cursor} {repeats : Option Repeat}
    (h : read c = .ok (.groupEnd repeats, c')) : c.rest.head? = some ')' := by
  simp only [read, bind, Except.bind, pure, Except.pure] at h
  split at h
  · simp at h
  · next hrest => simp [hrest]
  · split at h <;> simp at h

end Item

/-! ### Runs that fail -/

/-- The fault points at what it names, where `rest` is what stands behind its offset and `items` are
all items of the text, each with its place. -/
def Fault.PointsAt (fault : Fault) (items : List (Nat × Item)) (rest : List Char) : Prop :=
  match fault.cause with
  | .strayGroupEnd => rest.head? = some ')' ∧ ∃ front repeats back,
      items = front ++ (fault.offset, .groupEnd repeats) :: back ∧ Item.Matched (front.map Prod.snd)
  | .openGroup => rest.head? = some '(' ∧ ∃ front back,
      items = front ++ (fault.offset, .groupStart) :: back ∧ Item.Matched (front.map Prod.snd) ∧
        Item.isClosed 0 (back.map Prod.snd) = false
  | cause => cause.Fits rest

/-- The fault is about the text, and points at what it names at a place between two characters. -/
def Fault.Locates (fault : Fault) (items : List (Nat × Item)) (text : List Char) : Prop :=
  fault.input = String.ofList text ∧
    ∃ before rest, text = before ++ rest ∧ fault.offset = byteLength before ∧
      fault.PointsAt items rest

theorem Cause.Fits.pointsAt {fault : Fault} {rest : List Char} (h : fault.cause.Fits rest)
    (items : List (Nat × Item)) : fault.PointsAt items rest := by
  unfold Fault.PointsAt
  split
  · next hcause => simp [hcause, Cause.Fits] at h
  · next hcause => simp [hcause, Cause.Fits] at h
  · exact h

/-- The refusal of a reader is a fault that points at what it names. -/
theorem Failure.Shows.locates {failure : Failure} {c : Cursor} (h : failure.Shows c)
    (items : List (Nat × Item)) : failure.fault.Locates items c.source := by
  obtain ⟨before, rest, hsplit, hoffset, hfits⟩ := h.place
  refine ⟨?_, before, rest, hsplit, hoffset, hfits.pointsAt items⟩
  rw [Failure.fault, Cursor.faultAt, h.ahead.source_eq]

/-- A fault that is raised at a cursor. -/
theorem Cursor.locates_fault {c : Cursor} {cause : Cause} {items : List (Nat × Item)}
    (h : (c.fault cause).PointsAt items c.rest) : (c.fault cause).Locates items c.source :=
  ⟨rfl, c.before.reverse, c.rest, rfl, by simp [Cursor.fault, Cursor.faultAt, Cursor.pos], h⟩

namespace Builder

/-- The items have been read of the text, and the groups they leave open are those of the builder. -/
structure HasRead (b : Builder) (text : List Char) (items : List (Nat × Item)) : Prop where
  opened : Item.Opened items (b.groups.map fun group => group.start.pos)
  start : ∀ group ∈ b.groups, group.start.source = text ∧ group.start.rest.head? = some '('

variable {b b' : Builder} {items : List (Nat × Item)} {c c' : Cursor} {item : Item} {fault : Fault}

theorem HasRead.add? (h : b.HasRead c.source items) (hread : Item.read c = .ok (item, c'))
    (hadd : b.add? c item = some b') : b'.HasRead c.source (items ++ [(c.pos, item)]) := by
  obtain ⟨tree, context, groups⟩ := b
  obtain ⟨hopened, hstart⟩ := h
  cases item with
  | groupStart =>
      cases hadd
      refine ⟨hopened.groupStart c.pos, List.forall_mem_cons.2 ⟨⟨rfl, ?_⟩, hstart⟩⟩
      exact Item.head_of_read_groupStart hread
  | element node joint =>
      cases hadd
      exact ⟨hopened.element c.pos node joint, hstart⟩
  | groupEnd repeats =>
      cases groups with
      | nil => cases hadd
      | cons group groups =>
          cases hadd
          exact ⟨hopened.groupEnd c.pos repeats, (List.forall_mem_cons.1 hstart).2⟩

/-- A group is only closed if one is open. -/
theorem HasRead.add?_none {text : List Char} (h : b.HasRead text items) (hadd : b.add? c item = none) :
    Item.Matched (items.map Prod.snd) ∧ ∃ repeats, item = .groupEnd repeats := by
  obtain ⟨tree, context, groups⟩ := b
  cases item with
  | groupStart => cases hadd
  | element node joint => cases hadd
  | groupEnd repeats =>
      cases groups with
      | cons group groups => cases hadd
      | nil =>
          cases h.opened with
          | none hmatched => exact ⟨hmatched, repeats, rfl⟩

/-- At the end, the outermost open group is to blame. -/
theorem HasRead.finish {text : List Char} (h : b.HasRead text items)
    (hfinish : b.finish = .error fault) : fault.Locates items text := by
  unfold Builder.finish at hfinish
  split at hfinish
  · simp at hfinish
  · next group hlast =>
    obtain rfl := Except.error.inj hfinish
    obtain ⟨rfl, hhead⟩ := h.start group (List.mem_of_getLast? hlast)
    have hpos : (b.groups.map fun group => group.start.pos).getLast? = some group.start.pos := by
      rw [List.getLast?_map, hlast]
      rfl
    obtain ⟨front, back, hitems, hfront, hback⟩ := h.opened.outermost hpos
    exact Cursor.locates_fault ⟨hhead, front, back, hitems, hfront, hback.not_isClosed⟩

/-- **A run that fails** gives a fault that points at what it names. All items have been read if it is
an open group. -/
theorem locates_of_run (b : Builder) (c : Cursor) (h : b.HasRead c.source items)
    (hrun : b.run c = .error fault) : fault.Locates (items ++ Item.placed c) c.source ∧
      (fault.cause = .openGroup → Item.ReadsAs c ((Item.placed c).map Prod.snd)) := by
  fun_induction Builder.run b c generalizing items with
  | case1 b c hend =>
      have hplaced : Item.placed c = [] := by rw [Item.placed, if_pos hend]
      rw [hplaced, List.append_nil]
      exact ⟨h.finish hrun, fun _ => .done hend⟩
  | case2 b c hend failure hread =>
      -- What is next is no item. The reader knows why, and it is never an open group.
      obtain rfl := Except.error.inj hrun
      have hshows := Item.shows_of_read hread (by simpa [Cursor.atEnd] using hend)
      refine ⟨hshows.locates _, fun hcause => ?_⟩
      obtain ⟨before, rest, -, -, hfits⟩ := hshows.place
      have hcause : failure.cause = .openGroup := hcause
      simp [hcause, Cause.Fits] at hfits
  | case3 b c hend item c' hread hadd =>
      -- Only a `)` cannot be added, if all groups in front of it are closed.
      obtain rfl := Except.error.inj hrun
      obtain ⟨hmatched, repeats, rfl⟩ := h.add?_none hadd
      refine ⟨Cursor.locates_fault ⟨Item.head_of_read_groupEnd hread, items, repeats,
        Item.placed c', ?_, hmatched⟩, by simp [Cursor.fault, Cursor.faultAt]⟩
      rw [Item.placed_next hend hread]
      rfl
  | case4 b c hend item c' hread b' hadd ih =>
      have hsource := (Item.passes_read hread).ahead.source_eq
      have hnext := h.add? hread hadd
      rw [← hsource] at hnext
      obtain ⟨hlocates, hreads⟩ := ih hnext hrun
      rw [hsource, List.append_assoc] at hlocates
      rw [Item.placed_next hend hread]
      exact ⟨hlocates, fun hcause => .next hend hread (hreads hcause)⟩

end Builder

/-- **A fault points at what it names.** It holds the text without the white space around it, and
its offset is a place between two characters of that text. Something that is missing shows at the
end. The other causes show at the character to blame: for a `)` every group that was started in
front of it is closed, and for a `(` all items have been read, nothing behind it closes it, and all
groups in front of it are closed, so that it is the leftmost open group and no other one is around
it. -/
theorem Tree.locates_of_parse {source : String} {fault : Fault}
    (h : Tree.parse source = .error fault) :
    let text := trim source.toList
    let items := Item.placed (Cursor.ofList text)
    fault.Locates items text ∧
      (fault.cause = .openGroup → Item.readAll (Cursor.ofList text) = .ok (items.map Prod.snd)) := by
  intro text items
  have hstart : Builder.start.HasRead (Cursor.ofList text).source [] :=
    ⟨.none .nil, by simp [Builder.start]⟩
  obtain ⟨hlocates, hreads⟩ := Builder.start.locates_of_run _ hstart h
  exact ⟨hlocates, fun hcause => (hreads hcause).readAllFrom_eq []⟩

/-- The group at offset 2 is to blame, not the inner one at offset 5, which is open as well: the `(`
in the literal is no group, and the only `)` closes the innermost one. -/
theorem Tree.locates_of_parse_nested :
    Tree.parse " x+(a>(b[c='(']>(d)" = .error ⟨.openGroup, 2, "x+(a>(b[c='(']>(d)"⟩ ∧
      ∃ front back,
        Item.placed (Cursor.ofString "x+(a>(b[c='(']>(d)") = front ++ (2, .groupStart) :: back ∧
          Item.Matched (front.map Prod.snd) ∧ Item.isClosed 0 (back.map Prod.snd) = false := by
  have h : Tree.parse " x+(a>(b[c='(']>(d)" = .error ⟨.openGroup, 2, "x+(a>(b[c='(']>(d)"⟩ := by
    decide +kernel
  obtain ⟨⟨-, before, rest, -, -, -, hpoints⟩, -⟩ := Tree.locates_of_parse h
  exact ⟨h, hpoints⟩

end Shorthand
