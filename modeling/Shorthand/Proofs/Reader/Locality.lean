import Shorthand.Proofs.Reader.Passes

/-!
# Items in front of more text

Outside of lists and payloads, the end of a group stops the same readers as the end of the text. So
the parts of an element, the operator behind it and the end of a group are read in front of a `)` as
they are at the end of a text, and with them all items of an abbreviation (`Item.ReadsAs.append`).
Each item that is read leaves the cursor further on (`Item.pos_lt_of_read`).
-/

namespace Shorthand

open Text Cursor

/-! ### Elements -/

namespace Node

/-- A name behind its mark `x`. -/
theorem passes_marked {n : Node} {p : Part} {c c' : Cursor} {x : Char} (part : List Char → Part)
    (hreader : ∀ d : Cursor, d.rest.head? = some x → readPart n d =
      .ok (part (d.advance.takeRun isNameChar).1, (d.advance.takeRun isNameChar).2))
    (hx : c.rest.head? = some x) (h : readPart n c = .ok (p, c')) :
    Passes (readPart n) ForestEnd c p c' := by
  rw [hreader c hx] at h
  simp only [Except.ok.injEq, Prod.mk.injEq] at h
  obtain ⟨rfl, rfl⟩ := h
  have hname := (passes_takeRun isNameChar c.advance).weaken (F := ForestEnd)
    fun tail htail => htail.stops (by decide)
  refine Passes.char (fun d => .ok (part (d.takeRun isNameChar).1, (d.takeRun isNameChar).2)) hx
    (hname.map _ fun d d' hd => ?_) hreader
  simp only [Except.ok.injEq] at hd ⊢
  simp [hd]

theorem passes_class {n : Node} {part : Part} {c c' : Cursor} (hx : c.rest.head? = some '.')
    (h : readPart n c = .ok (part, c')) : Passes (readPart n) ForestEnd c part c' := by
  refine passes_marked (fun name => .more (n.addClass (String.ofList name))) (fun d hd => ?_) hx h
  obtain ⟨rest, hrest⟩ := List.head?_eq_some_iff.1 hd
  simp [readPart, hrest]

theorem passes_id {n : Node} {part : Part} {c c' : Cursor} (hx : c.rest.head? = some '#')
    (h : readPart n c = .ok (part, c')) : Passes (readPart n) ForestEnd c part c' := by
  refine passes_marked (fun name =>
    .more (n.setAttribute (Attribute.named "id" (String.ofList name)))) (fun d hd => ?_) hx h
  obtain ⟨rest, hrest⟩ := List.head?_eq_some_iff.1 hd
  simp [readPart, hrest]

theorem readPart_closed {n : Node} (hgroup : n.isGroup = false) {c : Cursor}
    (hx : c.rest.head? = some '/') : readPart n c =
      .ok (.last (n.closed (Repeat.read c.advance).1), (Repeat.read c.advance).2) := by
  obtain ⟨rest, hrest⟩ := List.head?_eq_some_iff.1 hx
  simp only [readPart, hrest, readSlash, hgroup, Bool.false_eq_true, if_false]
  obtain ⟨repeats, c₁⟩ := Repeat.read c.advance
  cases repeats <;> rfl

theorem passes_slash {n : Node} {part : Part} {c c' : Cursor} (hx : c.rest.head? = some '/')
    (h : readPart n c = .ok (part, c')) : Passes (readPart n) ForestEnd c part c' := by
  cases hgroup : n.isGroup with
  | true =>
      obtain ⟨rest, hrest⟩ := List.head?_eq_some_iff.1 hx
      simp [readPart, hrest, readSlash, hgroup, Cursor.fail] at h
  | false =>
      rw [readPart_closed hgroup hx] at h
      simp only [Except.ok.injEq, Prod.mk.injEq] at h
      obtain ⟨rfl, rfl⟩ := h
      refine Passes.char (fun d => .ok (.last (n.closed (Repeat.read d).1), (Repeat.read d).2)) hx
        ((Repeat.passes_read c.advance).map _ fun d d' hd => ?_) fun d hd => readPart_closed hgroup hd
      simp only [Except.ok.injEq] at hd ⊢
      simp [hd]

theorem passes_list {n : Node} {part : Part} {c c' : Cursor} (hx : c.rest.head? = some '[')
    (h : readPart n c = .ok (part, c')) : Passes (readPart n) ForestEnd c part c' := by
  obtain ⟨rest, hrest⟩ := List.head?_eq_some_iff.1 hx
  simp only [readPart, hrest] at h
  split at h
  · simp at h
  · next hlist =>
    have heat : c.eat? (· == '[') = some c.advance := eat?_of_head hx (by decide)
    simp only [Attribute.readList, heat, bind, Except.bind, pure, Except.pure] at hlist
    split at hlist <;> simp at hlist
  · next list c₁ hlist =>
    simp only [Except.ok.injEq, Prod.mk.injEq] at h
    obtain ⟨rfl, rfl⟩ := h
    refine ((Attribute.passes_readList hlist).weaken fun _ _ => trivial).guarded
      (S := fun cs => cs.head? = some '[') (fun tail _ => by simp [hx]) _ fun d d' hd hlist' => ?_
    obtain ⟨ds, hds⟩ := List.head?_eq_some_iff.1 hd
    simp only [readPart, hds, hlist']

theorem passes_text {n : Node} {part : Part} {c c' : Cursor} (hx : c.rest.head? = some '\x7b')
    (h : readPart n c = .ok (part, c')) : Passes (readPart n) ForestEnd c part c' := by
  obtain ⟨rest, hrest⟩ := List.head?_eq_some_iff.1 hx
  simp only [readPart, hrest] at h
  split at h
  · simp at h
  · next hpay => exact absurd (Payload.stops_of_read hpay _ hx) (by decide)
  · next text c₁ hpay =>
    simp only [Except.ok.injEq, Prod.mk.injEq] at h
    obtain ⟨rfl, rfl⟩ := h
    refine ((Payload.passes_read hpay).weaken fun _ _ => trivial).guarded
      (S := fun cs => cs.head? = some '\x7b') (fun tail _ => by simp [hx]) _ fun d d' hd hpay' => ?_
    obtain ⟨ds, hds⟩ := List.head?_eq_some_iff.1 hd
    simp only [readPart, hds, hpay']

theorem passes_repeat {n : Node} {part : Part} {c c' : Cursor} (hx : c.rest.head? = some '*')
    (h : readPart n c = .ok (part, c')) : Passes (readPart n) ForestEnd c part c' := by
  have hread : ∀ d : Cursor, d.rest.head? = some '*' → readPart n d =
      .ok (.more { n with repeats := (Repeat.read d).1 }, (Repeat.read d).2) := by
    intro d hd
    have heat : d.eat? (· == '*') = some d.advance := eat?_of_head hd (by decide)
    obtain ⟨rest, hrest⟩ := List.head?_eq_some_iff.1 hd
    simp [readPart, hrest, Repeat.read, heat]
  rw [hread c hx] at h
  simp only [Except.ok.injEq, Prod.mk.injEq] at h
  obtain ⟨rfl, rfl⟩ := h
  refine (Repeat.passes_read c).guarded (S := fun cs => cs.head? = some '*')
    (fun tail _ => by simp [hx]) _ fun d d' hd hrepeat => ?_
  simp only [Except.ok.injEq] at hrepeat
  simp [hread d hd, hrepeat]

/-- What starts with any other character is a name, or no part. -/
theorem readPart_other {n : Node} {c : Cursor} {x : Char} (hx : c.rest.head? = some x)
    (hother : x ∉ ['.', '#', '/', '[', '\x7b', '*']) : readPart n c =
      if isNameChar x && n.name.isNone && n.attributes.isEmpty then
        .ok (.more { n with name := some (String.ofList (c.takeRun isNameChar).1) },
          (c.takeRun isNameChar).2)
      else .ok (.absent, c) := by
  obtain ⟨rest, hrest⟩ := List.head?_eq_some_iff.1 hx
  simp only [List.mem_cons, List.not_mem_nil, or_false, not_or] at hother
  have hhead : ∀ {y : Char} {ys : List Char}, c.rest = y :: ys → x = y := by
    intro y ys hy
    simpa [hrest] using congrArg List.head? hy
  unfold readPart
  split
  · next hnil => simp [hnil] at hrest
  · next h => exact absurd (hhead h) hother.1
  · next h => exact absurd (hhead h) hother.2.1
  · next h => exact absurd (hhead h) hother.2.2.1
  · next h => exact absurd (hhead h) hother.2.2.2.1
  · next h => exact absurd (hhead h) hother.2.2.2.2.1
  · next h => exact absurd (hhead h) hother.2.2.2.2.2
  · next h => rw [hhead h]

theorem passes_other {n : Node} {part : Part} {c c' : Cursor} {x : Char}
    (hx : c.rest.head? = some x) (hother : x ∉ ['.', '#', '/', '[', '\x7b', '*'])
    (h : readPart n c = .ok (part, c')) : Passes (readPart n) ForestEnd c part c' := by
  have hhead : ∀ tail, c.rest ≠ [] ∨ ForestEnd tail → (c.rest ++ tail).head? = some x :=
    fun tail _ => by simp [hx]
  rw [readPart_other hx hother] at h
  split at h
  · next hname =>
    simp only [Except.ok.injEq, Prod.mk.injEq] at h
    obtain ⟨rfl, rfl⟩ := h
    have hrun := (passes_takeRun isNameChar c).weaken (F := ForestEnd)
      fun tail htail => htail.stops (by decide)
    refine hrun.guarded (S := fun cs => cs.head? = some x) hhead _ fun d d' hd htoken => ?_
    simp only [Except.ok.injEq] at htoken
    rw [readPart_other hd hother, if_pos hname, htoken]
  · next hname =>
    simp only [Except.ok.injEq, Prod.mk.injEq] at h
    obtain ⟨rfl, rfl⟩ := h
    refine passes_nothing fun tail htail d hd => ?_
    rw [readPart_other (by rw [hd]; exact hhead tail htail) hother, if_neg hname]

/-- **One part of an element** is read the same in front of more text. -/
theorem passes_readPart {n : Node} {part : Part} {c c' : Cursor} (h : readPart n c = .ok (part, c')) :
    Passes (readPart n) ForestEnd c part c' := by
  cases hrest : c.rest with
  | nil =>
      -- No part starts at the end of the text, and none in front of the `)` that may follow it.
      have hend : part = .absent ∧ c' = c := by simpa [readPart, hrest, eq_comm] using h
      obtain ⟨rfl, rfl⟩ := hend
      refine passes_nothing fun tail htail d hd => readPart_absent (fun x hx => ?_) n
      rw [hd, hrest, List.nil_append] at hx
      simp [htail.resolve_left (by simp [hrest]) x hx]
  | cons x rest =>
      have hx : c.rest.head? = some x := by simp [hrest]
      by_cases hother : x ∉ ['.', '#', '/', '[', '\x7b', '*']
      · exact passes_other hx hother h
      simp only [List.mem_cons, List.not_mem_nil, or_false, not_not] at hother
      rcases hother with rfl | rfl | rfl | rfl | rfl | rfl
      · exact passes_class hx h
      · exact passes_id hx h
      · exact passes_slash hx h
      · exact passes_list hx h
      · exact passes_text hx h
      · exact passes_repeat hx h

theorem passes_readParts {n n' : Node} {c c' : Cursor} (h : readParts n c = .ok (n', c')) :
    Passes (readParts n) ForestEnd c n' c' := by
  fun_induction readParts n c with
  | case1 => simp at h
  | case2 n c c₁ hpart =>
      simp only [Except.ok.injEq, Prod.mk.injEq] at h
      obtain ⟨rfl, rfl⟩ := h
      obtain rfl := eq_of_readPart_absent hpart
      refine (passes_readPart hpart).map _ fun d d' hd => ?_
      rw [readParts_eq, hd, eq_of_readPart_absent hd]
  | case3 n c n₁ c₁ hpart =>
      simp only [Except.ok.injEq, Prod.mk.injEq] at h
      obtain ⟨rfl, rfl⟩ := h
      refine (passes_readPart hpart).map _ fun d d' hd => ?_
      rw [readParts_eq, hd]
  | case4 n c n₁ c₁ hpart ih =>
      refine (passes_readPart hpart).bind (ih h) (fun _ => Or.inr) _ fun d d' hd => ?_
      rw [readParts_eq, hd]

theorem passes_read {n : Node} {c c' : Cursor} (h : read c = .ok (n, c')) :
    Passes read ForestEnd c n c' := by
  unfold read at h
  split at h
  · simp at h
  · simp [Cursor.fail] at h
  · next n₁ c₁ hpart =>
    simp only [Except.ok.injEq, Prod.mk.injEq] at h
    obtain ⟨rfl, rfl⟩ := h
    refine (passes_readPart hpart).map _ fun d d' hd => ?_
    rw [read, hd]
  · next n₁ c₁ hpart =>
    refine (passes_readPart hpart).bind (passes_readParts h) (fun _ => Or.inr) _ fun d d' hd => ?_
    rw [read, hd]

end Node

/-! ### Items -/

namespace Joint

/-- An operator of one character. -/
theorem passes_sign {c : Cursor} {x : Char} (joint : Joint)
    (hread : ∀ d : Cursor, d.rest.head? = some x → read d = (joint, d.advance))
    (hx : c.rest.head? = some x) :
    Passes (fun c => .ok (read c)) ForestEnd c (read c).1 (read c).2 := by
  rw [hread c hx]
  refine Passes.char (fun d => .ok (joint, d)) hx (passes_nothing fun _ _ _ _ => rfl) fun d hd => ?_
  rw [hread d hd]

theorem read_up {c : Cursor} (hx : c.rest.head? = some '^') :
    read c = (.up (c.run (· == '^')).1.length, (c.run (· == '^')).2) := by
  obtain ⟨rest, hrest⟩ := List.head?_eq_some_iff.1 hx
  simp [read, hrest]

/-- Elements without an operator between them stand beside each other. -/
theorem read_other {c : Cursor} (hother : ∀ x ∈ ['+', '>', '^'], c.rest.head? ≠ some x) :
    read c = (.beside, c) := by
  have hplus := hother '+' (by decide)
  have hinside := hother '>' (by decide)
  have hup := hother '^' (by decide)
  unfold read
  split <;> simp_all

/-- **The operator** behind an element is read the same in front of more text. -/
theorem passes_read (c : Cursor) :
    Passes (fun c => .ok (read c)) ForestEnd c (read c).1 (read c).2 := by
  by_cases hplus : c.rest.head? = some '+'
  · refine passes_sign .beside (fun d hd => ?_) hplus
    obtain ⟨rest, hd⟩ := List.head?_eq_some_iff.1 hd
    simp [read, hd]
  by_cases hinside : c.rest.head? = some '>'
  · refine passes_sign .inside (fun d hd => ?_) hinside
    obtain ⟨rest, hd⟩ := List.head?_eq_some_iff.1 hd
    simp [read, hd]
  by_cases hup : c.rest.head? = some '^'
  · rw [read_up hup]
    refine ((passes_run (· == '^') c).weaken fun tail htail => htail.stops (by decide)).guarded
      (S := fun cs => cs.head? = some '^') (fun tail _ => by simp [hup]) _ fun d d' hd hrun => ?_
    simp only [Except.ok.injEq] at hrun
    simp [read_up hd, hrun]
  · -- Here is no operator, and behind the end of the text only a `)` may follow, which is none.
    rw [read_other (c := c) (by simp [hplus, hinside, hup])]
    refine passes_nothing fun tail htail d hd => congrArg Except.ok (read_other fun x hx hhead => ?_)
    rw [hd] at hhead
    cases hrest : c.rest with
    | nil =>
        rw [hrest, List.nil_append] at hhead
        obtain rfl : x = ')' := htail.resolve_left (by simp [hrest]) x hhead
        exact absurd hx (by decide)
    | cons y rest =>
        obtain rfl : y = x := by simpa [hrest] using hhead
        simp only [List.mem_cons, List.not_mem_nil, or_false] at hx
        rcases hx with rfl | rfl | rfl <;> simp_all

end Joint

namespace Item

theorem passes_readGroupEnd (c : Cursor) :
    Passes (fun c => .ok (readGroupEnd c)) ForestEnd c (readGroupEnd c).1 (readGroupEnd c).2 := by
  have hplus : ∀ (repeats : Option Repeat) (c : Cursor),
      Passes (fun d => .ok (Item.groupEnd repeats, (d.eat? (· == '+')).getD d)) ForestEnd c
        (Item.groupEnd repeats) ((c.eat? (· == '+')).getD c) := by
    intro repeats c
    cases heat : c.eat? (· == '+') with
    | none =>
        refine passes_nothing fun tail htail d hd => ?_
        have hstop : Stops (· == '+') d.rest := by
          rw [hd]
          exact (stops_of_eat? heat).extend (htail.imp_right fun h => h.stops (by decide))
        simp [eat?_eq_none hstop]
    | some c₁ =>
        obtain ⟨⟨x, hx, hadd⟩, rfl⟩ := eat?_some heat
        refine Passes.char (fun d => .ok (.groupEnd repeats, d)) hx
          (passes_nothing fun _ _ _ _ => rfl) fun d hd => ?_
        have heat' : d.eat? (· == '+') = some d.advance := eat?_of_head hd hadd
        simp [heat']
  refine (Repeat.passes_read c).bind (hplus (Repeat.read c).1 (Repeat.read c).2) (fun _ => Or.inr) _
    fun d d' hd => ?_
  simp only [Except.ok.injEq] at hd
  simp [readGroupEnd, hd]

/-- **An item** is read the same in front of more text. -/
theorem passes_read {item : Item} {c c' : Cursor} (h : read c = .ok (item, c')) :
    Passes read ForestEnd c item c' := by
  unfold read at h
  split at h
  · next rest hrest =>
    simp only [Except.ok.injEq, Prod.mk.injEq] at h
    obtain ⟨rfl, rfl⟩ := h
    refine Passes.char (fun d => .ok (.groupStart, d)) (x := '(') (by simp [hrest])
      (passes_nothing fun _ _ _ _ => rfl) fun d hd => ?_
    obtain ⟨rest', hd⟩ := List.head?_eq_some_iff.1 hd
    simp [read, hd]
  · next rest hrest =>
    simp only [Except.ok.injEq] at h
    have hend := passes_readGroupEnd c.advance
    rw [h] at hend
    refine Passes.char _ (x := ')') (by simp [hrest]) hend fun d hd => ?_
    obtain ⟨rest', hd⟩ := List.head?_eq_some_iff.1 hd
    simp [read, hd]
  · simp only [bind, Except.bind, pure, Except.pure] at h
    split at h
    · simp at h
    · next v hnode =>
      simp only [Except.ok.injEq, Prod.mk.injEq] at h
      obtain ⟨rfl, rfl⟩ := h
      refine (Node.passes_read hnode).bind ((Joint.passes_read v.2).map (fun d =>
        .ok (.element v.1 (Joint.read d).1, (Joint.read d).2)) ?_) (fun _ => Or.inr) _ ?_
      · intro d d' hd
        simp only [Except.ok.injEq] at hd
        simp [hd]
      · exact fun d d' hd => read_element hd

/-- An item that was read leaves the cursor further on. -/
theorem pos_lt_of_read {item : Item} {c c' : Cursor} (h : read c = .ok (item, c')) : c.pos < c'.pos :=
  (passes_read h).pos_lt (length_rest_of_read h)

/-- **The items of an abbreviation** are read in front of the end of a group as they are at the end of
the text. -/
theorem ReadsAs.append {c : Cursor} {items more : List Item} (h : ReadsAs c items) {tail : List Char}
    (htail : ForestEnd tail) (hmore : ∀ d : Cursor, d.rest = tail → ReadsAs d more) {d : Cursor}
    (hd : d.rest = c.rest ++ tail) : ReadsAs d (items ++ more) := by
  induction h generalizing d with
  | @done c hend =>
      have hnil : c.rest = [] := by simpa [Cursor.atEnd] using hend
      exact hmore d (by simpa [hnil] using hd)
  | @next c c' item items hend hread rest ih =>
      obtain ⟨taken, hrest, -, hreads⟩ := passes_read hread
      obtain ⟨d', hread', hd'⟩ := hreads tail (Or.inr htail) d (by simpa [hrest] using hd)
      exact .of_read hread' (ih hd')

end Item

end Shorthand
