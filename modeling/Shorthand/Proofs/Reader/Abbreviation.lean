import Shorthand.Forest.Printer
import Shorthand.Proofs.Reader.Element

/-!
# Abbreviations are read where they were written

A forest is written as a sequence of items (`Forest.items`), and the items of `Forest.reread` are
what is read from its abbreviation. What items mean is their forest again, without its loose groups,
up to elements that are still open at the end: nothing closes the elements above the last branch.
-/

namespace Shorthand

mutual

/-- The items that a branch is written as. -/
def Branch.items : Branch → List Item
  | .mk node children =>
    if node.isGroup then .groupStart :: Forest.items children ++ [.groupEnd node.repeats]
    else if children.isEmpty then [.element node .beside]
    else .element node .inside :: Forest.items children

/-- The items that a forest is written as. -/
def Forest.items : List Branch → List Item
  | [] => []
  | [b] => b.items
  | b :: bs =>
    (if b.needsParens then .groupStart :: b.items ++ [.groupEnd none] else b.items) ++ Forest.items bs

end

/-! ### Single items -/

/-- What may follow a forest: the end of the group around it, or the end of the text. -/
def ForestEnd (tail : List Char) : Prop :=
  ∀ x, tail.head? = some x → x = ')'

namespace Item

theorem ReadsAs.of_read {c c' : Cursor} {item : Item} {items : List Item}
    (hread : Item.read c = .ok (item, c')) (h : ReadsAs c' items) : ReadsAs c (item :: items) := by
  refine .next ?_ hread h
  have hlt := length_rest_of_read hread
  intro hend
  rw [Cursor.atEnd, List.isEmpty_iff] at hend
  simp [hend] at hlt

theorem read_groupStart {c : Cursor} {rest : List Char} (hc : c.rest = '(' :: rest) :
    read c = .ok (.groupStart, c.advance) := by
  rw [read]
  simp [hc]

/-- Nothing that starts like a group is an element. -/
theorem read_element {c c' : Cursor} {node : Node} (h : Node.read c = .ok (node, c')) :
    read c = .ok (.element node (Joint.read c').1, (Joint.read c').2) := by
  rw [read]
  split
  · next hrest => simp [Node.read, Node.readPart, hrest, Node.isNameChar, Cursor.fail] at h
  · next hrest => simp [Node.read, Node.readPart, hrest, Node.isNameChar, Cursor.fail] at h
  · rw [h]
    rfl

end Item

/-- The `+` behind a branch that a sibling follows, and what may follow the last one. -/
inductive Separated : List Char → List Char → Prop where
  | last {tail : List Char} (h : ForestEnd tail) : Separated tail tail
  | plus (tail : List Char) : Separated ('+' :: tail) tail

namespace Separated

variable {text tail : List Char}

theorem elementEnd (h : Separated text tail) : Node.ElementEnd text := by
  intro x hx
  cases h with
  | last h => simp [h x hx]
  | plus =>
      obtain rfl : '+' = x := by simpa using hx
      simp

theorem eq_of_forestEnd (h : Separated text tail) (hend : ForestEnd text) : text = tail := by
  cases h with
  | last => rfl
  | plus => exact absurd (hend '+' rfl) (by decide)

theorem joint_read (h : Separated text tail) {c : Cursor} (hc : c.rest = text) :
    ∃ c', Joint.read c = (.beside, c') ∧ c'.rest = tail := by
  cases h with
  | plus => exact ⟨c.advance, by simp [Joint.read, hc], Cursor.rest_advance hc⟩
  | last hend =>
      refine ⟨c, ?_, hc⟩
      cases hrest : text with
      | nil => simp [Joint.read, hc, hrest]
      | cons x rest =>
          obtain rfl : x = ')' := hend x (by simp [hrest])
          simp [Joint.read, hc, hrest]

theorem eat?_plus (h : Separated text tail) {c : Cursor} (hc : c.rest = text) :
    ((c.eat? (· == '+')).getD c).rest = tail := by
  cases h with
  | plus => simp [Cursor.eat?, hc]
  | last hend =>
      have hstop : Text.Stops (· == '+') c.rest := by
        intro x hx
        rw [hc] at hx
        rw [hend x hx]
        decide
      rw [Cursor.eat?_eq_none hstop]
      exact hc

/-- The end of a group is read with the repeat and the `+` behind it. -/
theorem read_groupEnd (h : Separated text tail) {repeats : Option Repeat}
    (hrepeats : ∀ r, repeats = some r → r.WellFormed) (stamps : Bool) {c : Cursor}
    (hc : c.rest = ')' :: (Node.repeatPart stamps repeats ++ text)) :
    ∃ c', Item.read c = .ok (.groupEnd repeats, c') ∧ c'.rest = tail := by
  have hadvance := Cursor.rest_advance hc
  have hrepeat : (Repeat.read c.advance).1 = repeats ∧ (Repeat.read c.advance).2.rest = text := by
    cases repeats with
    | none =>
        have hnone : Repeat.read c.advance = (none, c.advance) := by
          refine Repeat.read_none ?_
          rw [hadvance]
          intro hstar
          exact absurd (h.elementEnd '*' hstar) (by decide)
        rw [hnone]
        exact ⟨rfl, hadvance⟩
    | some r =>
        refine Repeat.read_write (hrepeats r rfl) stamps ?_ hadvance
        exact h.elementEnd.stops.of_imp Node.isNameChar_of_isDigit
  refine ⟨_, ?_, h.eat?_plus hrepeat.2⟩
  rw [Item.read]
  simp only [hc, Item.readGroupEnd]
  rw [← hrepeat.1]

end Separated

/-! ### Texts and items -/

/-- As a node has to be to be read where it was written. -/
def Node.Readable (node : Node) : Prop :=
  node.WellFormed ∧ node.Legible

theorem Branch.toList_render_group {node : Node} (h : node.isGroup = true) (stamps : Bool)
    (children : Forest) :
    (Branch.render stamps (.mk node children)).toList =
      '(' :: ((Forest.render stamps children).toList ++
        ')' :: Node.repeatPart stamps node.repeats) := by
  rw [Branch.render, if_pos h]
  cases node.repeats with
  | none => simp [Node.repeatPart]
  | some r => simp [Node.repeatPart]

theorem Forest.items_cons_cons (b b' : Branch) (bs : Forest) :
    Forest.items (b :: b' :: bs) =
      (if b.needsParens then .groupStart :: b.items ++ [.groupEnd none] else b.items) ++
        Forest.items (b' :: bs) := by
  rw [Forest.items]
  simp

@[simp] theorem Branch.needsParens_reread (b : Branch) : b.reread.needsParens = b.needsParens := by
  obtain ⟨node, children⟩ := b
  rw [Branch.reread]
  cases children <;> simp [Branch.needsParens, Branch.node, Branch.children, Forest.reread]

theorem forestEnd_close (rest : List Char) : ForestEnd (')' :: rest) := by
  intro x hx
  simpa using hx.symm

theorem forestEnd_nil : ForestEnd [] := by
  simp [ForestEnd]

theorem Item.ReadsAs.of_rest_nil (c : Cursor) (hc : c.rest = []) : Item.ReadsAs c [] :=
  .done (by rw [Cursor.atEnd, hc]; rfl)

mutual

/-- Where a branch was written, the items of what it reads back as are read. -/
theorem Branch.readsAs_render (stamps : Bool) : ∀ (b : Branch), Forest.Every Node.Readable [b] →
    ∀ {text tail : List Char} {items : List Item}, Separated text tail →
      (b.needsParens = true → ForestEnd text) →
      (∀ c : Cursor, c.rest = tail → Item.ReadsAs c items) →
      ∀ c : Cursor, c.rest = (b.render stamps).toList ++ text → Item.ReadsAs c (b.reread.items ++ items)
  | .mk node children, hlegible, text, tail, items, hsep, hparens, htail, c, hc => by
      obtain ⟨⟨hwell, hnode⟩, hchildren⟩ := hlegible.mk
      by_cases hgroup : node.isGroup = true
      · rw [Branch.toList_render_group hgroup, List.cons_append, List.append_assoc,
          List.cons_append] at hc
        -- What is inside ends in front of the `)`, and the repeat stands behind that.
        have hclose : ∀ c : Cursor, c.rest = ')' :: (Node.repeatPart stamps node.repeats ++ text) →
            Item.ReadsAs c (.groupEnd node.repeats :: items) := by
          intro c hc
          obtain ⟨c', hread, hc'⟩ := hsep.read_groupEnd hwell.repeats stamps hc
          exact .of_read hread (htail c' hc')
        have hinner := Forest.readsAs_render stamps children hchildren (forestEnd_close _) hclose
          c.advance (Cursor.rest_advance hc)
        have hall := Item.ReadsAs.of_read (Item.read_groupStart hc) hinner
        simpa [Branch.reread, Branch.items, hgroup, Node.repeats_reread] using hall
      · have hgroup : node.isGroup = false := by simpa using hgroup
        cases children with
        | nil =>
            have hrender : Branch.render stamps (.mk node []) = node.write stamps := by
              simp [Branch.render, hgroup]
            rw [hrender] at hc
            obtain ⟨c₁, hread, hc₁⟩ :=
              Node.read_write hwell hnode hgroup stamps hsep.elementEnd c hc
            obtain ⟨c₂, hjoint, hc₂⟩ := hsep.joint_read hc₁
            have hitem := Item.read_element hread
            rw [hjoint] at hitem
            have hall := Item.ReadsAs.of_read hitem (htail c₂ hc₂)
            simpa [Branch.reread, Forest.reread, Branch.items, hgroup] using hall
        | cons child children =>
            -- An element with children needs parentheses, so it is the last of its siblings, and its
            -- children end where it does.
            have hend : ForestEnd text := hparens (by simp [Branch.needsParens, Branch.node,
              Branch.children, hgroup])
            obtain rfl := hsep.eq_of_forestEnd hend
            have hrender : Branch.render stamps (.mk node (child :: children)) =
                node.write stamps ++ ">" ++ Forest.render stamps (child :: children) := by
              simp [Branch.render, hgroup]
            have hc : c.rest = (node.write stamps).toList ++
                '>' :: ((Forest.render stamps (child :: children)).toList ++ text) := by
              simpa [hrender] using hc
            have hafter : Node.ElementEnd
                ('>' :: ((Forest.render stamps (child :: children)).toList ++ text)) := by
              intro x hx
              obtain rfl : '>' = x := by simpa using hx
              simp
            obtain ⟨c₁, hread, hc₁⟩ := Node.read_write hwell hnode hgroup stamps hafter c hc
            have hitem : Item.read c = .ok (.element node.reread .inside, c₁.advance) := by
              rw [Item.read_element hread]
              simp [Joint.read, hc₁]
            have hbelow := Forest.readsAs_render stamps (child :: children) hchildren hend htail
              c₁.advance (Cursor.rest_advance hc₁)
            have hall := Item.ReadsAs.of_read hitem hbelow
            simpa [Branch.reread, Forest.reread, Branch.items, hgroup] using hall

/-- Where a forest was written, the items of what it reads back as are read. -/
theorem Forest.readsAs_render (stamps : Bool) : ∀ (f : Forest), Forest.Every Node.Readable f →
    ∀ {tail : List Char} {items : List Item}, ForestEnd tail →
      (∀ c : Cursor, c.rest = tail → Item.ReadsAs c items) →
      ∀ c : Cursor, c.rest = (Forest.render stamps f).toList ++ tail →
        Item.ReadsAs c (Forest.items (Forest.reread f) ++ items)
  | [], _, _, _, _, htail, c, hc => by
      rw [Forest.render] at hc
      exact htail c (by simpa using hc)
  | [b], hlegible, tail, items, hend, htail, c, hc => by
      rw [Forest.render] at hc
      rw [Forest.reread, Forest.reread, Forest.items]
      exact Branch.readsAs_render stamps b hlegible (.last hend) (fun _ => hend) htail c hc
  | b :: b' :: bs, hlegible, tail, items, hend, htail, c, hc => by
      obtain ⟨hb, hbs⟩ := hlegible.cons
      have hpast := Forest.readsAs_render stamps (b' :: bs) hbs hend htail
      rw [Forest.render_cons_cons] at hc
      rw [Forest.reread, Forest.reread, Forest.items_cons_cons, ← Forest.reread,
        Branch.needsParens_reread]
      cases hparens : b.needsParens with
      | false =>
          have hc : c.rest = (b.render stamps).toList ++
              '+' :: ((Forest.render stamps (b' :: bs)).toList ++ tail) := by
            simpa [hparens] using hc
          have hall := Branch.readsAs_render stamps b hb (.plus _) (by simp [hparens]) hpast c hc
          simpa using hall
      | true =>
          -- The parentheses around a sibling read as those of a group without a repeat.
          have hc : c.rest = '(' :: ((b.render stamps).toList ++
              ')' :: '+' :: ((Forest.render stamps (b' :: bs)).toList ++ tail)) := by
            simpa [hparens] using hc
          have hclose : ∀ c : Cursor,
              c.rest = ')' :: '+' :: ((Forest.render stamps (b' :: bs)).toList ++ tail) →
                Item.ReadsAs c
                  (.groupEnd none :: (Forest.items (Forest.reread (b' :: bs)) ++ items)) := by
            intro c hc
            have hnone : ∀ r, (none : Option Repeat) = some r → r.WellFormed := by simp
            obtain ⟨c', hread, hc'⟩ := (Separated.plus _).read_groupEnd hnone stamps hc
            exact .of_read hread (hpast c' hc')
          have hinner := Branch.readsAs_render stamps b hb (.last (forestEnd_close _))
            (fun _ => forestEnd_close _) hclose c.advance (Cursor.rest_advance hc)
          have hall := Item.ReadsAs.of_read (Item.read_groupStart hc) hinner
          simpa using hall

end

theorem Forest.readsAs_ofList_render (stamps : Bool) {f : Forest} (h : Forest.Every Node.Readable f) :
    Item.ReadsAs (Cursor.ofList (Forest.render stamps f).toList) (Forest.items (Forest.reread f)) := by
  have hreads := Forest.readsAs_render stamps f h forestEnd_nil Item.ReadsAs.of_rest_nil
    (Cursor.ofList (Forest.render stamps f).toList) (by rw [List.append_nil]; rfl)
  rwa [List.append_nil] at hreads

/-! ### What the items mean -/

namespace Spot

theorem climbBy_add (s : Spot) (m n : Nat) : s.climbBy (m + n) = (s.climbBy m).climbBy n := by
  induction m generalizing s with
  | zero => rw [Nat.zero_add, climbBy]
  | succ m ih => rw [Nat.succ_add, climbBy, climbBy, ih]

/-- Closing the `levels` innermost elements of `s'` gives `s`. -/
structure ClimbsTo (s' : Spot) (levels : Nat) (s : Spot) : Prop where
  climb : s'.climbBy levels = s
  length : s'.openNodes.length = s.openNodes.length + levels

theorem ClimbsTo.forest_eq {s s' : Spot} {levels : Nat} (h : s'.ClimbsTo levels s) :
    s'.forest = s.forest := by
  rw [forest, forest, h.length, Nat.add_comm, climbBy_add, h.climb]

theorem add_add (s : Spot) (f g : Forest) : (s.add f).add g = s.add (f ++ g) := by
  simp [add]

theorem forest_add_empty (f : Forest) : (add {} f).forest = f := by
  simp [forest, add, climbBy]

end Spot

theorem Node.eq_group {node : Node} (h : node.WellFormed) (hgroup : node.isGroup = true) :
    node = { repeats := node.repeats } := by
  obtain ⟨name, text, attributes, repeats, selfClosing⟩ := node
  have hopen : selfClosing = false := by
    refine Bool.eq_false_iff.2 fun hclosed => ?_
    exact absurd (h.closing hclosed) (by simp [hgroup])
  obtain ⟨⟨rfl, rfl⟩, rfl⟩ : (name = none ∧ text = none) ∧ attributes = [] := by
    simpa [Node.isGroup] using hgroup
  rw [hopen]

mutual

/-- The items of a branch add the branch without its loose groups, with elements left open only if it
needs parentheses. -/
theorem Branch.foldlM_items : ∀ (b : Branch), Forest.Every Node.WellFormed [b] →
    ∀ (s : Spot) (around : List Spot),
    ∃ s' levels, b.items.foldlM Outline.add? ⟨s, around⟩ = some ⟨s', around⟩ ∧
      s'.ClimbsTo levels (s.add b.dissolve) ∧ (b.needsParens = false → levels = 0)
  | .mk node children, hwell, s, around => by
      obtain ⟨hnode, hchildren⟩ := hwell.mk
      by_cases hgroup : node.isGroup = true
      · -- What is inside goes into a spot of its own, whose forest the `)` adds outside.
        obtain ⟨s', levels, hfold, hclimb⟩ := Forest.foldlM_items children hchildren {} (s :: around)
        have hforest : s'.forest = Forest.dissolve children := by
          rw [hclimb.forest_eq, Spot.forest_add_empty]
        refine ⟨s.add (Branch.dissolve (.mk node children)), 0, ?_, ⟨rfl, rfl⟩, fun _ => rfl⟩
        rw [Branch.items, if_pos hgroup, List.cons_append, List.foldlM_cons]
        cases hrepeats : node.repeats with
        | none =>
            simp [Outline.add?, List.foldlM_append, hfold, hforest, Branch.dissolve, Node.isLoose,
              hgroup, hrepeats]
        | some r =>
            have heq : ({ repeats := some r } : Node) = node := by
              rw [Node.eq_group hnode hgroup, hrepeats]
            simp [Outline.add?, List.foldlM_append, hfold, hforest, Branch.dissolve, Node.isLoose,
              hrepeats, heq]
      · have hgroup : node.isGroup = false := by simpa using hgroup
        have hloose : node.isLoose = false := by simp [Node.isLoose, hgroup]
        cases children with
        | nil =>
            refine ⟨s.add (Branch.dissolve (.mk node [])), 0, ?_, ⟨rfl, rfl⟩, fun _ => rfl⟩
            simp [Branch.items, hgroup, Outline.add?, Spot.addElement, Branch.dissolve, hloose,
              Forest.dissolve]
        | cons child children =>
            -- The element is left open for its children: one level more to climb.
            obtain ⟨s', levels, hfold, hclimb⟩ := Forest.foldlM_items (child :: children) hchildren
              ⟨[], (node, s.siblings) :: s.openNodes⟩ around
            refine ⟨s', levels + 1, ?_, ⟨?_, ?_⟩, ?_⟩
            · simpa [Branch.items, hgroup, Outline.add?, Spot.addElement] using hfold
            · rw [Spot.climbBy_add, hclimb.climb]
              simp [Spot.climbBy, Spot.climb, Spot.add, Branch.dissolve, hloose]
            · rw [hclimb.length]
              simp only [Spot.add, List.length_cons]
              omega
            · simp [Branch.needsParens, Branch.node, Branch.children, hgroup]

/-- The items of a forest add the forest without its loose groups, with some elements left open. -/
theorem Forest.foldlM_items : ∀ (f : Forest), Forest.Every Node.WellFormed f →
    ∀ (s : Spot) (around : List Spot),
    ∃ s' levels, (Forest.items f).foldlM Outline.add? ⟨s, around⟩ = some ⟨s', around⟩ ∧
      s'.ClimbsTo levels (s.add (Forest.dissolve f))
  | [], _, s, around => ⟨s, 0, by simp [Forest.items], ⟨rfl, rfl⟩⟩
  | [b], hwell, s, around => by
      obtain ⟨s', levels, hfold, hclimb, -⟩ := Branch.foldlM_items b hwell s around
      refine ⟨s', levels, by rw [Forest.items, hfold], ?_⟩
      simpa [Forest.dissolve] using hclimb
  | b :: b' :: bs, hwell, s, around => by
      obtain ⟨hb, hbs⟩ := hwell.cons
      obtain ⟨s', levels, hfold, hclimb⟩ := Forest.foldlM_items (b' :: bs) hbs (s.add b.dissolve) around
      rw [Spot.add_add, ← Forest.dissolve] at hclimb
      refine ⟨s', levels, ?_, hclimb⟩
      rw [Forest.items_cons_cons, List.foldlM_append]
      cases hparens : b.needsParens with
      | false =>
          obtain ⟨s₁, levels₁, hfold₁, hclimb₁, hzero⟩ := Branch.foldlM_items b hb s around
          obtain rfl := hzero hparens
          have hs₁ : s₁ = s.add b.dissolve := hclimb₁.climb
          simp [hfold₁, hs₁, hfold]
      | true =>
          obtain ⟨s₁, levels₁, hfold₁, hclimb₁, -⟩ := Branch.foldlM_items b hb {} (s :: around)
          have hforest : s₁.forest = b.dissolve := by
            rw [hclimb₁.forest_eq, Spot.forest_add_empty]
          simp [List.foldlM_append, Outline.add?, hfold₁, hforest, hfold]

end

/-- **The items of a forest mean the forest** without its loose groups. -/
theorem Forest.foldlM_items_empty {f : Forest} (h : Forest.Every Node.WellFormed f) :
    ∃ o, (Forest.items f).foldlM Outline.add? {} = some o ∧ o.forest? = some (Forest.dissolve f) := by
  obtain ⟨s, levels, hfold, hclimb⟩ := Forest.foldlM_items f h {} []
  refine ⟨⟨s, []⟩, hfold, ?_⟩
  simp [Outline.forest?, hclimb.forest_eq, Spot.forest_add_empty]

/-! ### No white space around -/

/-- The text neither starts nor ends with white space. -/
structure Text.Solid (cs : List Char) : Prop where
  front : Stops isWhiteSpace cs
  back : Stops isWhiteSpace cs.reverse

namespace Text.Solid

theorem of_forall {cs : List Char} (h : ∀ c ∈ cs, isWhiteSpace c = false) : Solid cs where
  front := fun x hx => h x (List.mem_of_head? hx)
  back := fun x hx => h x (List.mem_reverse.1 (List.mem_of_head? hx))

theorem nil : Solid [] :=
  of_forall (by simp)

theorem singleton {c : Char} (h : isWhiteSpace c = false) : Solid [c] :=
  of_forall (by simpa using h)

theorem append {cs ds : List Char} (hcs : Solid cs) (hds : Solid ds) : Solid (cs ++ ds) where
  front := hcs.front.append hds.front
  back := by
    rw [List.reverse_append]
    exact hds.back.append hcs.back

/-- Whatever stands between the two characters. -/
theorem between {x y : Char} (hx : isWhiteSpace x = false) (hy : isWhiteSpace y = false)
    (cs : List Char) : Solid (x :: (cs ++ [y])) where
  front := .cons hx _
  back := by
    rw [← List.cons_append, List.reverse_append]
    exact .cons hy _

theorem trim_eq {cs : List Char} (h : Solid cs) : trim cs = cs := by
  have hdrop : ∀ {ds : List Char}, Stops isWhiteSpace ds → ds.dropWhile isWhiteSpace = ds := by
    intro ds hds
    cases ds with
    | nil => rfl
    | cons d ds => simp [hds d rfl]
  rw [trim, trimEnd, hdrop h.front, hdrop h.back, List.reverse_reverse]

end Text.Solid

theorem Attribute.solid_writeList (row : List Attribute) : Text.Solid (writeList row).toList := by
  rw [writeList]
  split
  · exact .nil
  · simpa using Text.Solid.between (by decide) (by decide) _

theorem Attribute.solid_short {a : Attribute} {short : String} (h : a.short? = some short) :
    Text.Solid short.toList := by
  obtain ⟨tokens, -, hchars, htext⟩ | ⟨value, -, hchars, htext⟩ := Node.short?_eq_some h
  · rw [htext]
    split
    · exact .singleton (by decide)
    · refine .of_forall fun c hc => ?_
      obtain ⟨token, htoken, hc⟩ := List.mem_flatMap.1 hc
      rcases List.mem_cons.1 hc with rfl | hc
      · decide
      · exact Node.isWhiteSpace_of_isNameChar (hchars token htoken c hc)
  · rw [htext]
    refine .of_forall (List.forall_mem_cons.2 ⟨by decide, ?_⟩)
    exact fun c hc => Node.isWhiteSpace_of_isNameChar (hchars c hc)

theorem Attribute.solid_writeAllFrom (row as : List Attribute) :
    Text.Solid (writeAllFrom "" row as).toList := by
  induction as generalizing row with
  | nil => simpa [writeAllFrom] using solid_writeList row
  | cons a as ih =>
      rw [writeAllFrom]
      cases hshort : a.short? with
      | none => exact ih (a :: row)
      | some short =>
          simp only
          rw [Node.writeAllFrom_eq, String.toList_append, String.toList_append, String.empty_append]
          exact ((solid_writeList row).append (solid_short hshort)).append (ih [])

theorem Node.solid_repeatPart {repeats : Option Repeat} (h : ∀ r, repeats = some r → r.WellFormed)
    (stamps : Bool) : Text.Solid (repeatPart stamps repeats) := by
  cases repeats with
  | none => exact .nil
  | some r =>
      obtain ⟨digits, hwrite, hdigits, -⟩ := (h r rfl).toList_write stamps
      have htext : repeatPart stamps (some r) = '*' :: digits := hwrite
      rw [htext]
      refine .of_forall (List.forall_mem_cons.2 ⟨by decide, ?_⟩)
      exact fun c hc => isWhiteSpace_of_isNameChar (isNameChar_of_isDigit c (hdigits c hc))

theorem Node.solid_write {n : Node} (h : n.WellFormed) (stamps : Bool) :
    Text.Solid (n.write stamps).toList := by
  have hname : Text.Solid (n.name.getD "").toList := by
    cases hn : n.name with
    | none => exact .nil
    | some name => exact .of_forall fun c hc => isWhiteSpace_of_isNameChar ((h.name name hn).2 c hc)
  have htext : Text.Solid (textPart n.text) := by
    cases n.text with
    | none => exact .nil
    | some text => simpa [textPart] using Text.Solid.between (by decide) (by decide) text.toList
  have hslash : Text.Solid (slashPart n.selfClosing) := by
    cases n.selfClosing with
    | false => exact .nil
    | true => exact .singleton (by decide)
  rw [toList_write]
  exact hname.append ((Attribute.solid_writeAllFrom [] _).append
    (htext.append ((solid_repeatPart h.repeats stamps).append hslash)))

mutual

theorem Branch.solid_render (stamps : Bool) : ∀ (b : Branch), Forest.Every Node.WellFormed [b] →
    Text.Solid (b.render stamps).toList
  | .mk node children, h => by
      obtain ⟨hnode, hchildren⟩ := h.mk
      by_cases hgroup : node.isGroup = true
      · rw [Branch.toList_render_group hgroup]
        have hparens : Text.Solid ('(' :: ((Forest.render stamps children).toList ++ [')'])) :=
          .between (by decide) (by decide) _
        simpa using hparens.append (Node.solid_repeatPart hnode.repeats stamps)
      · rw [Branch.render, if_neg hgroup]
        split
        · exact Node.solid_write hnode stamps
        · rw [String.toList_append, String.toList_append]
          have hinside : Text.Solid ">".toList := .singleton (by decide)
          exact ((Node.solid_write hnode stamps).append hinside).append
            (Forest.solid_render stamps children hchildren)

/-- No white space stands around an abbreviation. -/
theorem Forest.solid_render (stamps : Bool) : ∀ (f : Forest), Forest.Every Node.WellFormed f →
    Text.Solid (Forest.render stamps f).toList
  | [], _ => by
      rw [Forest.render]
      exact .nil
  | [b], h => by
      rw [Forest.render]
      exact Branch.solid_render stamps b h
  | b :: b' :: bs, h => by
      obtain ⟨hb, hbs⟩ := h.cons
      have hbranch := Branch.solid_render stamps b hb
      have hfirst : Text.Solid
          (if b.needsParens then "(" ++ b.render stamps ++ ")" else b.render stamps).toList := by
        split
        · simpa using Text.Solid.between (by decide) (by decide) (b.render stamps).toList
        · exact hbranch
      rw [Forest.render_cons_cons, String.toList_append, String.toList_append]
      have hplus : Text.Solid "+".toList := .singleton (by decide)
      exact (hfirst.append hplus).append (Forest.solid_render stamps (b' :: bs) hbs)

end

end Shorthand
