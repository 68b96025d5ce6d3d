import Shorthand.Proofs.Reader.Locality

/-!
# Grouping composes

An abbreviation between parentheses means what it means alone: what is around it is out of its reach,
and what follows goes on behind it. Two facts about outlines carry this:

* the spots around those that a sequence of items needs are not touched (`Outline.foldlM_around`);
* what a sequence of items adds does not depend on the branches in front of it (`Outline.Front`).
-/

namespace Shorthand

/-! ### Branches in front -/

/-- The second spot is the first one with the branches `f` in front of its outermost siblings. -/
inductive Spot.Front (f : Forest) : Spot → Spot → Prop where
  | top (siblings : List Branch) : Front f ⟨siblings, []⟩ ⟨siblings ++ f.reverse, []⟩
  | inside (siblings : List Branch) (node : Node) {before before' : List Branch}
      {openNodes openNodes' : List (Node × List Branch)}
      (h : Front f ⟨before, openNodes⟩ ⟨before', openNodes'⟩) :
      Front f ⟨siblings, (node, before) :: openNodes⟩ ⟨siblings, (node, before') :: openNodes'⟩

namespace Spot.Front

variable {f : Forest} {s s' : Spot}

theorem add (h : Front f s s') (g : Forest) : Front f (s.add g) (s'.add g) := by
  cases h with
  | top siblings =>
      have htop := Front.top (f := f) (g.reverse ++ siblings)
      simpa [Spot.add] using htop
  | inside siblings node h => exact .inside _ node h

theorem climb (h : Front f s s') : Front f s.climb s'.climb := by
  cases h with
  | top siblings => exact .top siblings
  | inside siblings node h => exact h.add [.mk node siblings.reverse]

theorem climbBy (h : Front f s s') (levels : Nat) : Front f (s.climbBy levels) (s'.climbBy levels) := by
  induction levels generalizing s s' with
  | zero => exact h
  | succ levels ih => exact ih h.climb

theorem addElement (h : Front f s s') (node : Node) (joint : Joint) :
    Front f (s.addElement node joint) (s'.addElement node joint) := by
  cases joint with
  | beside => exact h.add _
  | inside => exact .inside [] node h
  | up levels => exact (h.add _).climbBy levels

theorem length_openNodes (h : Front f s s') : s'.openNodes.length = s.openNodes.length := by
  induction h with
  | top siblings => rfl
  | inside siblings node h ih => simpa using ih

theorem forest_eq (h : Front f s s') : s'.forest = f ++ s.forest := by
  have hclosed := h.climbBy s.openNodes.length
  have hnone := Tree.openNodes_climbBy s.openNodes.length s rfl
  rw [Spot.forest, Spot.forest, h.length_openNodes]
  generalize s.climbBy s.openNodes.length = top at hclosed hnone
  generalize s'.climbBy s.openNodes.length = top' at hclosed
  cases hclosed with
  | top siblings => simp
  | inside siblings node h => simp at hnone

end Spot.Front

namespace Outline

/-- The second outline is the first one with the branches `f` in front of its outermost siblings. -/
inductive Front (f : Forest) : Outline → Outline → Prop where
  | here {s s' : Spot} (h : s.Front f s') : Front f ⟨s, []⟩ ⟨s', []⟩
  | around (spot : Spot) {s s' : Spot} {around around' : List Spot}
      (h : Front f ⟨s, around⟩ ⟨s', around'⟩) : Front f ⟨spot, s :: around⟩ ⟨spot, s' :: around'⟩

variable {f : Forest} {o o' : Outline}

theorem Front.addBranches (h : Front f o o') (g : Forest) :
    Front f ⟨o.spot.add g, o.around⟩ ⟨o'.spot.add g, o'.around⟩ := by
  cases h with
  | here h => exact .here (h.add g)
  | around spot h => exact .around _ h

theorem Front.add? (h : Front f o o') {item : Item} {next : Outline} (hadd : o.add? item = some next) :
    ∃ next', o'.add? item = some next' ∧ Front f next next' := by
  cases item with
  | groupStart =>
      obtain rfl := Option.some.inj hadd
      exact ⟨_, rfl, .around {} h⟩
  | element node joint =>
      obtain rfl := Option.some.inj hadd
      cases h with
      | here h => exact ⟨_, rfl, .here (h.addElement node joint)⟩
      | around spot h => exact ⟨_, rfl, .around _ h⟩
  | groupEnd repeats =>
      cases h with
      | here h => simp [Outline.add?] at hadd
      | around spot h =>
          cases repeats with
          | none =>
              obtain rfl := Option.some.inj hadd
              exact ⟨_, rfl, h.addBranches _⟩
          | some r =>
              obtain rfl := Option.some.inj hadd
              exact ⟨_, rfl, h.addBranches _⟩

/-- **What items add does not depend on the branches in front.** -/
theorem Front.foldlM (h : Front f o o') {items : List Item} {last : Outline}
    (hfold : items.foldlM Outline.add? o = some last) :
    ∃ last', items.foldlM Outline.add? o' = some last' ∧ Front f last last' := by
  induction items generalizing o o' with
  | nil =>
      obtain rfl : o = last := by simpa using hfold
      exact ⟨o', rfl, h⟩
  | cons item items ih =>
      rw [List.foldlM_cons] at hfold
      obtain ⟨next, hnext, hfold⟩ := Option.bind_eq_some_iff.1 hfold
      obtain ⟨next', hnext', hfront⟩ := h.add? hnext
      obtain ⟨last', hfold', hlast⟩ := ih hfront hfold
      refine ⟨last', ?_, hlast⟩
      rw [List.foldlM_cons, hnext']
      exact hfold'

/-! ### Spots around -/

theorem add?_around {o o' : Outline} {item : Item} (h : o.add? item = some o') (extra : List Spot) :
    Outline.add? ⟨o.spot, o.around ++ extra⟩ item = some ⟨o'.spot, o'.around ++ extra⟩ := by
  obtain ⟨spot, around⟩ := o
  cases item with
  | groupStart =>
      obtain rfl := Option.some.inj h
      rfl
  | element node joint =>
      obtain rfl := Option.some.inj h
      rfl
  | groupEnd repeats =>
      cases around with
      | nil => simp [Outline.add?] at h
      | cons s around =>
          cases repeats with
          | none =>
              obtain rfl := Option.some.inj h
              rfl
          | some r =>
              obtain rfl := Option.some.inj h
              rfl

/-- **Items leave further spots around alone.** -/
theorem foldlM_around {items : List Item} {o last : Outline}
    (h : items.foldlM Outline.add? o = some last) (extra : List Spot) :
    items.foldlM Outline.add? ⟨o.spot, o.around ++ extra⟩ =
      some ⟨last.spot, last.around ++ extra⟩ := by
  induction items generalizing o with
  | nil =>
      obtain rfl : o = last := by simpa using h
      rfl
  | cons item items ih =>
      rw [List.foldlM_cons] at h ⊢
      obtain ⟨next, hnext, hfold⟩ := Option.bind_eq_some_iff.1 h
      rw [add?_around hnext extra]
      exact ih hfold

end Outline

/-! ### A group and what follows it -/

/-- The branches that a group with the branches `f` amounts to. -/
def Forest.grouped (repeats : Option Repeat) (f : Forest) : Forest :=
  match repeats with
  | none => f
  | some r => [.mk { repeats := some r } f]

theorem Outline.forest?_eq_some {o : Outline} {f : Forest} (h : o.forest? = some f) :
    o.around = [] ∧ o.spot.forest = f := by
  rw [forest?] at h
  split at h
  · next hnil => exact ⟨by simpa using hnil, Option.some.inj h⟩
  · simp at h

/-- Items between parentheses, and items behind them. -/
theorem Forest.foldlM_grouped {inner outer : List Item} {o o' : Outline} {f g : Forest}
    (hinner : inner.foldlM Outline.add? {} = some o) (hf : o.forest? = some f)
    (houter : outer.foldlM Outline.add? {} = some o') (hg : o'.forest? = some g)
    (repeats : Option Repeat) :
    ∃ last, (.groupStart :: (inner ++ .groupEnd repeats :: outer)).foldlM Outline.add? {} = some last ∧
      last.forest? = some (Forest.grouped repeats f ++ g) := by
  obtain ⟨hnone, rfl⟩ := Outline.forest?_eq_some hf
  obtain ⟨hnone', rfl⟩ := Outline.forest?_eq_some hg
  have hstart : Outline.add? {} .groupStart = some ⟨{}, [{}]⟩ := rfl
  -- Inside, the items do what they do alone, with the spot outside waiting.
  have hgroup : inner.foldlM Outline.add? ⟨{}, [{}]⟩ = some ⟨o.spot, [{}]⟩ := by
    have haround := Outline.foldlM_around hinner [{}]
    rwa [hnone] at haround
  have hclose : Outline.add? ⟨o.spot, [{}]⟩ (.groupEnd repeats) =
      some ⟨Spot.add {} (Forest.grouped repeats o.spot.forest), []⟩ := by
    cases repeats <;> rfl
  -- Behind the group, they do it with the group in front.
  have hfront : Outline.Front (Forest.grouped repeats o.spot.forest) {}
      ⟨Spot.add {} (Forest.grouped repeats o.spot.forest), []⟩ := by
    have htop := Spot.Front.top (f := Forest.grouped repeats o.spot.forest) []
    exact .here (by simpa [Spot.add] using htop)
  obtain ⟨last, hlast, hrel⟩ := hfront.foldlM houter
  refine ⟨last, ?_, ?_⟩
  · rw [List.foldlM_cons, hstart]
    simp only [Option.bind_eq_bind, Option.bind_some]
    rw [List.foldlM_append, hgroup]
    simp only [Option.bind_eq_bind, Option.bind_some]
    rw [List.foldlM_cons, hclose]
    exact hlast
  · obtain ⟨spot, around⟩ := o'
    obtain rfl : around = [] := hnone'
    cases hrel with
    | here h => simp [Outline.forest?, h.forest_eq]

/-! ### Reading a group -/

/-- The end of a group with its repeat, which a sibling follows. -/
theorem Item.read_groupEnd_plus {repeats : Option Repeat} {text rest : List Char} {c : Cursor}
    (hc : c.rest = ')' :: (text ++ '+' :: rest))
    (hread : ∀ d : Cursor, d.rest = text ++ '+' :: rest →
      (Repeat.read d).1 = repeats ∧ (Repeat.read d).2.rest = '+' :: rest) :
    ∃ c', Item.read c = .ok (.groupEnd repeats, c') ∧ c'.rest = rest := by
  obtain ⟨hrepeats, hrest⟩ := hread c.advance (Cursor.rest_advance hc)
  have heat := Cursor.eat?_eq_some (p := (· == '+')) hrest (by decide)
  refine ⟨(Repeat.read c.advance).2.past ['+'] rest, ?_, rfl⟩
  rw [Item.read]
  simp only [hc, Item.readGroupEnd, heat, hrepeats, Option.getD_some]

/-- A group whose repeat is read from `text` means its branches, grouped, and then what follows. -/
theorem Tree.parse_grouped {s t : String} {a b : Tree} (hs : Text.Solid s.toList)
    (ht : Text.Solid t.toList) (ha : Tree.parse s = .ok a) (hb : Tree.parse t = .ok b)
    (text : List Char) (repeats : Option Repeat)
    (hread : ∀ d : Cursor, d.rest = text ++ '+' :: t.toList →
      (Repeat.read d).1 = repeats ∧ (Repeat.read d).2.rest = '+' :: t.toList)
    {source : String} (hsource : source.toList = '(' :: (s.toList ++ ')' :: (text ++ '+' :: t.toList))) :
    ∃ tree, Tree.parse source = .ok tree ∧
      tree.forest = Forest.grouped repeats a.forest ++ b.forest := by
  obtain ⟨-, inner, o, hinner, hfold, hforest⟩ := Tree.parse_ok ha
  obtain ⟨-, outer, o', houter, hfold', hforest'⟩ := Tree.parse_ok hb
  obtain ⟨last, hlast, hall⟩ := Forest.foldlM_grouped hfold hforest hfold' hforest' repeats
  rw [hs.trim_eq] at hinner
  rw [ht.trim_eq] at houter
  -- The text starts with a parenthesis, and ends as `t` does or with the `+` in front of it.
  have hsolid : Text.Solid source.toList := by
    have hfront := Text.Solid.between (x := '(') (y := '+') (by decide) (by decide)
      (s.toList ++ ')' :: text)
    have hboth := hfront.append ht
    rw [hsource]
    simpa using hboth
  have htail : ∀ d : Cursor, d.rest = t.toList → Item.ReadsAs d outer := by
    intro d hd
    have hreads := houter.append forestEnd_nil Item.ReadsAs.of_rest_nil (d := d)
      (by simpa [Cursor.ofList] using hd)
    rwa [List.append_nil] at hreads
  have hclose : ∀ d : Cursor, d.rest = ')' :: (text ++ '+' :: t.toList) →
      Item.ReadsAs d (.groupEnd repeats :: outer) := by
    intro d hd
    obtain ⟨d', hitem, hd'⟩ := Item.read_groupEnd_plus hd hread
    exact .of_read hitem (htail d' hd')
  have hopen : (Cursor.ofList (Text.trim source.toList)).rest =
      '(' :: (s.toList ++ ')' :: (text ++ '+' :: t.toList)) := by
    rw [hsolid.trim_eq, ← hsource]
    rfl
  have hgroup := hinner.append (forestEnd_close _) hclose (Cursor.rest_advance hopen)
  have hreads := Item.ReadsAs.of_read (Item.read_groupStart hopen) hgroup
  obtain ⟨tree, hparse, -, htree⟩ := Tree.parse_of_readsAs hreads hlast hall
  exact ⟨tree, hparse, htree⟩

/-- **Grouping composes.** In front of a sibling, an abbreviation between parentheses stands for its
branches, and with a count behind the parentheses for one group of them. -/
theorem Tree.forest_parse_group {s t : String} {a b : Tree} (hs : Text.Solid s.toList)
    (ht : Text.Solid t.toList) (ha : Tree.parse s = .ok a) (hb : Tree.parse t = .ok b) :
    (∃ tree, Tree.parse ("(" ++ s ++ ")+" ++ t) = .ok tree ∧ tree.forest = a.forest ++ b.forest) ∧
      ∀ numeral : String, numeral ≠ "" → (∀ c ∈ numeral.toList, Numeral.isDigit c = true) →
        Numeral.value numeral.toList ≤ Numeral.maxCount →
        ∃ tree, Tree.parse ("(" ++ s ++ ")*" ++ numeral ++ "+" ++ t) = .ok tree ∧
          tree.forest =
            .mk { repeats := some { count := some (Numeral.value numeral.toList) } } a.forest ::
              b.forest := by
  constructor
  · refine Tree.parse_grouped hs ht ha hb [] none ?_ (by simp)
    intro d hd
    have hnone : Repeat.read d = (none, d) := Repeat.read_none (by simp [hd])
    rw [hnone]
    exact ⟨rfl, hd⟩
  · intro numeral hne hdigits hle
    refine Tree.parse_grouped hs ht ha hb ('*' :: numeral.toList)
      (some { count := some (Numeral.value numeral.toList) }) ?_ (by simp)
    intro d hd
    have hstop : Text.Stops Numeral.isDigit ('+' :: t.toList) := .cons (by decide) _
    have hrun := Cursor.takeRun_eq hdigits hstop (Cursor.rest_past d ['*'] _)
    have hcount : Repeat.countOf numeral.toList = some (Numeral.value numeral.toList) := by
      rw [Repeat.countOf, if_neg (by simpa using hne), Nat.min_eq_left hle]
    rw [Repeat.read, Cursor.eat?_eq_some hd (by decide)]
    exact ⟨by simp [hrun.1, hcount], hrun.2⟩

/-- Climbs in front of the parenthesis stay inside it, and leading zeros do not count. -/
theorem Tree.forest_parse_group_climbs : ∃ a b tree, Tree.parse "a>b>c^^^" = .ok a ∧
    Tree.parse "d" = .ok b ∧ Tree.parse "(a>b>c^^^)*007+d" = .ok tree ∧
      tree.forest = .mk { repeats := some { count := some 7 } } a.forest :: b.forest := by
  obtain ⟨a, ha, -⟩ : ∃ a, Tree.parse "a>b>c^^^" = .ok a ∧ a.size = 4 :=
    Tree.exists_parse_of_map (by decide +kernel)
  obtain ⟨b, hb, -⟩ : ∃ b, Tree.parse "d" = .ok b ∧ b.size = 2 :=
    Tree.exists_parse_of_map (by decide +kernel)
  have hs : Text.Solid "a>b>c^^^".toList :=
    .of_forall (List.forall_iff_forall_mem.1 (by decide +kernel))
  have ht : Text.Solid "d".toList := .of_forall (List.forall_iff_forall_mem.1 (by decide +kernel))
  obtain ⟨tree, hparse, hforest⟩ := (Tree.forest_parse_group hs ht ha hb).2 "007" (by decide)
    (List.all_eq_true.1 (by decide)) (by decide)
  exact ⟨a, b, tree, ha, hb, hparse, hforest⟩

end Shorthand
