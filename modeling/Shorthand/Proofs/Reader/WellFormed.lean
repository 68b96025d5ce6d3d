import Shorthand.Item.Outline
import Shorthand.Proofs.Forest.Basic
import Shorthand.Proofs.Node.WellFormed
import Shorthand.Proofs.Reader.Quoted
import Shorthand.Proofs.Tree.Builder

/-!
# Everything read is well formed

Each reader gives well-formed results, from repeats and attributes to elements. The nodes of a forest
are the elements that were read and the groups that were closed with a repeat, so they are all well
formed too.
-/

namespace Shorthand

theorem Repeat.wellFormed_of_read {c c' : Cursor} {r : Repeat} (h : read c = (some r, c')) :
    r.WellFormed := by
  rw [read] at h
  split at h
  · simp at h
  · simp only [Prod.mk.injEq, Option.some.injEq] at h
    obtain ⟨rfl, -⟩ := h
    refine ⟨rfl, ?_⟩
    intro count hcount
    simp only [countOf] at hcount
    split at hcount
    · simp at hcount
    · obtain rfl := Option.some.inj hcount
      exact Nat.min_le_right _ _

/-! ### Attributes -/

namespace Attribute

theorem isName_of_writtenName? {token : List Char} {written : WrittenName}
    (h : writtenName? token = some written) : IsName (String.ofList written.name) := by
  simp only [writtenName?] at h
  split at h
  · next hname =>
    obtain rfl := Option.some.inj h
    simp only [Bool.and_eq_true, Bool.not_eq_true', List.all_eq_true] at hname
    refine ⟨?_, by simpa using hname.2⟩
    simpa using hname.1
  · simp at h

theorem wellFormed_of_readNamed {written : WrittenName} (hname : IsName (String.ofList written.name))
    {a : Attribute} {c c' : Cursor} (h : readNamed written c = .ok (a, c')) : a.WellFormed := by
  simp only [readNamed, bind, Except.bind, pure, Except.pure] at h
  split at h
  · simp only [Except.ok.injEq, Prod.mk.injEq] at h
    rw [← h.1]
    exact wellFormed_make hname none _ _
  · split at h
    · simp at h
    next value hvalue =>
      obtain ⟨⟨text, expression⟩, c₁⟩ := value
      cases expression with
      | false =>
          cases h
          exact wellFormed_make hname (some text) _ _
      | true =>
          cases h
          cases takesValue_of_readValue hvalue with
          | expression _ hread =>
              exact wellFormed_make_expression hname (Payload.balanced_of_read hread) _ _

theorem wellFormed_of_readEntry {a : Attribute} {c c' : Cursor}
    (h : readEntry c = .ok (some a, c')) : a.WellFormed := by
  cases (takesEntry_of_readEntry h).2 with
  | literal => exact .unnamed _
  | token => exact .unnamed _
  | named _ _ _ hname hnamed => exact wellFormed_of_readNamed (isName_of_writtenName? hname) hnamed

theorem wellFormed_of_readEntries {found list : List Attribute} {c c' : Cursor}
    (hfound : ∀ a ∈ found, a.WellFormed) (h : readEntries found c = .ok (list, c')) :
    ∀ a ∈ list, a.WellFormed := by
  fun_induction readEntries found c with
  | case1 => simp at h
  | case2 found c c₁ hentry =>
      simp only [Except.ok.injEq, Prod.mk.injEq] at h
      rw [← h.1]
      simpa using hfound
  | case3 found c a c₁ hentry ih =>
      refine ih ?_ h
      intro b hb
      rcases List.mem_cons.1 hb with rfl | hb
      · exact wellFormed_of_readEntry hentry
      · exact hfound b hb

theorem wellFormed_of_readList {list : List Attribute} {c c' : Cursor}
    (h : readList c = .ok (some list, c')) : ∀ a ∈ list, a.WellFormed := by
  simp only [readList, bind, Except.bind, pure, Except.pure] at h
  split at h
  · simp at h
  · split at h
    · simp at h
    next hentries =>
      simp only [Except.ok.injEq, Prod.mk.injEq, Option.some.injEq] at h
      rw [← h.1]
      exact wellFormed_of_readEntries (by simp) hentries

end Attribute

/-! ### Elements -/

namespace Node

theorem wellFormed_empty : WellFormed {} where
  name := by simp
  text := by simp
  attributes := by simp
  distinct := .nil
  repeats := by simp
  closing := by simp

theorem toNat_of_isAlphanum {c : Char} (h : c.isAlphanum = true) : 48 ≤ c.toNat ∧ c.toNat ≤ 122 := by
  have hclass : ((c.isUpper || c.isLower) || c.isDigit) = true := h
  rw [Bool.or_eq_true, Bool.or_eq_true] at hclass
  have hupper : c.isUpper = true → 65 ≤ c.toNat ∧ c.toNat ≤ 90 := fun hc => of_decide_eq_true hc
  have hlower : c.isLower = true → 97 ≤ c.toNat ∧ c.toNat ≤ 122 := fun hc => by
    obtain ⟨hlow, hhigh⟩ := (Bool.and_eq_true _ _).mp hc
    exact ⟨of_decide_eq_true hlow, of_decide_eq_true hhigh⟩
  have hdigit : c.isDigit = true → 48 ≤ c.toNat ∧ c.toNat ≤ 57 := fun hc => by
    obtain ⟨hlow, hhigh⟩ := (Bool.and_eq_true _ _).mp hc
    exact ⟨of_decide_eq_true hlow, of_decide_eq_true hhigh⟩
  rcases hclass with (hc | hc) | hc
  · have hbounds := hupper hc
    omega
  · have hbounds := hlower hc
    omega
  · have hbounds := hdigit hc
    omega

/-- No name character is white space. -/
theorem isWhiteSpace_of_isNameChar {c : Char} (h : isNameChar c = true) :
    Text.isWhiteSpace c = false := by
  rw [isNameChar, Bool.or_eq_true] at h
  rcases h with h | h
  · obtain ⟨hlow, hhigh⟩ := toNat_of_isAlphanum h
    simp only [Text.isWhiteSpace, Text.inRanges, Text.whiteSpaceRanges, List.any_cons, List.any_nil,
      Bool.or_false, Bool.or_eq_false_iff, Bool.and_eq_false_iff, decide_eq_false_iff_not]
    omega
  · simp only [List.contains_eq_mem, List.mem_cons, List.not_mem_nil, or_false, decide_eq_true_eq] at h
    rcases h with rfl | rfl | rfl | rfl | rfl | rfl | rfl <;> decide

theorem isNameChar_of_isDigit (c : Char) (h : Numeral.isDigit c = true) : isNameChar c = true := by
  have hdigit : c.isDigit = true := by
    simpa [Numeral.isDigit, Char.isDigit, Char.le_def] using h
  simp [isNameChar, Char.isAlphanum, hdigit]

theorem isNameChar_of_mem_takeRun {c : Cursor} {x : Char} (h : x ∈ (c.takeRun isNameChar).1) :
    isNameChar x = true :=
  List.all_eq_true.1 List.all_takeWhile x h

theorem isWhiteSpace_of_mem_takeRun {c : Cursor} {x : Char}
    (h : x ∈ (String.ofList (c.takeRun isNameChar).1).toList) : Text.isWhiteSpace x = false := by
  rw [String.toList_ofList] at h
  exact isWhiteSpace_of_isNameChar (isNameChar_of_mem_takeRun h)

/-- An element that is being read: well formed, and without its end mark. -/
structure Growing (n : Node) : Prop extends WellFormed n where
  still_open : n.selfClosing = false

theorem isName_id : Attribute.IsName "id" :=
  ⟨by decide, List.all_eq_true.1 (by decide)⟩

/-- A part that leads on keeps the element growing. -/
theorem Growing.readPart {n n' : Node} (hn : n.Growing) {c c' : Cursor}
    (h : readPart n c = .ok (.more n', c')) : n'.Growing := by
  have hwell := hn.toWellFormed
  have hopen := hn.still_open
  cases takesPart_of_readPart h with
  | className =>
      refine ⟨hwell.addClass fun x hx => isWhiteSpace_of_mem_takeRun hx, ?_⟩
      rw [selfClosing_addClass, hopen]
  | id =>
      refine ⟨hwell.setAttribute (Attribute.wellFormed_named isName_id _), ?_⟩
      rw [selfClosing_setAttribute, hopen]
  | list hread =>
      refine ⟨hwell.foldl_setAttribute (Attribute.wellFormed_of_readList hread), ?_⟩
      rw [selfClosing_foldl_setAttribute, hopen]
  | text hread =>
      refine ⟨{ hwell with text := ?_, closing := by simp [hopen] }, hopen⟩
      intro text htext
      cases htext
      exact Payload.balanced_of_read hread
  | count hread =>
      refine ⟨{ hwell with repeats := ?_ }, hopen⟩
      intro r hr
      cases hr
      exact Repeat.wellFormed_of_read hread
  | name hname =>
      refine ⟨{ hwell with name := ?_, closing := by simp [hopen] }, hopen⟩
      intro name hn
      cases hn
      exact ⟨by simpa using hname, fun x hx => isNameChar_of_mem_takeRun (by simpa using hx)⟩

/-- The end mark only stands behind an element that is no group. -/
theorem Growing.readPart_last {n n' : Node} (hn : n.Growing) {c c' : Cursor}
    (h : Node.readPart n c = .ok (.last n', c')) : n'.WellFormed := by
  obtain ⟨-, hgroup, rfl, -⟩ := eq_of_readPart_last h
  refine { hn.toWellFormed with
    repeats := ?_
    closing := fun _ => by simpa [isGroup, closed] using hgroup }
  intro r hr
  rcases Option.or_eq_some_iff.1 hr with hread | ⟨-, hr⟩
  · exact Repeat.wellFormed_of_read (Prod.ext hread rfl)
  · exact hn.repeats r hr

theorem Growing.readParts {n n' : Node} (hn : n.Growing) {c c' : Cursor}
    (h : Node.readParts n c = .ok (n', c')) : n'.WellFormed := by
  fun_induction Node.readParts n c with
  | case1 => simp at h
  | case2 =>
      cases h
      exact hn.toWellFormed
  | case3 n c n₁ c₁ hpart =>
      cases h
      exact hn.readPart_last hpart
  | case4 n c n₁ c₁ hpart ih => exact ih (hn.readPart hpart) h

theorem growing_empty : Growing {} where
  toWellFormed := wellFormed_empty
  still_open := rfl

/-- **Every element that is read is well formed.** -/
theorem wellFormed_of_read {n : Node} {c c' : Cursor} (h : read c = .ok (n, c')) : n.WellFormed := by
  rw [read] at h
  split at h
  · simp at h
  · simp [Cursor.fail] at h
  · next hpart =>
    cases h
    exact growing_empty.readPart_last hpart
  · next hpart => exact (growing_empty.readPart hpart).readParts h

end Node

/-! ### Items and forests -/

/-- The nodes and repeats of an item are well formed. -/
def Item.WellFormed : Item → Prop
  | .groupStart => True
  | .groupEnd repeats => ∀ r, repeats = some r → r.WellFormed
  | .element node _ => node.WellFormed

theorem Item.wellFormed_of_read {item : Item} {c c' : Cursor} (h : read c = .ok (item, c')) :
    item.WellFormed := by
  simp only [read, bind, Except.bind, pure, Except.pure] at h
  split at h
  · cases h
    trivial
  · cases h
    intro r hr
    exact Repeat.wellFormed_of_read (Prod.ext hr rfl)
  · split at h
    · simp at h
    · next hnode =>
      cases h
      exact Node.wellFormed_of_read hnode

theorem Item.ReadsAs.wellFormed {c : Cursor} {items : List Item} (h : ReadsAs c items) :
    ∀ item ∈ items, item.WellFormed := by
  induction h with
  | done => simp
  | next _ hread _ ih =>
      intro item hitem
      rcases List.mem_cons.1 hitem with rfl | hitem
      · exact wellFormed_of_read hread
      · exact ih item hitem

/-- Every node at a spot has the property. -/
structure Spot.Every (P : Node → Prop) (s : Spot) : Prop where
  siblings : Forest.Every P s.siblings
  openNodes : ∀ entry ∈ s.openNodes, P entry.1 ∧ Forest.Every P entry.2

namespace Spot.Every

variable {P : Node → Prop} {s : Spot}

theorem empty : Every P {} :=
  ⟨by simp [Forest.Every], by simp⟩

theorem add (h : s.Every P) {f : Forest} (hf : Forest.Every P f) : (s.add f).Every P := by
  refine ⟨fun node hnode => ?_, h.openNodes⟩
  rw [Spot.add, Forest.nodes_append, List.mem_append, Forest.mem_nodes_reverse] at hnode
  rcases hnode with hnode | hnode
  · exact hf node hnode
  · exact h.siblings node hnode

theorem climb (h : s.Every P) : s.climb.Every P := by
  obtain ⟨siblings, openNodes⟩ := s
  cases openNodes with
  | nil => exact h
  | cons entry openNodes =>
      obtain ⟨hhead, htail⟩ := List.forall_mem_cons.1 h.openNodes
      refine ⟨fun node hnode => ?_, htail⟩
      rw [Spot.climb, Forest.nodes_cons, List.mem_cons, List.mem_append,
        Forest.mem_nodes_reverse] at hnode
      rcases hnode with rfl | hnode | hnode
      · exact hhead.1
      · exact h.siblings node hnode
      · exact hhead.2 node hnode

theorem climbBy (h : s.Every P) (levels : Nat) : (s.climbBy levels).Every P := by
  induction levels generalizing s with
  | zero => exact h
  | succ levels ih => exact ih h.climb

theorem addElement (h : s.Every P) {node : Node} (hnode : P node) (joint : Joint) :
    (s.addElement node joint).Every P := by
  have hadd : (s.add [.mk node []]).Every P := h.add (by simpa [Forest.Every] using hnode)
  cases joint with
  | beside => exact hadd
  | inside =>
      refine ⟨by simp [Spot.addElement, Forest.Every], ?_⟩
      exact List.forall_mem_cons.2 ⟨⟨hnode, h.siblings⟩, h.openNodes⟩
  | up levels => exact hadd.climbBy levels

theorem forest (h : s.Every P) : Forest.Every P s.forest := by
  intro node hnode
  rw [Spot.forest, Forest.mem_nodes_reverse] at hnode
  exact (h.climbBy s.openNodes.length).siblings node hnode

end Spot.Every

theorem Node.wellFormed_group {r : Repeat} (h : r.WellFormed) : WellFormed { repeats := some r } where
  name := by simp
  text := by simp
  attributes := by simp
  distinct := .nil
  repeats := by
    intro r' hr
    cases hr
    exact h
  closing := by simp

/-- Every node of an outline is well formed. -/
def Outline.WellFormed (o : Outline) : Prop :=
  ∀ spot ∈ o.spot :: o.around, spot.Every Node.WellFormed

theorem Outline.WellFormed.add? {o o' : Outline} (h : o.WellFormed) {item : Item}
    (hitem : item.WellFormed) (hadd : o.add? item = some o') : o'.WellFormed := by
  obtain ⟨spot, around⟩ := o
  obtain ⟨hspot, haround⟩ := List.forall_mem_cons.1 h
  cases item with
  | groupStart =>
      cases hadd
      exact List.forall_mem_cons.2 ⟨.empty, h⟩
  | groupEnd repeats =>
      cases around with
      | nil => cases hadd
      | cons outer around =>
          obtain ⟨houter, hrest⟩ := List.forall_mem_cons.1 haround
          cases repeats with
          | none =>
              cases hadd
              exact List.forall_mem_cons.2 ⟨houter.add hspot.forest, hrest⟩
          | some r =>
              cases hadd
              refine List.forall_mem_cons.2 ⟨houter.add ?_, hrest⟩
              intro node hnode
              rw [Forest.nodes_cons, Forest.nodes_nil, List.append_nil, List.mem_cons] at hnode
              rcases hnode with rfl | hnode
              · exact Node.wellFormed_group (hitem r rfl)
              · exact hspot.forest node hnode
  | element node joint =>
      cases hadd
      exact List.forall_mem_cons.2 ⟨hspot.addElement hitem joint, haround⟩

theorem Outline.WellFormed.foldlM {items : List Item} {o o' : Outline} (h : o.WellFormed)
    (hitems : ∀ item ∈ items, item.WellFormed) (hfold : items.foldlM Outline.add? o = some o') :
    o'.WellFormed := by
  induction items generalizing o with
  | nil =>
      cases hfold
      exact h
  | cons item items ih =>
      obtain ⟨o₁, hadd, hfold⟩ := Option.bind_eq_some_iff.1 (List.foldlM_cons.symm.trans hfold)
      exact ih (h.add? (hitems item (by simp)) hadd) (fun i hi => hitems i (by simp [hi])) hfold

/-- **Every node of a parsed tree is well formed.** -/
theorem Tree.wellFormed_of_parse {source : String} {t : Tree} (h : Tree.parse source = .ok t) :
    Forest.Every Node.WellFormed t.forest := by
  obtain ⟨-, items, o, hreads, hfold, hforest⟩ := Tree.parse_ok h
  have hstart : Outline.WellFormed {} := List.forall_mem_cons.2 ⟨.empty, by simp⟩
  have ho : o.WellFormed := hstart.foldlM hreads.wellFormed hfold
  rw [Outline.forest?] at hforest
  split at hforest
  · rw [← Option.some.inj hforest]
    exact (ho o.spot (by simp)).forest
  · cases hforest

end Shorthand
