import Shorthand.Proofs.Expansion.Script
import Shorthand.Proofs.Tree.Builder

/-!
# The links always agree

Whatever is done to a tree, starting from the lone root or from an abbreviation, its links agree:
every node has one sequence of children, and is in the sequence of its parent. This holds even where
a node has been put below itself; as long as nobody asks for that, the tree has no cycle either
(`links_agree`).

Parsing makes its edits in the order of the items (`Builder.script`). The context that an element or
a group goes to is never below it, since the node of an open group is detached until the group is
closed.
-/

namespace Shorthand

/-! ### The edits of a parser -/

namespace Builder

open Shorthand.Tree

variable {t : Tree} {context : NodeId} {groups : List OpenGroup} {s : Spot} {around : List Spot}

/-- The edits that close a group. -/
def closeScript (t : Tree) (group : OpenGroup) : Option Repeat → List Edit
  | none => (t.children group.node).map fun child => .append group.context child
  | some r =>
    [.modifyNode group.node fun n => { n with repeats := some r },
      .append group.context group.node]

/-- The edits that put an item into the tree. -/
def itemScript (b : Builder) : Item → List Edit
  | .groupStart => [.push {}]
  | .groupEnd repeats =>
    match b.groups with
    | [] => []
    | group :: _ => closeScript b.tree group repeats
  | .element node _ => [.push node, .append b.context b.tree.nextId]

/-- The edits that read the remaining items into the tree, up to the first fault if there is one. -/
def script (b : Builder) (c : Cursor) : List Edit :=
  if c.atEnd then []
  else
    match _h : Item.read c with
    | .error _ => []
    | .ok (item, c') =>
      match b.add? c item with
      | none => []
      | some b' => b.itemScript item ++ b'.script c'
termination_by c.rest.length
decreasing_by exact Item.length_rest_of_read _h

theorem close_eq_play (t : Tree) (group : OpenGroup) (repeats : Option Repeat) :
    close t group repeats = t.play (closeScript t group repeats) := by
  cases repeats with
  | none =>
      rw [close, closeScript, play, List.foldl_map]
      rfl
  | some r => rfl

theorem add_eq_play {b b' : Builder} {c : Cursor} {item : Item} (h : b.add? c item = some b') :
    b'.tree = b.tree.play (b.itemScript item) := by
  obtain ⟨t, context, groups⟩ := b
  cases item with
  | groupStart =>
      obtain rfl := Option.some.inj h
      rfl
  | element node joint =>
      obtain rfl := Option.some.inj h
      rfl
  | groupEnd repeats =>
      cases groups with
      | nil => simp [add?] at h
      | cons group groups =>
          obtain rfl := Option.some.inj h
          exact close_eq_play t group repeats

/-- Items are read from `c` on and put into the tree, which takes the edits, until the builder is
`b'` at `c'`. -/
inductive Plays : Builder → Cursor → List Edit → Builder → Cursor → Prop where
  | none (b : Builder) (c : Cursor) : Plays b c [] b c
  | item {b b' b'' : Builder} {c c' c'' : Cursor} {item : Item} {edits : List Edit}
      (hread : Item.read c = .ok (item, c')) (hadd : b.add? c item = some b')
      (rest : Plays b' c' edits b'' c'') : Plays b c (b.itemScript item ++ edits) b'' c''

/-- Nothing is left to be read, or it does not start with an item that can be put into the tree. -/
def Stops (b : Builder) (c : Cursor) : Prop :=
  c.atEnd = true ∨ ∀ item c', Item.read c = .ok (item, c') → b.add? c item = none

theorem Plays.tree_eq {b b' : Builder} {c c' : Cursor} {edits : List Edit}
    (h : Plays b c edits b' c') : b'.tree = b.tree.play edits := by
  induction h with
  | none b c => rfl
  | item hread hadd rest ih => rw [ih, play_append, add_eq_play hadd]

/-- The script has the edits of all items that are put into the tree. What becomes of the rest, a
finished tree or a fault, takes no further edit. -/
theorem exists_plays (b : Builder) (c : Cursor) :
    ∃ b' c', Plays b c (b.script c) b' c' ∧ b'.Stops c' ∧ b.run c = b'.run c' := by
  fun_induction Builder.script b c with
  | case1 b c hend => exact ⟨b, c, .none b c, .inl hend, rfl⟩
  | case2 b c hend failure hread =>
      exact ⟨b, c, .none b c, .inr fun item c' hread' => by simp [hread] at hread', rfl⟩
  | case3 b c hend item c' hread hadd =>
      refine ⟨b, c, .none b c, .inr fun item' c₁ hread' => ?_, rfl⟩
      obtain ⟨rfl, rfl⟩ : item = item' ∧ c' = c₁ := by simpa [hread] using hread'
      exact hadd
  | case4 b c hend item c' hread b' hadd ih =>
      obtain ⟨b₁, c₁, hplays, hstops, hrun⟩ := ih
      refine ⟨b₁, c₁, .item hread hadd hplays, hstops, ?_⟩
      rw [← hrun, Builder.run, if_neg hend]
      split <;> simp_all

/-- Where reading stops, the tree is not changed any more. -/
theorem Stops.tree_eq {b : Builder} {c : Cursor} (h : b.Stops c) {t : Tree} (hrun : b.run c = .ok t) :
    t = b.tree := by
  rw [Builder.run] at hrun
  split at hrun
  · rw [finish] at hrun
    split at hrun
    · exact (Except.ok.inj hrun).symm
    · exact absurd hrun (by simp)
  · next hend =>
      rcases h with hend' | hnone
      · exact absurd hend' hend
      · split at hrun
        · exact absurd hrun (by simp)
        · next hread =>
            rw [hnone _ _ hread] at hrun
            exact absurd hrun (by simp)

theorem run_eq_play {b : Builder} {c : Cursor} {t : Tree} (h : b.run c = .ok t) :
    t = b.tree.play (b.script c) := by
  obtain ⟨b', c', hplays, hstops, hrun⟩ := exists_plays b c
  rw [← hplays.tree_eq]
  exact hstops.tree_eq (hrun.symm.trans h)

/-- Children that are handed over to a node which is not below their parent are never put below
themselves. -/
theorem along_handOver {p s : NodeId} : ∀ (rest : List NodeId) {t : Tree}, t.Coherent →
    p.index < t.size → ¬t.Below s p → rest.Nodup → (∀ c ∈ rest, t.parent c = some s) →
    Along Edit.apply Edit.Fits t (rest.map fun c => Edit.append p c)
  | [], _, _, _, _, _, _ => trivial
  | c :: rest, t, h, hp, hb, hnd, hrest => by
      rw [List.nodup_cons] at hnd
      have hc : t.parent c = some s := hrest c (by simp)
      have hclt := (h.spells.inside s c ((h.spells.parent_iff c s).1 hc)).1
      have hparent := h.spells.parent_append hclt hp
      have hfits : (Edit.append p c).Fits t :=
        ⟨⟨hp, hclt⟩, fun _ hbelow => hb (Below.of_parent hc hbelow)⟩
      -- The move takes `c` away from `s` and puts nothing below `s`.
      have hless : ∀ x, (t.append p c).Below s x → t.Below s x := by
        intro x hx
        induction hx with
        | refl => exact Below.refl s
        | @tail q y _ hy ih =>
            rw [hparent] at hy
            by_cases hyc : y = c
            · rw [if_pos hyc] at hy
              exact absurd (Option.some.inj hy ▸ ih) hb
            · rw [if_neg hyc] at hy
              exact ih.child hy
      refine ⟨hfits, along_handOver rest (h.apply hfits.1) ?_ (mt (hless p) hb) hnd.2 ?_⟩
      · exact Nat.lt_of_lt_of_le hp (Edit.size_le_apply t _)
      · intro x hx
        have hxc : x ≠ c := fun heq => hnd.1 (heq ▸ hx)
        show (t.append p c).parent x = some s
        rw [hparent, if_neg hxc, hrest x (by simp [hx])]

theorem Holds.along_item (h : Holds t context groups s around) (item : Item) :
    Along Edit.apply Edit.Fits t (itemScript ⟨t, context, groups⟩ item) := by
  cases item with
  | groupStart => exact ⟨Edit.fits_push {}, trivial⟩
  | element node joint =>
      exact ⟨Edit.fits_push node, h.sound.coherent.fits_append_nextId node h.context_lt, trivial⟩
  | groupEnd repeats =>
      cases groups with
      | nil => trivial
      | cons group groups =>
          cases around with
          | nil => exact h.levels.elim
          | cons s' around =>
              have hcontext := h.outer.context_lt
              have hbelow := h.not_below_context
              have hnode := h.inside group.node List.mem_cons_self
              cases repeats with
              | none =>
                  refine along_handOver _ h.sound.coherent hcontext hbelow
                    (h.sound.nodup_children _) fun c hc => ?_
                  exact h.sound.parent_eq_some_iff.2 hc
              | some r =>
                  refine ⟨Edit.fits_modifyNode hnode _, ⟨⟨?_, ?_⟩, fun _ hb => hbelow ?_⟩, trivial⟩
                  · simpa [Edit.apply] using hcontext
                  · simpa [Edit.apply] using hnode
                  · exact hb.mono fun c p _ hc => by
                      rwa [Edit.apply, Tree.parent, links_modifyNode, ← Tree.parent] at hc

theorem along_script (b : Builder) (c : Cursor) {o : Outline}
    (h : Holds b.tree b.context b.groups o.spot o.around) :
    Along Edit.apply Edit.Fits b.tree (b.script c) := by
  fun_induction Builder.script b c generalizing o with
  | case1 => trivial
  | case2 => trivial
  | case3 => trivial
  | case4 b c hend item c' hread b' hadd ih =>
      refine along_play_append.2 ⟨h.along_item item, ?_⟩
      rw [← add_eq_play hadd]
      rcases h.add c item with ⟨b₁, o₁, hb, -, hnext⟩ | ⟨hb, -⟩
      · obtain rfl : b' = b₁ := by simpa [hadd] using hb
        exact ih hnext
      · simp [hadd] at hb

end Builder

namespace Tree

/-- The edits that parsing makes on the tree of a lone root. -/
def parseScript (source : String) : List Edit :=
  Builder.start.script (Cursor.ofList (Text.trim source.toList))

theorem parse_eq_play {source : String} {t : Tree} (h : Tree.parse source = .ok t) :
    t = Tree.empty.play (parseScript source) :=
  Builder.run_eq_play h

theorem along_parse (source : String) :
    Along Edit.apply Edit.Fits Tree.empty (parseScript source) :=
  Builder.along_script Builder.start _ (o := {}) Builder.holds_start

/-! ### Operations -/

/-- What can be done to a tree: one of the edits, or an operation that makes several. -/
inductive Operation where
  | edit (e : Edit)
  | splice (id : NodeId)
  | copyNode (id : NodeId)
  | copyTree (id : NodeId)
  | unroll
  | unrollLimited (limit : Nat)
  | expand (options : Expansion.Options)

namespace Operation

/-- Does it. An expansion that is refused changes nothing. -/
def apply (t : Tree) : Operation → Tree
  | edit e => e.apply t
  | splice id => (t.splice id).1
  | copyNode id => t.copyNode id
  | copyTree id => t.copyTree id
  | unroll => (Expansion.unroll t).1
  | unrollLimited limit => (Expansion.unrollLimited t limit).1
  | expand options =>
    match Expansion.expand options t with
    | .ok result => result.1
    | .error _ => t

/-- The operation names nodes of the tree only. -/
def Within (t : Tree) : Operation → Prop
  | edit e => e.Within t
  | splice id => id.index < t.size
  | copyNode id => id.index < t.size
  | copyTree id => id.index < t.size
  | _ => True

/-- The operation does not ask for a node to be put below itself. Only single edits can do so. -/
def Permitted (t : Tree) : Operation → Prop
  | edit e => e.Permitted t
  | _ => True

/-- The edits that the operation makes. -/
def script (t : Tree) : Operation → List Edit
  | edit e => [e]
  | splice id => t.spliceScript id
  | copyNode id => [.push (t.node id)]
  | copyTree id => t.copyTreeScript id
  | unroll => Expansion.unrollScript none t
  | unrollLimited limit =>
    Expansion.unrollScript (({} : Expansion.Options).withLimit limit).budget.limit? t
  | expand options =>
    match Expansion.expand options t with
    | .ok _ => Expansion.unrollScript options.budget.limit? t
    | .error _ => []

theorem apply_eq_play (t : Tree) (op : Operation) : op.apply t = t.play (op.script t) := by
  cases op with
  | edit e => rfl
  | splice id => exact splice_eq_play t id
  | copyNode id => rfl
  | copyTree id => exact copyTree_eq_play t id
  | unroll => exact Expansion.unrollWithin_eq_play none t
  | unrollLimited limit => exact Expansion.unrollWithin_eq_play _ t
  | expand options =>
      rw [apply, script]
      cases hexpand : Expansion.expand options t with
      | error refusal => rfl
      | ok result =>
          rw [← Expansion.unrollWithin_of_expand hexpand]
          exact Expansion.unrollWithin_eq_play _ t

/-- **An operation keeps the links in agreement, and a permitted one keeps the tree acyclic:**
whatever makes several edits makes permitted ones only. -/
theorem keeps {t : Tree} (h : t.Coherent) {op : Operation} (hop : op.Within t) :
    (op.apply t).Coherent ∧ (t.Acyclic → op.Permitted t → (op.apply t).Acyclic) := by
  have hplay : ∀ es : List Edit, Along Edit.apply Edit.Fits t es →
      (t.play es).Coherent ∧ (t.Acyclic → op.Permitted t → (t.play es).Acyclic) := fun es hes =>
    ⟨h.play hes, fun hacyclic _ => (Sound.play ⟨h, hacyclic⟩ hes).acyclic⟩
  rw [apply_eq_play]
  cases op with
  | edit e =>
      refine ⟨h.apply hop, fun hacyclic hp => ?_⟩
      exact (Sound.apply ⟨h, hacyclic⟩ hop hp).acyclic
  | splice id => exact hplay _ (h.along_splice hop)
  | copyNode id => exact hplay _ ⟨Edit.fits_push _, trivial⟩
  | copyTree id => exact hplay _ (h.along_copyTree id).1
  | unroll => exact hplay _ (Expansion.along_unroll h none)
  | unrollLimited limit => exact hplay _ (Expansion.along_unroll h _)
  | expand options =>
      refine hplay _ ?_
      rw [script]
      split
      · exact Expansion.along_unroll h _
      · trivial

end Operation

/-- Does one operation after the other. -/
def perform (t : Tree) (ops : List Operation) : Tree :=
  ops.foldl Operation.apply t

theorem Coherent.perform {t : Tree} (h : t.Coherent) {ops : List Operation}
    (hops : Along Operation.apply Operation.Within t ops) : (t.perform ops).Coherent :=
  hops.keeps (I := Coherent) (fun _ _ ht hop => (Operation.keeps ht hop).1) h

theorem Sound.perform {t : Tree} (h : t.Sound) {ops : List Operation}
    (hops : Along Operation.apply Operation.Within t ops)
    (hpermitted : Along Operation.apply Operation.Permitted t ops) : (t.perform ops).Sound :=
  (hops.and hpermitted).keeps (I := Sound)
    (fun _ _ ht hop =>
      have hkeeps := Operation.keeps ht.coherent hop.1
      ⟨hkeeps.1, hkeeps.2 ht.acyclic hop.2⟩) h

/-- **The links always agree.** After any operations on the nodes of a tree, from the lone root or
an abbreviation on, every node has one sequence of children, which its links and theirs spell out,
and a node without a parent has no siblings. The tree is acyclic as long as no edit asks for a node
to be put below itself, and neither parsing nor unrolling makes an edit that does. The edits of a
parse, whether it ends with a tree or with a fault, are those of its items one after the other, and
the edits of an unrolling those of its steps; each item and each step does to the tree what its
edits do. -/
theorem links_agree {t₀ : Tree} (hstart : t₀ = Tree.empty ∨ ∃ source, Tree.parse source = .ok t₀)
    {ops : List Operation} (hops : Along Operation.apply Operation.Within t₀ ops) :
    (t₀.perform ops).Coherent ∧
      (∀ p, p.index < (t₀.perform ops).size →
        (t₀.perform ops).Children p ((t₀.perform ops).children p)) ∧
      (Along Operation.apply Operation.Permitted t₀ ops → (t₀.perform ops).Acyclic) ∧
      (∀ source, Along Edit.apply Edit.Permitted Tree.empty (parseScript source) ∧
        ∀ t, Tree.parse source = .ok t → t = Tree.empty.play (parseScript source)) ∧
      (∀ limit, (Expansion.unrollWithin limit (t₀.perform ops)).1 =
          (t₀.perform ops).play (Expansion.unrollScript limit (t₀.perform ops)) ∧
        ((t₀.perform ops).Acyclic →
          Along Edit.apply Edit.Permitted (t₀.perform ops)
            (Expansion.unrollScript limit (t₀.perform ops)))) ∧
      (∀ source, ∃ b c, b.Stops c ∧ Tree.parse source = b.run c ∧
        Builder.start.Plays (Cursor.ofList (Text.trim source.toList)) (parseScript source) b c) ∧
      (∀ (b b' : Builder) (c : Cursor) (item : Item), b.add? c item = some b' →
        b'.tree = b.tree.play (b.itemScript item)) ∧
      ∀ (t : Tree) (budget : Expansion.Budget) (stack : List Expansion.Frame)
        (frame : Expansion.Frame), (Expansion.Work.step t budget stack frame).tree =
          t.play (Expansion.stepScript t budget frame) := by
  have h₀ : t₀.Sound := by
    rcases hstart with rfl | ⟨source, hparse⟩
    · exact Sound.empty
    · exact (parse_ok hparse).1
  have h : (t₀.perform ops).Coherent := h₀.coherent.perform hops
  refine ⟨h, fun p _ => h.spells.toChildren p, fun hp => (h₀.perform hops hp).acyclic, ?_, ?_, ?_,
    fun _ _ _ _ => Builder.add_eq_play, Expansion.step_eq_play⟩
  · exact fun source => ⟨Sound.empty.permitted (along_parse source), fun t => parse_eq_play⟩
  · intro limit
    refine ⟨Expansion.unrollWithin_eq_play limit _, fun hacyclic => ?_⟩
    exact Sound.permitted ⟨h, hacyclic⟩ (Expansion.along_unroll h limit)
  · intro source
    obtain ⟨b, c, hplays, hstops, hrun⟩ :=
      Builder.start.exists_plays (Cursor.ofList (Text.trim source.toList))
    exact ⟨b, c, hstops, hrun, hplays⟩

/-- The last node is moved into a group in front of it, the group is dissolved, one of its nodes is
copied, and all is unrolled. -/
theorem links_agree_moved : ∃ t₀, Tree.parse "(a+b)*2+c" = .ok t₀ ∧
    (t₀.perform [.edit (.insertBefore ⟨4⟩ ⟨2⟩), .splice ⟨1⟩, .copyTree ⟨2⟩, .unroll]).Coherent ∧
    (t₀.perform [.edit (.insertBefore ⟨4⟩ ⟨2⟩), .splice ⟨1⟩, .copyTree ⟨2⟩, .unroll]).Acyclic := by
  obtain ⟨t₀, hparse, hlinks⟩ : ∃ t₀, Tree.parse "(a+b)*2+c" = .ok t₀ ∧
      (t₀.size, t₀.parent ⟨2⟩, t₀.parent ⟨1⟩, t₀.parent ⟨0⟩) = (5, some ⟨1⟩, some ⟨0⟩, none) :=
    Tree.exists_parse_of_map (by decide +kernel)
  simp only [Prod.mk.injEq] at hlinks
  obtain ⟨hsize, hparent, hgroup, hroot⟩ := hlinks
  have hwithin : Along Operation.apply Operation.Within t₀
      [.edit (.insertBefore ⟨4⟩ ⟨2⟩), .splice ⟨1⟩, .copyTree ⟨2⟩, .unroll] := by
    simp [Along, Operation.Within, Edit.Within, Operation.apply, Edit.apply, hsize]
  have hpermitted : Along Operation.apply Operation.Permitted t₀
      [.edit (.insertBefore ⟨4⟩ ⟨2⟩), .splice ⟨1⟩, .copyTree ⟨2⟩, .unroll] := by
    refine ⟨fun p hp hb => ?_, trivial, trivial, trivial, trivial⟩
    obtain rfl : ⟨1⟩ = p := Option.some.inj (hparent.symm.trans hp)
    -- Above the group there is the root only.
    rcases hb.cases with h | ⟨q, hq, hb⟩
    · simp at h
    · obtain rfl : ⟨0⟩ = q := Option.some.inj (hgroup.symm.trans hq)
      rcases hb.cases with h | ⟨q, hq, -⟩
      · simp at h
      · simp [hroot] at hq
  have h := links_agree (Or.inr ⟨_, hparse⟩) hwithin
  exact ⟨t₀, hparse, h.1, h.2.2.1 hpermitted⟩

end Tree

end Shorthand
