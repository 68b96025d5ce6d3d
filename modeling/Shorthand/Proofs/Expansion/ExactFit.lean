import Shorthand.Proofs.Expansion.Outcome
import Shorthand.Proofs.Tree.Builder

/-!
# When a limit cuts

An expansion that has no more nodes than the limit allows ought to be left whole. It is, unless it
has just as many and the abbreviation ends void: the budget is looked at once more than there are
nodes, and what was reported as cut takes every unfinished copy around it along.
-/

namespace Shorthand.Expansion

variable {t : Tree}

theorem length_contents_unroll (h : t.Sound) :
    (unroll t).1.contents.length = Forest.size (Forest.expand t.forest) := by
  rw [unroll, contents_unrollWithin h, (Forest.unrolls_expandWithin t.forest).unbounded,
    Forest.length_preorder]

theorem truncated_unrollWithin_iff (h : t.Sound) (limit : Nat) :
    (unrollWithin (some limit) t).2.truncated = true ↔ limit < Forest.need t.forest := by
  rw [(yields_unrollWithin h (some limit)).2]
  exact (Forest.unrolls_expandWithin t.forest).truncated_iff limit

/-- **When a limit cuts.** The flag is set if the expansion has more nodes than the limit, and also
if it has as many and the forest ends void. That second case is the only one in which an expansion
that fits is not left alone. -/
theorem unrollLimited_truncated_iff {source : String} (hparse : Tree.parse source = .ok t) {limit : Nat}
    (hpos : 1 ≤ limit) :
    ((unrollLimited t limit).2.truncated = true ↔
        limit < (unroll t).1.contents.length ∨
          limit = (unroll t).1.contents.length ∧ Forest.endsVoid t.forest = true) ∧
      (((unroll t).1.contents.length ≤ limit →
          (unrollLimited t limit).1.contents = (unroll t).1.contents ∧
            (unrollLimited t limit).2.truncated = false) ↔
        ¬(limit = (unroll t).1.contents.length ∧ Forest.endsVoid t.forest = true)) := by
  have h := (Tree.parse_ok hparse).1
  have hlimited : unrollLimited t limit = unrollWithin (some limit) t := by
    rw [unrollLimited_eq, if_neg (by omega)]
  have hcut : (unrollLimited t limit).2.truncated = true ↔
      limit < (unroll t).1.contents.length ∨
        limit = (unroll t).1.contents.length ∧ Forest.endsVoid t.forest = true := by
    rw [hlimited, truncated_unrollWithin_iff h, length_contents_unroll h, Forest.need]
    cases Forest.endsVoid t.forest with
    | false => simp
    | true =>
        simp only [Bool.toNat_true, and_true]
        omega
  refine ⟨hcut, ?_⟩
  constructor
  · -- Where the forest ends void, the flag is set although all nodes fit.
    intro hfits hexact
    have hwhole := (hfits (by omega)).2
    rw [hcut.2 (Or.inr hexact)] at hwhole
    exact absurd hwhole (by simp)
  · -- Anywhere else what fits is not cut, and what is not cut is the whole expansion.
    intro hexact hle
    have hwhole : (unrollLimited t limit).2.truncated = false := by
      refine Bool.eq_false_iff.2 fun htrue => ?_
      rcases hcut.1 htrue with hlt | heq
      · omega
      · exact hexact heq
    refine ⟨?_, hwhole⟩
    rw [hlimited] at hwhole ⊢
    rw [(yields_unrollWithin h (some limit)).2] at hwhole
    rw [unroll, contents_unrollWithin h, contents_unrollWithin h,
      (Forest.unrolls_expandWithin t.forest).unbounded,
      (Forest.unrolls_expandWithin t.forest).eq_full hwhole]

/-- The only node of `(a+b*0)*1` is dropped within a limit of one: the copy of the group is not
finished when the budget is looked at for `b*0`. -/
theorem unrollLimited_void_end : ∃ t, Tree.parse "(a+b*0)*1" = .ok t ∧ 1 ≤ 1 ∧
    (unroll t).1.contents.length = 1 ∧ (unrollLimited t 1).2.truncated = true ∧
    (unrollLimited t 1).1.contents = [] := by
  obtain ⟨t, hparse, hresult⟩ : ∃ t, Tree.parse "(a+b*0)*1" = .ok t ∧
      ((unroll t).1.contents.length, Forest.endsVoid t.forest, (unrollLimited t 1).1.contents) =
        (1, true, []) := by
    refine Tree.exists_parse_of_map ?_
    decide +kernel
  obtain ⟨hone, hvoid, hdropped⟩ : (unroll t).1.contents.length = 1 ∧
      Forest.endsVoid t.forest = true ∧ (unrollLimited t 1).1.contents = [] := by
    simpa using hresult
  have hcut := (unrollLimited_truncated_iff hparse (Nat.le_refl 1)).1.2 (Or.inr ⟨hone.symm, hvoid⟩)
  exact ⟨t, hparse, Nat.le_refl 1, hone, hcut, hdropped⟩

end Shorthand.Expansion
