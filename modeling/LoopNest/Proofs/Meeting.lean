import LoopNest.Proofs.Conflict
/-!
# Accesses that meet in one iteration

Where nothing carries a dependence, its accesses are taken to touch one element in one iteration
only, and the order of statements is all that counts.  Along a root whose first index stands in one
place in both accesses that is so: instances that touch one element through them are at one value of
its loop (`meets_of_independent`), whatever else the accesses index and in which order, and
whether through a root or through part of it.

Where the places differ the distance compares coordinates that have nothing to do with each other.
A transposition in place is found to meet in one iteration, and does not (`not_meets_transpose`).
-/

namespace LoopNest

open Lowered

/-- If nothing carries the dependence of two accesses, instances that touch one element through them
are at one value along every root for which the accesses have their first index in one place. -/
theorem meets_of_independent {t : DimTable} {q : AccessPair} {unindexed : Option Int}
    {roots : List DimId} (hq : q.carrier t unindexed roots = .ok .independent) {a b : Lowered}
    {us vs : List Int} {el : Element} (hx : a.element? t us q.first = some el)
    (hy : b.element? t vs q.second = some el) {r : DimId} (hr : r ∈ roots)
    (hplace : q.first.Aligned t r q.second) :
    ∃ v, a.valueAt? t us r = some v ∧ b.valueAt? t vs r = some v := by
  have hd := AccessPair.distance?_of_independent hq r hr
  rw [← elementBy?_none] at hx hy
  obtain ⟨v, w, hv, hw, hzero⟩ := eq_sub_of_distance? (fun _ _ _ => rfl) hplace hx hy hd
  obtain rfl : v = w := by omega
  exact ⟨v, hv, hw⟩

/-- A tensor is written along `y` and `x`, and its diagonals are read along `x` and `y`. -/
def crossing : Program :=
  overPlane []
    [⟨⟨"u", [.fixed ⟨1⟩ 1, .fixed ⟨0⟩ 0, .fixed ⟨0⟩ 3]⟩, .int 1, [], []⟩,
     ⟨⟨"v", [.fixed ⟨0⟩ 0]⟩, .access "u" [.fixed ⟨1⟩ 1, .fixed ⟨0⟩ 0, .fixed ⟨0⟩ 3], [], []⟩]

/-- A tensor is transposed in place. -/
def transpose : Program :=
  overPlane []
    [⟨⟨"u", [.fixed ⟨0⟩ 0, .fixed ⟨1⟩ 0]⟩, .access "u" [.fixed ⟨1⟩ 0, .fixed ⟨0⟩ 0], [], []⟩]

theorem meets_of_independent_crossing :
    ∃ es, crossing.lower.result = .ok es ∧
      ∃ a ∈ es, ∃ b ∈ es, ∃ q ∈ crossPairs crossing.dims a b,
        commonRoots crossing.dims a b = [⟨1⟩, ⟨0⟩] ∧ b.roots crossing.dims = [⟨0⟩, ⟨1⟩] ∧
        q.carrier crossing.dims (some 0) (commonRoots crossing.dims a b) = .ok .independent ∧
        a.element? crossing.dims [1, 0] q.first = some ⟨"u", [2, 0, 3]⟩ ∧
        b.element? crossing.dims [0, 1] q.second = some ⟨"u", [2, 0, 3]⟩ ∧
        ∃ v, a.valueAt? crossing.dims [1, 0] ⟨0⟩ = some v ∧
          b.valueAt? crossing.dims [0, 1] ⟨0⟩ = some v := by
  have facts : ∃ es, crossing.lower.result = .ok es ∧
      ∃ a ∈ es, ∃ b ∈ es, ∃ q ∈ crossPairs crossing.dims a b,
        commonRoots crossing.dims a b = [⟨1⟩, ⟨0⟩] ∧ b.roots crossing.dims = [⟨0⟩, ⟨1⟩] ∧
        q.carrier crossing.dims (some 0) (commonRoots crossing.dims a b) = .ok .independent ∧
        a.element? crossing.dims [1, 0] q.first = some ⟨"u", [2, 0, 3]⟩ ∧
        b.element? crossing.dims [0, 1] q.second = some ⟨"u", [2, 0, 3]⟩ ∧
        q.first.Aligned crossing.dims ⟨0⟩ q.second :=
    ⟨_, rfl, by decide +kernel⟩
  obtain ⟨es, hl, a, ha, b, hb, q, hq, hroots, hb', hc, hx, hy, hplace⟩ := facts
  refine ⟨es, hl, a, ha, b, hb, q, hq, hroots, hb', hc, hx, hy, ?_⟩
  exact meets_of_independent hc hx hy (hroots ▸ by decide) hplace

/-- Nothing carries the dependence of a transposition in place, yet the instances at `(0, 1)` and
at `(1, 0)` touch one element. -/
theorem not_meets_transpose :
    ∃ es, transpose.lower.result = .ok es ∧
      ∃ e ∈ es, ∃ read ∈ e.readsOf transpose.dims e.write.tensor,
        commonRoots transpose.dims e e = [⟨0⟩, ⟨1⟩] ∧
        (e.selfPair read).carrier transpose.dims none (commonRoots transpose.dims e e) =
          .ok .independent ∧
        e.element? transpose.dims [0, 1] e.write = some ⟨"u", [0, 1]⟩ ∧
        e.element? transpose.dims [1, 0] read = some ⟨"u", [0, 1]⟩ ∧
        ∀ r ∈ commonRoots transpose.dims e e,
          r ∈ e.write.roots transpose.dims ∧ r ∈ read.roots transpose.dims ∧
          e.valueAt? transpose.dims [0, 1] r ≠ e.valueAt? transpose.dims [1, 0] r :=
  ⟨_, rfl, by decide +kernel⟩

end LoopNest
