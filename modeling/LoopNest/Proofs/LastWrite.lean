import LoopNest.Proofs.Causality
import LoopNest.Proofs.Fusion
import LoopNest.Proofs.Rewriting
/-!
# The last write before a read

An equation may write one element at many of its instances, and then it matters which of them comes
last before another equation reads the element.  Without fusion all instances of the one equation
come before those of the other, and the last one is read.  With fusion it is the same as long as
every loop that holds both equations runs along a root that both accesses index: then all instances
that write the element still come first (`WrittenBefore.before`), and in the same order
(`WrittenBefore.sorted`).  `keepsLastWrites_of_schedule` compares the two runs.

Two equations may also share a loop over a root that neither access indexes, as the analysis takes
such accesses to meet where they are.  There each iteration reads what the same iteration has
written (`Plan.Sound.meetsLastWrites`), and without fusion what the last iteration has
(`onePlace`).
-/

namespace LoopNest

open Lowered

/-! ## Lists -/

theorem takeWhile_ne_append_cons {α : Type} [DecidableEq α] {s t : List α} {y : α} (h : y ∉ s) :
    (s ++ y :: t).takeWhile (· ≠ y) = s := by
  have hs : ∀ x ∈ s, decide (x ≠ y) = true := by
    intro x hx
    rw [decide_eq_true_eq]
    rintro rfl
    exact h hx
  rw [List.takeWhile_append_of_pos hs, List.takeWhile_cons_of_neg (by simp), List.append_nil]

/-! ## Last writes -/

/-- The instance is one of the equation's and writes the element, with what symbolic displacements
are worth at each instance. -/
def Instance.WritesBy (t : DimTable) (worth : Instance → Expr → Option Int) (a : Lowered)
    (el : Element) (x : Instance) : Prop :=
  x.equation = a.index ∧ a.elementBy? (worth x) t x.values a.write = some el

instance (t : DimTable) (worth : Instance → Expr → Option Int) (a : Lowered) (el : Element)
    (x : Instance) : Decidable (x.WritesBy t worth a el) :=
  inferInstanceAs
    (Decidable (x.equation = a.index ∧ a.elementBy? (worth x) t x.values a.write = some el))

/-- The last instance of an equation that writes an element before another instance in a run. -/
def lastWrite? (t : DimTable) (worth : Instance → Expr → Option Int) (a : Lowered) (el : Element)
    (y : Instance) (xs : List Instance) : Option Instance :=
  ((xs.takeWhile (· ≠ y)).filter fun x => x.WritesBy t worth a el).getLast?

/-- In both runs each instance of `b` finds the element it reads written last by the same instance
of `a`. -/
def KeepsLastWrites (t : DimTable) (worth : Instance → Expr → Option Int) (a b : Lowered)
    (read : Access) (xs ys : List Instance) : Prop :=
  ∀ y ∈ xs, y.equation = b.index → ∀ el, b.elementBy? (worth y) t y.values read = some el →
    lastWrite? t worth a el y xs = lastWrite? t worth a el y ys

/-- In the run, all instances of `a` that write what an instance of `b` reads come before it, and
they come in the order of their values. -/
structure WrittenBefore (t : DimTable) (worth : Instance → Expr → Option Int) (a b : Lowered)
    (read : Access) (xs : List Instance) : Prop where
  before : ∀ {i j : Nat} {x y : Instance} {el : Element}, xs[i]? = some x → xs[j]? = some y →
    x.WritesBy t worth a el → y.equation = b.index →
    b.elementBy? (worth y) t y.values read = some el → i < j
  sorted : ∀ el, (xs.filter fun x => x.WritesBy t worth a el).Pairwise fun x y => x.values < y.values

instance (t : DimTable) (worth : Instance → Expr → Option Int) (a b : Lowered) (read : Access)
    (xs ys : List Instance) : Decidable (KeepsLastWrites t worth a b read xs ys) :=
  inferInstanceAs (Decidable (∀ y ∈ xs, y.equation = b.index →
    ∀ el ∈ b.elementBy? (worth y) t y.values read,
      lastWrite? t worth a el y xs = lastWrite? t worth a el y ys))

section Runs

variable {t : DimTable} {worth : Instance → Expr → Option Int} {a b : Lowered} {read : Access}
  {el : Element} {x y : Instance} {xs ys : List Instance}

theorem not_mem_of_lt {first rest : List Instance}
    (hlt : ∀ {i j : Nat}, (first ++ y :: rest)[i]? = some x → (first ++ y :: rest)[j]? = some y →
      i < j) : x ∉ y :: rest := by
  intro hx
  obtain ⟨k, hk⟩ := List.mem_iff_getElem?.mp hx
  have hx' : (first ++ y :: rest)[first.length + k]? = some x := by
    rw [List.getElem?_append_right (Nat.le_add_right _ _), Nat.add_sub_cancel_left, hk]
  have hy' : (first ++ y :: rest)[first.length]? = some y := by
    rw [List.getElem?_append_right (Nat.le_refl _), Nat.sub_self]
    rfl
  have := hlt hx' hy'
  omega

theorem lastWrite?_eq_getLast? (hy : y ∈ xs)
    (hall : ∀ {i j : Nat} {x : Instance}, xs[i]? = some x → xs[j]? = some y →
      x.WritesBy t worth a el → i < j) :
    lastWrite? t worth a el y xs = (xs.filter fun x => x.WritesBy t worth a el).getLast? := by
  obtain ⟨first, rest, rfl, hnew⟩ := List.eq_append_cons_of_mem hy
  have hrest : (y :: rest).filter (fun x => x.WritesBy t worth a el) = [] := by
    refine List.filter_eq_nil_iff.mpr fun x hx hw => ?_
    exact not_mem_of_lt (fun hi hj => hall hi hj (of_decide_eq_true hw)) hx
  rw [lastWrite?, takeWhile_ne_append_cons hnew, List.filter_append, hrest, List.append_nil]

/-- In an ordered run, the last write before an instance stands between that instance and any write
before it. -/
theorem exists_lastWrite? {r : Instance → Instance → Prop} (hr : xs.Pairwise r) (hx : x ∈ xs)
    (hy : y ∈ xs) (hlt : ∀ {i j : Nat}, xs[i]? = some x → xs[j]? = some y → i < j)
    (hw : x.WritesBy t worth a el) :
    ∃ z, lastWrite? t worth a el y xs = some z ∧ z.WritesBy t worth a el ∧ r z y ∧
      (x = z ∨ r x z) := by
  obtain ⟨first, rest, rfl, hnew⟩ := List.eq_append_cons_of_mem hy
  have hfirst : x ∈ first := (List.mem_append.mp hx).resolve_right (not_mem_of_lt hlt)
  have hmem : x ∈ first.filter fun x => x.WritesBy t worth a el :=
    List.mem_filter.mpr ⟨hfirst, decide_eq_true hw⟩
  obtain ⟨hordered, _, hcross⟩ := List.pairwise_append.mp hr
  rw [lastWrite?, takeWhile_ne_append_cons hnew]
  obtain ⟨z, hz⟩ := Option.isSome_iff_exists.mp (List.getLast?_isSome.mpr (List.ne_nil_of_mem hmem))
  obtain ⟨hzfirst, hzw⟩ := List.mem_filter.mp (List.mem_of_getLast? hz)
  refine ⟨z, hz, of_decide_eq_true hzw, hcross z hzfirst y List.mem_cons_self, ?_⟩
  obtain ⟨before, hbefore⟩ := List.getLast?_eq_some_iff.mp hz
  have hwrites := hordered.filter fun x => x.WritesBy t worth a el
  rw [hbefore] at hmem hwrites
  rcases List.mem_append.mp hmem with hmem | hmem
  · exact Or.inr ((List.pairwise_append.mp hwrites).2.2 x hmem z (List.mem_singleton.mpr rfl))
  · exact Or.inl (List.mem_singleton.mp hmem)

theorem WrittenBefore.keepsLastWrites (h : WrittenBefore t worth a b read xs)
    (h' : WrittenBefore t worth a b read ys) (hperm : xs.Perm ys) :
    KeepsLastWrites t worth a b read xs ys := by
  intro y hy hyb el hel
  rw [lastWrite?_eq_getLast? hy fun hi hj hw => h.before hi hj hw hyb hel,
    lastWrite?_eq_getLast? (hperm.mem_iff.mp hy) fun hi hj hw => h'.before hi hj hw hyb hel]
  refine congrArg List.getLast? (List.Perm.eq_of_pairwise ?_ (h.sorted el) (h'.sorted el)
    (hperm.filter _))
  intro x z _ _ hxz hzx
  exact absurd hzx (List.lt_asymm hxz)

end Runs

namespace ScheduleTree

/-- Every loop that holds both equations runs along a root for which the write and the read have
their first index in one place. -/
def SharesAligned (t : DimTable) (tree : ScheduleTree) (a b : Lowered) (read : Access) : Prop :=
  ∀ l ∈ tree.loops, a.index ∈ tree.equationsOf l.clusters → b.index ∈ tree.equationsOf l.clusters →
    a.write.Aligned t (t.root l.dim) read

/-- Loops along which an equation rewrites its elements run forward, those behind the first one
included. -/
def RewritesForward (t : DimTable) (tree : ScheduleTree) (a : Lowered) : Prop :=
  ∀ l ∈ tree.loops, a.index ∈ tree.equationsOf l.clusters → t.root l.dim ∉ a.write.roots t →
    a.rewriteRoot? t ≠ some (t.root l.dim) → l.direction = .forward

instance (t : DimTable) (tree : ScheduleTree) (a b : Lowered) (read : Access) :
    Decidable (tree.SharesAligned t a b read) :=
  inferInstanceAs (Decidable (∀ l ∈ tree.loops, a.index ∈ tree.equationsOf l.clusters →
    b.index ∈ tree.equationsOf l.clusters → a.write.Aligned t (t.root l.dim) read))

instance (t : DimTable) (tree : ScheduleTree) (a : Lowered) :
    Decidable (tree.RewritesForward t a) :=
  inferInstanceAs (Decidable (∀ l ∈ tree.loops, a.index ∈ tree.equationsOf l.clusters →
    t.root l.dim ∉ a.write.roots t → a.rewriteRoot? t ≠ some (t.root l.dim) →
      l.direction = .forward))

/-- The instances are in one iteration of every loop that holds both equations. -/
def Together (t : DimTable) (tree : ScheduleTree) (a b : Lowered) (x y : Instance) : Prop :=
  ∀ l ∈ tree.loops, a.index ∈ tree.equationsOf l.clusters → b.index ∈ tree.equationsOf l.clusters →
    a.valueAt? t x.values (t.root l.dim) = b.valueAt? t y.values (t.root l.dim)

/-- In the run, an instance of `b` finds an element that `a` writes in the same iteration of the
loops that hold both written last in that iteration. -/
def MeetsLastWrites (t : DimTable) (tree : ScheduleTree) (worth : Instance → Expr → Option Int)
    (a b : Lowered) (xs : List Instance) : Prop :=
  ∀ x ∈ xs, ∀ y ∈ xs, y.equation = b.index → tree.Together t a b x y →
    ∀ el, x.WritesBy t worth a el →
      ∃ z, lastWrite? t worth a el y xs = some z ∧ tree.Together t a b z y

end ScheduleTree

/-! ## Between two points -/

theorem Loop.InOrder.between : ∀ {ls : List Loop} {xs zs ys : List Int},
    Loop.InOrder ls xs zs → Loop.InOrder ls zs ys → (∀ k < ls.length, xs[k]? = ys[k]?) →
      ∀ k < ls.length, zs[k]? = ys[k]?
  | [], _, _, _, _, _, _, k, hk => absurd hk (Nat.not_lt_zero k)
  | l :: ls, _, _, _, .apart (v := v) (w := u) hvu, h, hall, k, hk => by
      exfalso
      cases h with
      | @apart _ _ _ w _ _ huw =>
          have hvw : v = w := Option.some.inj (hall 0 (Nat.succ_pos _))
          subst hvw
          exact Direction.Before.asymm hvu huw
      | same _ =>
          have hvu' : v = u := Option.some.inj (hall 0 (Nat.succ_pos _))
          exact Direction.Before.ne hvu hvu'
  | l :: ls, _, _, _, .same (v := v) hxz, h, hall, k, hk => by
      cases h with
      | @apart _ _ _ w _ _ hvw =>
          exact absurd (Option.some.inj (hall 0 (Nat.succ_pos _))) (Direction.Before.ne hvw)
      | same hzy =>
          cases k with
          | zero => rfl
          | succ k =>
              exact between hxz hzy (fun k hk => hall (k + 1) (Nat.succ_lt_succ hk)) k
                (Nat.lt_of_succ_lt_succ hk)

namespace Plan.Sound

variable {p : Plan} {program : Program} {a b : Lowered} {read : Access} {xs : List Instance}
  {worth : Expr → Option Int}

/-! ## Writes in their order -/

/-- Instances that write one element come in the order of their values, if the loops along which
they are rewritten run forward. -/
theorem writes_sorted (h : p.Sound program) (hxs : Executes p.tree.roots xs)
    (ha : a ∈ p.equations)
    (hforward : ∀ l, p.Settled l → l ∈ p.tree.loops → a.index ∈ p.equationsOf l.clusters →
      p.dims.root l.dim ∉ a.write.roots p.dims → l.direction = .forward) (el : Element) :
    (xs.filter fun x => x.WritesBy p.dims (fun _ => worth) a el).Pairwise fun x y =>
      x.values < y.values := by
  refine (hxs.pairwise.filter _).imp_of_mem fun {x y} hx hy hbefore => ?_
  obtain ⟨hxa, hxel⟩ := of_decide_eq_true (List.mem_filter.mp hx).2
  obtain ⟨hya, hyel⟩ := of_decide_eq_true (List.mem_filter.mp hy).2
  rcases hbefore with ⟨site, hs, us, v, w, hrx, hry, hvw⟩ | hsub
  · obtain ⟨hin, hpx⟩ := h.passes hs hrx ha hxa.symm
    obtain ⟨_, hpy⟩ := h.passes hs hry ha hya.symm
    have hnodup := (h.shaped ha).roots_nodup
    have hroot : p.dims.root site.loop.dim ∉ a.write.roots p.dims := by
      intro hr
      have := valueAt?_eq_of_elementBy? hxel hyel hr
      rw [hpx.valueAt?_root hnodup, hpy.valueAt?_root hnodup] at this
      exact hvw.ne (Option.some.inj this)
    obtain ⟨_, hxv⟩ := hpx.values
    obtain ⟨_, hyv⟩ := hpy.values
    rw [hforward site.loop (h.laid.of_mem_sitesOf site hs).1 (mem_loops_of_mem_sitesOf hs) hin
      hroot] at hvw
    rw [hxv, hyv]
    exact List.append_left_lt (List.cons_lt_cons_iff.mpr (Or.inl hvw))
  · have := h.equationsOf_nodup.sublist hsub
    rw [hxa, hya] at this
    exact absurd List.mem_cons_self (List.nodup_cons.mp this).1

/-- No loop runs an instance that reads an element in an earlier iteration than one that writes it,
if the accesses have their first index along every loop that holds both in one place. -/
theorem not_before_of_aligned (h : p.Sound program) (ha : a ∈ p.equations) (hb : b ∈ p.equations)
    (hab : a.index < b.index) (hread : read ∈ b.readsOf p.dims a.write.tensor)
    (hspace : ∀ r ∈ a.roots p.dims, p.dims.isTimeLike r = false)
    (hshared : ∀ l ∈ p.tree.loops, a.index ∈ p.equationsOf l.clusters →
      b.index ∈ p.equationsOf l.clusters → a.write.Aligned p.dims (p.dims.root l.dim) read)
    (hworth : ∀ e f : Expr, (e == f) = true → worth e = worth f) {site : Site}
    (hs : site ∈ Node.sitesOf p.tree.roots) {us : List Int} {v w : Int} {x y : Instance}
    (hx : site.Runs us w x) (hy : site.Runs us v y) (hxa : x.equation = a.index)
    (hyb : y.equation = b.index) {el : Element}
    (hxel : a.elementBy? worth p.dims x.values a.write = some el)
    (hyel : b.elementBy? worth p.dims y.values read = some el) :
    ¬site.loop.direction.Before v w := by
  intro hvw
  obtain ⟨hain, hpa⟩ := h.passes hs hx ha hxa.symm
  obtain ⟨hbin, hpb⟩ := h.passes hs hy hb hyb.symm
  have hne : a ≠ b := fun heq => Nat.lt_irrefl _ (heq ▸ hab)
  let q : AccessPair := ⟨a.index, b.index, .flow, a.write, read⟩
  have hq : Compares p.dims a b q := Or.inl ⟨hab, List.mem_append_left _ (List.mem_append_left _
    (List.mem_map_of_mem hread))⟩
  have hspace' : ∀ l ∈ site.loops, p.dims.isTimeLike (p.dims.root l.dim) = false := by
    intro l hl
    refine hspace _ (hpa.mem_roots _ ?_)
    have := List.mem_map_of_mem (f := fun l => p.dims.root l.dim) hl
    rwa [Site.loops, List.map_append] at this
  -- Along the loops outside, where the instances are at equal values, no other distance is known.
  have houter : ∀ l ∈ site.outer,
      q.first.distance? p.dims q.unindexed (p.dims.root l.dim) q.second = some 0 ∨
        q.first.distance? p.dims q.unindexed (p.dims.root l.dim) q.second = none := by
    intro l hl
    obtain ⟨_, hal⟩ := (h.roots_of_mem_site hs ha hain).1 l hl
    obtain ⟨_, hbl⟩ := (h.roots_of_mem_site hs hb hbin).1 l hl
    exact hpa.distance?_outer hpb hworth hxel hyel
      (List.mem_map_of_mem (f := fun l => p.dims.root l.dim) hl)
      (hshared l (Node.outer_sitesOf _ site hs hl) hal hbl) _
  obtain ⟨d, hd⟩ := h.exists_distance ha hb hne hq hs hain hbin hspace' houter
  have hl := mem_loops_of_mem_sitesOf hs
  obtain ⟨w', v', hw', hv', rfl⟩ := eq_sub_of_distance? hworth (hshared _ hl hain hbin) hxel hyel hd
  cases (hpa.valueAt?_root (h.shaped ha).roots_nodup).symm.trans hw'
  cases (hpb.valueAt?_root (h.shaped hb).roots_nodup).symm.trans hv'
  obtain ⟨inner, hroots⟩ := hpa.commonRoots_eq hpb
  have hpre : ∀ r ∈ site.outer.map fun l => p.dims.root l.dim,
      q.first.distance? p.dims q.unindexed r q.second = some 0 ∨
        (q.first.distance? p.dims q.unindexed r q.second = none ∧ a ≠ b ∧
          p.dims.isTimeLike r = false) := by
    intro r hr
    obtain ⟨l, hl, rfl⟩ := List.mem_map.mp hr
    exact (houter l hl).imp_right fun hnone =>
      ⟨hnone, hne, hspace' l (List.mem_append_left _ hl)⟩
  have hissued := (h.settled_of_mem_loops hl).issued
  have hdir := (h.sweeps ha hb hq hroots
    (hspace' _ (List.mem_append_right _ (List.mem_singleton.mpr rfl)))
    (fun hzero => hvw.ne (by omega)) hd hpre site.loop hl rfl
    (equationsOf_tree p hissued ▸ hain) (equationsOf_tree p hissued ▸ hbin)).2
  rw [hdir, Direction.ofDistance] at hvw
  split at hvw
  · have hlt : v < w := hvw
    omega
  · have hlt : w < v := hvw
    omega

theorem writtenBefore (h : p.Sound program) (hxs : Executes p.tree.roots xs) (ha : a ∈ p.equations)
    (hb : b ∈ p.equations) (hab : a.index < b.index)
    (hread : read ∈ b.readsOf p.dims a.write.tensor)
    (hspace : ∀ r ∈ a.roots p.dims, p.dims.isTimeLike r = false)
    (hshared : ∀ l ∈ p.tree.loops, a.index ∈ p.equationsOf l.clusters →
      b.index ∈ p.equationsOf l.clusters → a.write.Aligned p.dims (p.dims.root l.dim) read)
    (hforward : ∀ l, p.Settled l → l ∈ p.tree.loops → a.index ∈ p.equationsOf l.clusters →
      p.dims.root l.dim ∉ a.write.roots p.dims → l.direction = .forward)
    (hworth : ∀ e f : Expr, (e == f) = true → worth e = worth f) :
    WrittenBefore p.dims (fun _ => worth) a b read xs where
  before {i j x y el} hi hj hx hyb hyel := by
    have hxy : x ≠ y := by
      rintro rfl
      exact Nat.ne_of_lt hab (hx.1.symm.trans hyb)
    refine lt_of_pairwise hxs.pairwise hi hj hxy ?_
    rintro (⟨site, hs, us, v, w, hry, hrx, hvw⟩ | hsub)
    · exact h.not_before_of_aligned ha hb hab hread hspace hshared hworth hs hrx hry hx.1 hyb hx.2
        hyel hvw
    · rw [hx.1, hyb] at hsub
      exact h.not_sublist_of_collides ha hb (Nat.le_of_lt hab)
        (Or.inr (Or.inl (Lowered.reads_iff.mpr ⟨read, mem_readsOf.mp hread⟩))) hsub
  sorted := h.writes_sorted hxs ha hforward

theorem forward_of_alone (h : p.Sound program) (hoff : p.options.fusion = false)
    (ha : a ∈ p.equations) {l : Loop} (hl : p.Settled l) (hin : a.index ∈ p.equationsOf l.clusters)
    (hroot : p.dims.root l.dim ∉ a.write.roots p.dims) : l.direction = .forward := by
  obtain ⟨e, he, hall⟩ := h.equationsOf_alone hoff hl.toCoherent
  rw [hall] at hin
  obtain rfl : a = e := h.numbered.eq_of_index_eq ha he (List.mem_singleton.mp hin)
  refine hl.forward_of_forall fun edge hedge hwithin hc => ?_
  rw [hall] at hwithin
  have hsource : edge.source = a.index ∧ edge.sink = a.index := by
    simpa [Edge.isWithin] using hwithin
  rcases ends_of_mem_graph h.graph h.numbered hedge with
    ⟨f, hf, hfs, _, own, hown, hm⟩ | ⟨f, _, g, _, hfg, hfs, hgs, _⟩
  · obtain rfl : a = f := h.numbered.eq_of_index_eq ha hf (hsource.1.symm.trans hfs)
    rw [unknown_of_unindexed hown hm (along?_eq_none_iff.mpr hroot) hc]
    rfl
  · omega

/-- So it is where loops hold both only along what both accesses index, and run forward. -/
theorem writtenBefore_of_aligned (h : p.Sound program) (hxs : Executes p.tree.roots xs)
    (ha : a ∈ p.equations) (hb : b ∈ p.equations) (hab : a.index < b.index)
    (hread : read ∈ b.readsOf p.dims a.write.tensor)
    (hspace : ∀ r ∈ a.roots p.dims, p.dims.isTimeLike r = false)
    (haligned : p.tree.SharesAligned p.dims a b read)
    (hforward : p.tree.RewritesForward p.dims a)
    (hworth : ∀ e f : Expr, (e == f) = true → worth e = worth f) :
    WrittenBefore p.dims (fun _ => worth) a b read xs := by
  refine h.writtenBefore hxs ha hb hab hread hspace ?_ ?_ hworth
  · intro l hl hal hbl
    have hissued := (h.settled_of_mem_loops hl).issued
    exact haligned l hl (equationsOf_tree p hissued ▸ hal) (equationsOf_tree p hissued ▸ hbl)
  · intro l hsettled hl hal hroot
    by_cases hrewrite : a.rewriteRoot? p.dims = some (p.dims.root l.dim)
    · exact (h.sequential_of_rewriteRoot ha hsettled hal hrewrite).1
    · exact hforward l hl (equationsOf_tree p hsettled.issued ▸ hal) hroot hrewrite

theorem writtenBefore_of_alone (h : p.Sound program) (hoff : p.options.fusion = false)
    (hxs : Executes p.tree.roots xs) (ha : a ∈ p.equations) (hb : b ∈ p.equations)
    (hab : a.index < b.index) (hread : read ∈ b.readsOf p.dims a.write.tensor)
    (hspace : ∀ r ∈ a.roots p.dims, p.dims.isTimeLike r = false)
    (hworth : ∀ e f : Expr, (e == f) = true → worth e = worth f) :
    WrittenBefore p.dims (fun _ => worth) a b read xs := by
  refine h.writtenBefore hxs ha hb hab hread hspace ?_
    (fun l hl _ hal hroot => h.forward_of_alone hoff ha hl hal hroot) hworth
  intro l hl hal hbl
  obtain ⟨e, _, hall⟩ := h.equationsOf_alone hoff (h.settled_of_mem_loops hl).toCoherent
  rw [hall] at hal hbl
  exact absurd ((List.mem_singleton.mp hal).trans (List.mem_singleton.mp hbl).symm)
    (Nat.ne_of_lt hab)

/-! ## Reads in the iteration of the write -/

theorem lt_of_together (h : p.Sound program) (hxs : Executes p.tree.roots xs)
    (ha : a ∈ p.equations) (hb : b ∈ p.equations) (hab : a.index < b.index)
    (hcollides : a.Collides p.dims b) {x y : Instance} (hxa : x.equation = a.index)
    (hyb : y.equation = b.index) (htogether : p.tree.Together p.dims a b x y) {i j : Nat}
    (hi : xs[i]? = some x) (hj : xs[j]? = some y) : i < j := by
  have hxy : x ≠ y := by
    rintro rfl
    exact Nat.ne_of_lt hab (hxa.symm.trans hyb)
  refine lt_of_pairwise hxs.pairwise hi hj hxy ?_
  rintro (⟨site, hs, us, v, w, hy, hx, hvw⟩ | hsub)
  · obtain ⟨hain, hpa⟩ := h.passes hs hx ha hxa.symm
    obtain ⟨hbin, hpb⟩ := h.passes hs hy hb hyb.symm
    have hl := mem_loops_of_mem_sitesOf hs
    have hissued := (h.settled_of_mem_loops hl).issued
    have heq := htogether site.loop hl (equationsOf_tree p hissued ▸ hain)
      (equationsOf_tree p hissued ▸ hbin)
    rw [hpa.valueAt?_root (h.shaped ha).roots_nodup,
      hpb.valueAt?_root (h.shaped hb).roots_nodup] at heq
    exact hvw.ne (Option.some.inj heq).symm
  · rw [hxa, hyb] at hsub
    exact h.not_sublist_of_collides ha hb (Nat.le_of_lt hab) hcollides hsub

theorem together_of_between (h : p.Sound program) (ha : a ∈ p.equations) (hb : b ∈ p.equations)
    {x y z : Instance} (hxa : x.equation = a.index) (hza : z.equation = a.index)
    (hyb : y.equation = b.index) (hxz : Node.InOrder p.tree.roots x z)
    (hzy : Node.InOrder p.tree.roots z y) (htogether : p.tree.Together p.dims a b x y) :
    p.tree.Together p.dims a b z y := by
  intro l hl hal hbl
  obtain ⟨site, hs, rfl⟩ := exists_site hl
  rw [equationsOf_tree p (h.settled_of_mem_loops hl).issued] at hal hbl
  have hbody : ∀ {e : Lowered} {w : Instance}, w.equation = e.index →
      e.index ∈ p.equationsOf site.loop.clusters → w.equation ∈ Node.equationsOf site.body := by
    intro e w hwe hein
    rw [h.equationsOf_body hs, hwe]
    exact hein
  have hequal : ∀ k < site.loops.length, x.values[k]? = y.values[k]? := by
    intro k hk
    have hm := List.getElem_mem hk
    obtain ⟨hok, ham⟩ := h.holds_of_mem_loops hs ha hal _ hm
    obtain ⟨_, hbm⟩ := h.holds_of_mem_loops hs hb hbl _ hm
    rw [← equationsOf_tree p hok.issued] at ham hbm
    rw [← h.valueAt?_loops hs ha hal _ (List.getElem?_eq_getElem hk),
      ← h.valueAt?_loops hs hb hbl _ (List.getElem?_eq_getElem hk)]
    exact htogether _ (loops_of_mem_sitesOf hs hm) ham hbm
  have hbetween := Loop.InOrder.between (hxz site hs (hbody hxa hal) (hbody hza hal))
    (hzy site hs (hbody hza hal) (hbody hyb hbl)) hequal
  have hlast : site.loops[site.outer.length]? = some site.loop := List.getElem?_concat_length
  rw [h.valueAt?_loops hs ha hal _ hlast, h.valueAt?_loops hs hb hbl _ hlast]
  exact hbetween _ (List.getElem?_eq_some_iff.mp hlast).1

/-- What `a` writes in an iteration of the loops that hold both, `b` reads in that iteration. -/
theorem meetsLastWrites (h : p.Sound program) (hxs : Executes p.tree.roots xs)
    (ha : a ∈ p.equations) (hb : b ∈ p.equations) (hab : a.index < b.index)
    (hcollides : a.Collides p.dims b) (worth : Instance → Expr → Option Int) :
    p.tree.MeetsLastWrites p.dims worth a b xs := by
  intro x hx y hy hyb htogether el hw
  obtain ⟨z, hz, hzw, hzy, hxz⟩ := exists_lastWrite? (hxs.inOrder h.equationsOf_nodup) hx hy
    (h.lt_of_together hxs ha hb hab hcollides hw.1 hyb htogether) hw
  refine ⟨z, hz, ?_⟩
  rcases hxz with rfl | hxz
  · exact htogether
  · exact h.together_of_between ha hb hw.1 hzw.1 hyb hxz hzy htogether

end Plan.Sound

/-- Where loops hold two equations only along what both accesses index, and what is rewritten is
rewritten forward, an instance finds the element it reads written last by the same instance with and
without fusion.  In any case it reads what was written in the same iteration of the loops that hold
both, if anything was. -/
theorem keepsLastWrites_of_schedule {program : Program} {factor : Int} {vectorize : Bool}
    {fused separate : ScheduleTree} {es : List Lowered}
    (hfused : (program.schedule ⟨factor, true, vectorize⟩).result = .ok fused)
    (hseparate : (program.schedule ⟨factor, false, vectorize⟩).result = .ok separate)
    (hlower : program.lower.result = .ok es) {a b : Lowered} (ha : a ∈ es) (hb : b ∈ es)
    (hab : a.index < b.index)
    (hspace : ∀ r ∈ a.roots program.dims, program.dims.isTimeLike r = false) {read : Access}
    (hread : read ∈ b.readsOf program.dims a.write.tensor) :
    (fused.SharesAligned program.dims a b read → fused.RewritesForward program.dims a →
      ∀ worth : Expr → Option Int, (∀ e f : Expr, (e == f) = true → worth e = worth f) →
        (∀ xs ys, Executes fused.roots xs → Executes separate.roots ys → xs.Perm ys →
          KeepsLastWrites program.dims (fun _ => worth) a b read xs ys) ∧
        ∀ bindings xs ys, fused.events program.dims bindings = .ok xs →
          separate.events program.dims bindings = .ok ys →
          KeepsLastWrites program.dims (fun _ => worth) a b read (xs.map Event.instance)
            (ys.map Event.instance)) ∧
      ∀ worth xs, Executes fused.roots xs → fused.MeetsLastWrites program.dims worth a b xs := by
  have hagree := agree_of_fusion hfused hseparate
  obtain ⟨p, hp, _, rfl, rfl⟩ := Program.exists_plan_of_schedule hfused hlower
  obtain ⟨q, hq, hoff, rfl, hes⟩ := Program.exists_plan_of_schedule hseparate hlower
  have hpq : q.dims = p.dims := hq.dims.trans hp.dims.symm
  rw [← hp.dims] at hspace hread hagree ⊢
  have hcollides : a.Collides p.dims b :=
    Or.inr (Or.inl (Lowered.reads_iff.mpr ⟨read, mem_readsOf.mp hread⟩))
  refine ⟨fun haligned hforward worth hworth => ?_,
    fun worth xs hxs => hp.meetsLastWrites hxs ha hb hab hcollides worth⟩
  have hruns : ∀ xs ys, Executes p.tree.roots xs → Executes q.tree.roots ys → xs.Perm ys →
      KeepsLastWrites p.dims (fun _ => worth) a b read xs ys := by
    intro xs ys hxs hys hperm
    have hsecond : WrittenBefore q.dims (fun _ => worth) a b read ys :=
      hq.writtenBefore_of_alone (by rw [hoff]) hys (hes ▸ ha) (hes ▸ hb) hab (hpq ▸ hread)
        (hpq ▸ hspace) hworth
    exact (hp.writtenBefore_of_aligned hxs ha hb hab hread hspace haligned hforward
      hworth).keepsLastWrites (hpq ▸ hsecond) hperm
  refine ⟨hruns, fun bindings xs ys hxs hys => ?_⟩
  refine hruns _ _ (Node.executes_of_events hxs) (Node.executes_of_events hys) ?_
  have hevents := hagree bindings
  rw [hxs, hys] at hevents
  exact hevents.perm.map Event.instance

/-- Sums of rows, each written to the row afterwards.  The displacement keeps the loops over the row
apart. -/
def rowSums : Program :=
  overPlane ["k"]
    [⟨⟨"s", [.fixed ⟨0⟩ 0]⟩, .access "q" [.fixed ⟨0⟩ 0, .symbolic ⟨1⟩ (.symbol "k")], [], []⟩,
      ⟨⟨"q", [.fixed ⟨0⟩ 0, .fixed ⟨1⟩ 0]⟩, .access "s" [.fixed ⟨0⟩ 0], [], []⟩]

theorem keepsLastWrites_of_schedule_rowSums :
    ∃ fused separate es xs ys, (rowSums.schedule ⟨1, true, true⟩).result = .ok fused ∧
      (rowSums.schedule ⟨1, false, true⟩).result = .ok separate ∧
      rowSums.lower.result = .ok es ∧ fused.events rowSums.dims [("k", 0)] = .ok xs ∧
      separate.events rowSums.dims [("k", 0)] = .ok ys ∧
      xs.map Event.instance = [⟨0, [0, 0]⟩, ⟨0, [0, 1]⟩, ⟨1, [0, 0]⟩, ⟨1, [0, 1]⟩,
        ⟨0, [1, 0]⟩, ⟨0, [1, 1]⟩, ⟨1, [1, 0]⟩, ⟨1, [1, 1]⟩] ∧
      ys.map Event.instance = [⟨0, [0, 0]⟩, ⟨0, [0, 1]⟩, ⟨0, [1, 0]⟩, ⟨0, [1, 1]⟩,
        ⟨1, [0, 0]⟩, ⟨1, [0, 1]⟩, ⟨1, [1, 0]⟩, ⟨1, [1, 1]⟩] ∧
      ∃ a ∈ es, ∃ b ∈ es, ∃ read ∈ b.reads rowSums.dims,
        b.element? rowSums.dims [0, 0] read = some ⟨"s", [0]⟩ ∧
        lastWrite? rowSums.dims (fun _ _ => none) a ⟨"s", [0]⟩ ⟨1, [0, 0]⟩
          (xs.map Event.instance) = some ⟨0, [0, 1]⟩ ∧
        KeepsLastWrites rowSums.dims (fun _ _ => none) a b read (xs.map Event.instance)
          (ys.map Event.instance) ∧
        fused.MeetsLastWrites rowSums.dims (fun _ _ => none) a b (xs.map Event.instance) := by
  have facts : ∃ fused separate es xs ys, (rowSums.schedule ⟨1, true, true⟩).result = .ok fused ∧
      (rowSums.schedule ⟨1, false, true⟩).result = .ok separate ∧
      rowSums.lower.result = .ok es ∧ fused.events rowSums.dims [("k", 0)] = .ok xs ∧
      separate.events rowSums.dims [("k", 0)] = .ok ys ∧
      xs.map Event.instance = [⟨0, [0, 0]⟩, ⟨0, [0, 1]⟩, ⟨1, [0, 0]⟩, ⟨1, [0, 1]⟩,
        ⟨0, [1, 0]⟩, ⟨0, [1, 1]⟩, ⟨1, [1, 0]⟩, ⟨1, [1, 1]⟩] ∧
      ys.map Event.instance = [⟨0, [0, 0]⟩, ⟨0, [0, 1]⟩, ⟨0, [1, 0]⟩, ⟨0, [1, 1]⟩,
        ⟨1, [0, 0]⟩, ⟨1, [0, 1]⟩, ⟨1, [1, 0]⟩, ⟨1, [1, 1]⟩] ∧
      ∃ a ∈ es, ∃ b ∈ es, a.index < b.index ∧
        (∀ r ∈ a.roots rowSums.dims, rowSums.dims.isTimeLike r = false) ∧
        ∃ read ∈ b.readsOf rowSums.dims a.write.tensor,
          b.element? rowSums.dims [0, 0] read = some ⟨"s", [0]⟩ ∧
          lastWrite? rowSums.dims (fun _ _ => none) a ⟨"s", [0]⟩ ⟨1, [0, 0]⟩
            (xs.map Event.instance) = some ⟨0, [0, 1]⟩ ∧
          fused.SharesAligned rowSums.dims a b read ∧ fused.RewritesForward rowSums.dims a :=
    ⟨_, _, _, _, _, rfl, rfl, rfl, rfl, rfl, by decide +kernel, by decide +kernel,
      by decide +kernel⟩
  obtain ⟨fused, separate, es, xs, ys, hf, hs, hl, hxs, hys, hfirst, hsecond, a, ha, b, hb, hab,
    hspace, read, hread, hel, hlast, haligned, hforward⟩ := facts
  obtain ⟨hkeeps, hmeets⟩ := keepsLastWrites_of_schedule hf hs hl ha hb hab hspace hread
  exact ⟨fused, separate, es, xs, ys, hf, hs, hl, hxs, hys, hfirst, hsecond, a, ha, b, hb, read,
    (mem_readsOf.mp hread).1, hel, hlast,
    (hkeeps haligned hforward (fun _ => none) fun _ _ _ => rfl).2 _ _ _ hxs hys,
    hmeets _ _ (Node.executes_of_events hxs)⟩

/-- An equation reads what another one writes, both loop over a root that neither access indexes, and
in the first run some instance finds what it reads written last by another instance than in the
second.  What holds of the tree is kept apart. -/
def ScheduleTree.MovesLastWrite (t : DimTable) (tree : ScheduleTree) (es : List Lowered)
    (worth : Instance → Expr → Option Int) (aligned forward : Bool) (xs ys : List Instance) : Prop :=
  ∃ a ∈ es, ∃ b ∈ es, a.index < b.index ∧ ∃ read ∈ b.readsOf t a.write.tensor,
    (∃ r ∈ commonRoots t a b, r ∉ a.write.roots t ∧ r ∉ read.roots t) ∧
    decide (tree.SharesAligned t a b read) = aligned ∧
    decide (tree.RewritesForward t a) = forward ∧ ¬KeepsLastWrites t worth a b read xs ys

instance (t : DimTable) (tree : ScheduleTree) (es : List Lowered)
    (worth : Instance → Expr → Option Int) (aligned forward : Bool) (xs ys : List Instance) :
    Decidable (tree.MovesLastWrite t es worth aligned forward xs ys) :=
  inferInstanceAs (Decidable (∃ a ∈ es, ∃ b ∈ es, a.index < b.index ∧
    ∃ read ∈ b.readsOf t a.write.tensor,
      (∃ r ∈ commonRoots t a b, r ∉ a.write.roots t ∧ r ∉ read.roots t) ∧
      decide (tree.SharesAligned t a b read) = aligned ∧
      decide (tree.RewritesForward t a) = forward ∧ ¬KeepsLastWrites t worth a b read xs ys))

/-- Fusion of a program over space moves a last write. -/
abbrev Program.MovesLastWrite (program : Program) (bindings : Bindings)
    (worth : Instance → Expr → Option Int) (aligned forward : Bool) : Prop :=
  ∃ fused ∈ (program.schedule ⟨1, true, true⟩).result.toOption,
    ∃ separate ∈ (program.schedule ⟨1, false, true⟩).result.toOption,
    ∃ es ∈ program.lower.result.toOption,
    ∃ xs ∈ (fused.events program.dims bindings).toOption,
    ∃ ys ∈ (separate.events program.dims bindings).toOption,
      (∀ e ∈ es, ∀ r ∈ e.roots program.dims, program.dims.isTimeLike r = false) ∧
      fused.MovesLastWrite program.dims es worth aligned forward (xs.map Event.instance)
        (ys.map Event.instance)

/-- A program over three dimensions in space, of two points each. -/
def overSpace (scalars : List String) (equations : List Equation) : Program where
  dims := (do
    let (t, _) ← DimTable.empty.space "x" (some 2)
    let (t, _) ← t.space "y" (some 2)
    let (t, _) ← t.space "z" (some 2)
    return t : Except ModelError DimTable).toOption.getD .empty
  scalars := scalars
  equations := equations

/-- One place is written at each point and read there. -/
def onePlace : Program :=
  overPlane []
    [⟨⟨"s", []⟩, .access "f" [.fixed ⟨0⟩ 0], [], []⟩,
      ⟨⟨"v", [.fixed ⟨0⟩ 0]⟩, .access "s" [], [], []⟩]

/-- What is written at one point of a plane is read at the transposed one. -/
def transposed : Program :=
  overSpace ["k"]
    [⟨⟨"u", [.fixed ⟨0⟩ 0, .fixed ⟨1⟩ 0]⟩,
        .access "q" [.fixed ⟨0⟩ 0, .fixed ⟨1⟩ 0, .symbolic ⟨2⟩ (.symbol "k")], [], []⟩,
      ⟨⟨"q", [.fixed ⟨0⟩ 0, .fixed ⟨1⟩ 0, .fixed ⟨2⟩ 0]⟩,
        .access "u" [.fixed ⟨1⟩ 0, .fixed ⟨0⟩ 0], [], []⟩]

/-- One place is written in a loop that another equation turns around. -/
def turnedAround : Program :=
  overPlane ["k"]
    [⟨⟨"s", []⟩, .access "q" [.symbolic ⟨0⟩ (.symbol "k"), .fixed ⟨1⟩ 0], [], []⟩,
      ⟨⟨"w", [.fixed ⟨0⟩ 0, .fixed ⟨1⟩ 0]⟩, .access "w" [.fixed ⟨0⟩ 0, .fixed ⟨1⟩ 1], [], []⟩,
      ⟨⟨"q", [.fixed ⟨0⟩ 0, .fixed ⟨1⟩ 0]⟩, .access "s" [], [], []⟩]

/-- What is written at one point is read at another, as the displacement is another one there. -/
def collapsed : Program :=
  overSpace []
    [⟨⟨"q", [.symbolic ⟨0⟩ (.neg (.dim ⟨0⟩))]⟩, .access "f" [.fixed ⟨0⟩ 0, .fixed ⟨2⟩ 0], [], []⟩,
      ⟨⟨"w", [.fixed ⟨0⟩ 0, .fixed ⟨1⟩ 0, .fixed ⟨2⟩ 0]⟩,
        .access "q" [.symbolic ⟨0⟩ (.neg (.dim ⟨0⟩))], [], []⟩]

/-- Last writes move where a loop over a root that neither access indexes holds both equations, where
the accesses index the roots in another order, where a loop runs backward, and where displacements
are worth something else at each instance. -/
theorem not_keepsLastWrites :
    onePlace.MovesLastWrite [] (fun _ _ => none) false true ∧
      transposed.MovesLastWrite [("k", 0)] (fun _ _ => none) false true ∧
      turnedAround.MovesLastWrite [("k", 0)] (fun _ _ => none) true false ∧
      collapsed.MovesLastWrite [] (fun x => worthAt collapsed.dims (x.values.headD 0)) true true :=
  ⟨by decide +kernel, by decide +kernel, by decide +kernel, by decide +kernel⟩

end LoopNest
