import LoopNest.Proofs.ConflictOrder
import LoopNest.Proofs.Reading
import LoopNest.Proofs.SharedTime
import LoopNest.Proofs.Sweep
/-!
# What is written at an earlier time

Loops over time run forward, and no loop over time stands inside one over space.  So as long as one
loop over time holds two equations, all that the first does at an earlier time comes before what
the second does at a later one (`Plan.Sound.causal_of_shared`).  Where the equation that writes is
declared no later it comes first in any case (`Plan.Sound.causal_of_le`).

Else everything depends on one loop, and it is not for the dependences to see to it: an equation
that is placed between the two without that loop splits it, and what should be read at a later time
is read before anything is written (`not_writesFirst_splitTime`).  That this does not happen is
asked of the declarations (`Lowered.Unsplit`).
-/

namespace LoopNest

open Lowered

/-- In the run, instances of `a` at an earlier value along the root come before those of `b` at a
later one, as long as `a` is at no later value along the roots outside. -/
def Causal (t : DimTable) (a b : Lowered) (outer : List DimId) (root : DimId)
    (xs : List Instance) : Prop :=
  ∀ {i j : Nat} {x y : Instance} {u v : Int}, xs[i]? = some x → xs[j]? = some y →
    x.equation = a.index → y.equation = b.index → a.valueAt? t x.values root = some u →
    b.valueAt? t y.values root = some v → u < v →
    (∀ s ∈ outer, ∀ u v, a.valueAt? t x.values s = some u → b.valueAt? t y.values s = some v →
      u ≤ v) → i < j

/-- In the run, what `a` writes at one value along the root comes before where `b` reads it at a
later one. -/
def WritesFirst (t : DimTable) (es : List Lowered) (a b : Lowered) (root : DimId)
    (xs : List Instance) : Prop :=
  ∀ {i j : Nat} {x y : Instance} {el : Element} {u v : Int}, xs[i]? = some x → xs[j]? = some y →
    x.equation = a.index → y.equation = b.index → x.Writes t es el → y.Reads t es el →
    a.valueAt? t x.values root = some u → b.valueAt? t y.values root = some v → u < v → i < j

theorem Causal.writesFirst {t : DimTable} {a b : Lowered} {root : DimId} {xs : List Instance}
    (h : Causal t a b [] root xs) (es : List Lowered) : WritesFirst t es a b root xs := by
  intro i j x y el u v hi hj hxa hyb _ _ hu hv huv
  exact h hi hj hxa hyb hu hv huv fun s hs => absurd hs List.not_mem_nil

/-- Loops that run forward do not come to a point first that is earlier along the last of them, and
along no other one later. -/
theorem Loop.InOrder.not_of_forward {l : Loop} {u v : Int} (huv : u < v) :
    ∀ {outer : List Loop} {xs ys : List Int}, (∀ o ∈ outer ++ [l], o.direction = .forward) →
      (∀ k u v, k < outer.length → xs[k]? = some u → ys[k]? = some v → u ≤ v) →
      xs[outer.length]? = some u → ys[outer.length]? = some v →
      ¬Loop.InOrder (outer ++ [l]) ys xs
  | [], xs, ys, hf, _, hx, hy => by
      intro h
      have hl : l.direction = .forward := hf l List.mem_cons_self
      cases h with
      | apart h =>
          rw [hl] at h
          have hvu : v < u := by
            cases hx
            cases hy
            exact h
          omega
      | same =>
          cases hx
          cases hy
          omega
  | o :: outer, xs, ys, hf, hle, hx, hy => by
      intro h
      have ho : o.direction = .forward := hf o List.mem_cons_self
      cases h with
      | @apart _ _ v' u' _ _ h =>
          rw [ho] at h
          have hlt : v' < u' := h
          have hge : u' ≤ v' := hle 0 _ _ (Nat.succ_pos _) rfl rfl
          omega
      | same h =>
          refine not_of_forward huv (fun o' ho' => hf o' (List.mem_cons_of_mem _ ho')) ?_ hx hy h
          intro k u v hk hu hv
          exact hle (k + 1) u v (Nat.succ_lt_succ hk) hu hv

namespace Lowered

variable {t : DimTable} {a : Lowered}

theorem valueAt?_of_getElem? (hn : (a.roots t).Nodup) {vs : List Int} {k : Nat} {r : DimId}
    (h : (a.roots t)[k]? = some r) : a.valueAt? t vs r = vs[k]? := by
  obtain ⟨hk, rfl⟩ := List.getElem?_eq_some_iff.mp h
  rw [valueAt?, hn.idxOf_getElem k hk]

end Lowered

namespace Plan.Sound

variable {p : Plan} {program : Program} {a b : Lowered} {root : DimId} {pre inner : List DimId}
  {xs : List Instance}

theorem equationsOf_body (h : p.Sound program) {site : Site}
    (hs : site ∈ Node.sitesOf p.tree.roots) :
    Node.equationsOf site.body = p.equationsOf site.loop.clusters := by
  obtain ⟨_, _, hbody, _⟩ := h.laid.laid_of_mem_sitesOf site hs
  exact hbody.equationsOf_eq

theorem not_sublist_of_collides (h : p.Sound program) (ha : a ∈ p.equations)
    (hb : b ∈ p.equations) (hab : a.index ≤ b.index) (hc : a.Collides p.dims b) :
    ¬[b.index, a.index].Sublist (Node.equationsOf p.tree.roots) := by
  intro hsub
  rcases Nat.lt_or_eq_of_le hab with hlt | heq
  · obtain ⟨_, hq⟩ := hc.exists_compares hlt
    exact h.not_sublist_of_conflict ha hb hq hsub
  · have hnodup := h.equationsOf_nodup.sublist hsub
    rw [heq] at hnodup
    exact (List.nodup_cons.mp hnodup).1 List.mem_cons_self

theorem isTimeLike_of_mem_pre (h : p.Sound program) (ha : a ∈ p.equations)
    (hroots : commonRoots p.dims a b = pre ++ root :: inner)
    (htime : p.dims.isTimeLike root = true) {s : DimId} (hs : s ∈ pre) :
    p.dims.isTimeLike s = true := by
  have hpairs := (h.shaped ha).time_first.sublist
    (List.filter_sublist (p := fun r => (b.roots p.dims).contains r))
  rw [← commonRoots, hroots] at hpairs
  exact (List.pairwise_append.mp hpairs).2.2 s hs root List.mem_cons_self htime

theorem valueAt?_loops (h : p.Sound program) {site : Site}
    (hs : site ∈ Node.sitesOf p.tree.roots) {e : Lowered} (he : e ∈ p.equations)
    (hin : e.index ∈ p.equationsOf site.loop.clusters) (vs : List Int) {k : Nat} {l : Loop}
    (hl : site.loops[k]? = some l) : e.valueAt? p.dims vs (p.dims.root l.dim) = vs[k]? := by
  obtain ⟨_, inner, hroots⟩ := h.roots_of_mem_site hs he hin
  have hstart : e.roots p.dims = (site.loops.map fun l => p.dims.root l.dim) ++ inner := by
    rw [hroots, Site.loops, List.map_append, List.append_assoc]
    rfl
  refine valueAt?_of_getElem? (h.shaped he).roots_nodup ?_
  have hlt : k < (site.loops.map fun l => p.dims.root l.dim).length := by
    rw [List.length_map]
    exact (List.getElem?_eq_some_iff.mp hl).1
  rw [hstart, List.getElem?_append_left hlt, List.getElem?_map, hl]
  rfl

theorem ne_of_valueAt? (h : p.Sound program) (ha : a ∈ p.equations) (hb : b ∈ p.equations)
    {x y : Instance} (hxa : x.equation = a.index) (hyb : y.equation = b.index) {u v : Int}
    (hu : a.valueAt? p.dims x.values root = some u)
    (hv : b.valueAt? p.dims y.values root = some v) (huv : u < v) : x ≠ y := by
  rintro rfl
  obtain rfl := h.numbered.eq_of_index_eq ha hb (hxa.symm.trans hyb)
  rw [hu] at hv
  cases hv
  exact Int.lt_irrefl _ huv

/-- What one loop over time holds runs in the order of time. -/
theorem causal_of_shared (h : p.Sound program) (hxs : Executes p.tree.roots xs)
    (ha : a ∈ p.equations) (hb : b ∈ p.equations)
    (hroots : commonRoots p.dims a b = pre ++ root :: inner)
    (htime : p.dims.isTimeLike root = true) {l : Loop} (hl : l ∈ p.tree.loops)
    (hlroot : p.dims.root l.dim = root) (hain : a.index ∈ p.equationsOf l.clusters)
    (hbin : b.index ∈ p.equationsOf l.clusters) : Causal p.dims a b pre root xs := by
  intro i j x y u v hi hj hxa hyb hu hv huv hle
  obtain ⟨site, hs, rfl⟩ := exists_site hl
  subst hlroot
  have hxy : x ≠ y := h.ne_of_valueAt? ha hb hxa hyb hu hv huv
  have hpre := h.outer_of_commonRoots hs ha hb hain hbin hroots
  have hlast : site.loops[site.outer.length]? = some site.loop := List.getElem?_concat_length
  rw [h.valueAt?_loops hs ha hain _ hlast] at hu
  rw [h.valueAt?_loops hs hb hbin _ hlast] at hv
  have hforward : ∀ o ∈ site.loops, o.direction = .forward := by
    intro o ho
    rcases List.mem_append.mp ho with ho | ho
    · refine (((h.roots_of_mem_site hs ha hain).1 o ho).1.of_timeLike ?_).1
      exact h.isTimeLike_of_mem_pre ha hroots htime (hpre ▸ List.mem_map_of_mem ho)
    · rw [List.mem_singleton.mp ho]
      exact ((h.settled_of_mem_loops hl).of_timeLike htime).1
  have hbefore : ∀ k u v, k < site.outer.length → x.values[k]? = some u →
      y.values[k]? = some v → u ≤ v := by
    intro k u v hk hu hv
    have hat : site.loops[k]? = some site.outer[k] := by
      rw [Site.loops, List.getElem?_append_left hk, List.getElem?_eq_getElem hk]
    refine hle (p.dims.root site.outer[k].dim) ?_ u v ?_ ?_
    · rw [hpre]
      exact List.mem_map_of_mem (List.getElem_mem hk)
    · rw [h.valueAt?_loops hs ha hain _ hat, hu]
    · rw [h.valueAt?_loops hs hb hbin _ hat, hv]
  refine lt_of_pairwise (hxs.inOrder h.equationsOf_nodup) hi hj hxy ?_
  intro ho
  refine Loop.InOrder.not_of_forward huv hforward hbefore hu hv (ho site hs ?_ ?_)
  · rw [h.equationsOf_body hs, hyb]
    exact hbin
  · rw [h.equationsOf_body hs, hxa]
    exact hain

/-- Where a loop decides between instances of two equations, it is over the given root, or the root
is that of a loop outside, or the loop is over one of the roots before. -/
theorem root_cases (h : p.Sound program) {site : Site} (hs : site ∈ Node.sitesOf p.tree.roots)
    {us : List Int} {v w : Int} {x y : Instance} (hx : site.Runs us v x) (hy : site.Runs us w y)
    (ha : a ∈ p.equations) (hxa : x.equation = a.index) (hb : b ∈ p.equations)
    (hyb : y.equation = b.index) (hroots : commonRoots p.dims a b = pre ++ root :: inner) :
    a.index ∈ p.equationsOf site.loop.clusters ∧ b.index ∈ p.equationsOf site.loop.clusters ∧
      a.valueAt? p.dims x.values (p.dims.root site.loop.dim) = some v ∧
      b.valueAt? p.dims y.values (p.dims.root site.loop.dim) = some w ∧
      ((∃ l ∈ site.outer, p.dims.root l.dim = root ∧
          a.valueAt? p.dims x.values root = b.valueAt? p.dims y.values root) ∨
        p.dims.root site.loop.dim = root ∨ p.dims.root site.loop.dim ∈ pre) := by
  obtain ⟨hain, hpa⟩ := h.passes hs hx ha hxa.symm
  obtain ⟨hbin, hpb⟩ := h.passes hs hy hb hyb.symm
  refine ⟨hain, hbin, hpa.valueAt?_root (h.shaped ha).roots_nodup,
    hpb.valueAt?_root (h.shaped hb).roots_nodup, ?_⟩
  obtain ⟨inner', hroots'⟩ := hpa.commonRoots_eq hpb
  rcases List.append_eq_append_iff.mp (hroots.symm.trans hroots') with
    ⟨_ | ⟨r, rest⟩, hpre, htail⟩ | ⟨_ | ⟨r, rest⟩, hpre, htail⟩
  · exact Or.inr (Or.inl (List.cons.inj htail).1.symm)
  · obtain rfl : root = r := (List.cons.inj htail).1
    have hmem : root ∈ site.outer.map fun l => p.dims.root l.dim := by
      rw [hpre]
      exact List.mem_append_right _ List.mem_cons_self
    obtain ⟨l, hl, hlr⟩ := List.mem_map.mp hmem
    exact Or.inl ⟨l, hl, hlr, (hpa.valueAt?_outer hmem).trans (hpb.valueAt?_outer hmem).symm⟩
  · exact Or.inr (Or.inl (List.cons.inj htail).1)
  · refine Or.inr (Or.inr ?_)
    rw [hpre, (List.cons.inj htail).1]
    exact List.mem_append_right _ List.mem_cons_self

/-- What is written by an equation declared no later runs in the order of time. -/
theorem causal_of_le (h : p.Sound program) (hxs : Executes p.tree.roots xs)
    (ha : a ∈ p.equations) (hb : b ∈ p.equations)
    (hroots : commonRoots p.dims a b = pre ++ root :: inner)
    (htime : p.dims.isTimeLike root = true) (hab : a.index ≤ b.index)
    (hread : b.Reads p.dims a.write.tensor) : Causal p.dims a b pre root xs := by
  intro i j x y u v hi hj hxa hyb hu hv huv hle
  have hxy : x ≠ y := h.ne_of_valueAt? ha hb hxa hyb hu hv huv
  refine lt_of_pairwise hxs.pairwise hi hj hxy ?_
  rintro (⟨site, hs, us, v', u', hy, hx, hbefore⟩ | hsub)
  · -- A loop over time decides, and runs `y` first only if `y` is earlier along it.
    obtain ⟨_, _, hxv, hyv, hcases⟩ := h.root_cases hs hx hy ha hxa hb hyb hroots
    have hlater (htime : p.dims.isTimeLike (p.dims.root site.loop.dim) = true) : v' < u' := by
      rw [((h.laid.of_mem_sitesOf site hs).1.of_timeLike htime).1] at hbefore
      exact hbefore
    rcases hcases with ⟨_, _, _, heq⟩ | rfl | hpre
    · rw [hu, hv] at heq
      cases heq
      exact Int.lt_irrefl _ huv
    · have hlt : v' < u' := hlater htime
      cases hu.symm.trans hxv
      cases hv.symm.trans hyv
      omega
    · have hlt : v' < u' := hlater (h.isTimeLike_of_mem_pre ha hroots htime hpre)
      have hge : u' ≤ v' := hle _ hpre _ _ hxv hyv
      omega
  · rw [hxa, hyb] at hsub
    exact h.not_sublist_of_collides ha hb hab (Or.inr (Or.inl hread)) hsub

/-- What one nest that nothing splits holds runs in the order of time. -/
theorem causal_of_unsplit (h : p.Sound program) (hxs : Executes p.tree.roots xs)
    (hfusion : p.options.fusion = true) (ha : a ∈ p.equations) (hb : b ∈ p.equations)
    (hroots : commonRoots p.dims a b = pre ++ root :: inner)
    (htime : p.dims.isTimeLike root = true) (hba : b.index < a.index)
    (hread : b.Reads p.dims a.write.tensor) {nest : List DimId}
    (hnest : nest.map p.dims.root = pre ++ [root]) (hra : a.RunsIn p.dims nest)
    (hrb : b.RunsIn p.dims nest) (hunsplit : Unsplit p.dims p.equations nest b a) :
    Causal p.dims a b pre root xs := by
  have hne : nest ≠ [] := by
    rintro rfl
    cases pre <;> cases hnest
  have htimes : ∀ d ∈ nest, p.dims.isTimeLike (p.dims.root d) = true := by
    intro d hd
    have hmem := List.mem_map_of_mem (f := p.dims.root) hd
    rw [hnest, List.mem_append, List.mem_singleton] at hmem
    rcases hmem with hpre | hroot
    · exact h.isTimeLike_of_mem_pre ha hroots htime hpre
    · exact hroot ▸ htime
  have hnot := h.not_sublist_of_collides hb ha (Nat.le_of_lt hba) (Or.inr (Or.inr hread))
  rw [h.equationsOf_eq] at hnot
  obtain ⟨l, hl, hlast, hain, hbin⟩ :=
    h.exists_shared_loop hfusion ha hb hba hnot hra hrb hunsplit hne htimes
  have hlroot : p.dims.root l.dim = root := by
    have := congrArg List.getLast? hnest
    rw [List.getLast?_map, hlast, List.getLast?_concat] at this
    exact Option.some.inj this
  intro i j x y u v hi hj
  exact h.causal_of_shared hxs ha hb hroots htime hl hlroot hain hbin hi hj

end Plan.Sound

/-- What an equation writes at an earlier time than another one reads comes first in every run, as
long as it is at no later value of the loops over time outside, and either the equation that writes
is declared no later or both run in one nest of loops over time that no declaration splits. -/
theorem causal_of_schedule {program : Program} {options : Options} {tree : ScheduleTree}
    {es : List Lowered} (hschedule : (program.schedule options).result = .ok tree)
    (hlower : program.lower.result = .ok es) {a b : Lowered} (ha : a ∈ es) (hb : b ∈ es)
    {root : DimId} {pre inner : List DimId}
    (hroots : commonRoots program.dims a b = pre ++ root :: inner)
    (htime : program.dims.isTimeLike root = true)
    (hread : b.Reads program.dims a.write.tensor)
    (hkept : a.index ≤ b.index ∨ options.fusion = true ∧ ∃ nest : List DimId,
      nest.map program.dims.root = pre ++ [root] ∧ a.RunsIn program.dims nest ∧
        b.RunsIn program.dims nest ∧ Unsplit program.dims es nest b a) :
    (∀ xs, Executes tree.roots xs → Causal program.dims a b pre root xs) ∧
      ∀ bindings events, tree.events program.dims bindings = .ok events →
        Causal program.dims a b pre root (events.map Event.instance) := by
  obtain ⟨p, hp, rfl, rfl, rfl⟩ := Program.exists_plan_of_schedule hschedule hlower
  rw [← hp.dims] at hroots htime hread hkept ⊢
  have hruns : ∀ xs, Executes p.tree.roots xs → Causal p.dims a b pre root xs := by
    intro xs hxs
    rcases Nat.lt_or_ge b.index a.index with hba | hab
    · obtain hab | ⟨hfusion, nest, hnest, hra, hrb, hunsplit⟩ := hkept
      · exact absurd hba (Nat.not_lt.mpr hab)
      · exact hp.causal_of_unsplit hxs hfusion ha hb hroots htime hba hread hnest hra hrb hunsplit
    · exact hp.causal_of_le hxs ha hb hroots htime hab hread
  exact ⟨hruns, fun bindings events h => hruns _ (Node.executes_of_events h)⟩

/-- One equation reads along `time` what the last one writes a step ahead, with equations
between. -/
def pulse (between : List Equation) : Program where
  dims := (do
    let (t, _) ← DimTable.empty.time "time" (some 2)
    let (t, _) ← t.space "x" (some 1)
    let (t, _) ← t.space "y" (some 1)
    return t : Except ModelError DimTable).toOption.getD .empty
  scalars := []
  equations :=
    ⟨⟨"v", [.fixed ⟨0⟩ 0, .fixed ⟨1⟩ 0]⟩, .access "u" [.fixed ⟨0⟩ 0], [], []⟩ ::
      between ++ [⟨⟨"u", [.fixed ⟨0⟩ 1]⟩, .int 1, [], []⟩]

/-- An equation between them that runs along `time` too. -/
def inTime : Program := pulse [⟨⟨"p", [.fixed ⟨0⟩ 0, .fixed ⟨2⟩ 0]⟩, .int 0, [], []⟩]

/-- An equation between them that has no loop over time. -/
def splitTime : Program := pulse [⟨⟨"w", [.fixed ⟨2⟩ 0]⟩, .int 0, [], []⟩]

/-- At each point of two times, one equation writes what the other reads. -/
def twoTimes : Program where
  dims := (do
    let (t, _) ← DimTable.empty.time "time" (some 2)
    let (t, _) ← t.time "tau" (some 2)
    let (t, _) ← t.space "x" (some 1)
    return t : Except ModelError DimTable).toOption.getD .empty
  scalars := []
  equations :=
    [⟨⟨"u", [.fixed ⟨2⟩ 0]⟩, .access "g" [.fixed ⟨0⟩ 0, .fixed ⟨1⟩ 0], [], []⟩,
      ⟨⟨"v", [.fixed ⟨0⟩ 0, .fixed ⟨1⟩ 0, .fixed ⟨2⟩ 0]⟩, .access "u" [.fixed ⟨2⟩ 0], [], []⟩]

theorem causal_of_schedule_inTime :
    ∃ tree es events, (inTime.schedule default).result = .ok tree ∧
      inTime.lower.result = .ok es ∧ tree.events inTime.dims [] = .ok events ∧
      events.map Event.instance =
        [⟨0, [0, 0]⟩, ⟨1, [0, 0]⟩, ⟨2, [0]⟩, ⟨0, [1, 0]⟩, ⟨1, [1, 0]⟩, ⟨2, [1]⟩] ∧
      Instance.Writes inTime.dims es ⟨2, [0]⟩ ⟨"u", [1]⟩ ∧
      Instance.Reads inTime.dims es ⟨0, [1, 0]⟩ ⟨"u", [1]⟩ ∧
      ∃ a ∈ es, ∃ b ∈ es, a.index = 2 ∧ b.index = 0 ∧ Unsplit inTime.dims es [⟨0⟩] b a ∧
        WritesFirst inTime.dims es a b ⟨0⟩ (events.map Event.instance) := by
  have facts : ∃ tree es events, (inTime.schedule default).result = .ok tree ∧
      inTime.lower.result = .ok es ∧ tree.events inTime.dims [] = .ok events ∧
      events.map Event.instance =
        [⟨0, [0, 0]⟩, ⟨1, [0, 0]⟩, ⟨2, [0]⟩, ⟨0, [1, 0]⟩, ⟨1, [1, 0]⟩, ⟨2, [1]⟩] ∧
      Instance.Writes inTime.dims es ⟨2, [0]⟩ ⟨"u", [1]⟩ ∧
      Instance.Reads inTime.dims es ⟨0, [1, 0]⟩ ⟨"u", [1]⟩ ∧
      ∃ a ∈ es, ∃ b ∈ es, a.index = 2 ∧ b.index = 0 ∧
        commonRoots inTime.dims a b = [] ++ ⟨0⟩ :: [] ∧ inTime.dims.isTimeLike ⟨0⟩ = true ∧
        b.Reads inTime.dims a.write.tensor ∧
        [⟨0⟩].map inTime.dims.root = [] ++ [⟨0⟩] ∧ a.RunsIn inTime.dims [⟨0⟩] ∧
        b.RunsIn inTime.dims [⟨0⟩] ∧ Unsplit inTime.dims es [⟨0⟩] b a :=
    ⟨_, _, _, rfl, rfl, rfl, by decide +kernel, by decide +kernel, by decide +kernel,
      by decide +kernel⟩
  obtain ⟨tree, es, events, ht, hl, he, hxs, hwrite, hread, a, ha, b, hb, hai, hbi, hroots, htime,
    htensor, hnest, hra, hrb, hunsplit⟩ := facts
  have hcausal : Causal inTime.dims a b [] ⟨0⟩ (events.map Event.instance) :=
    (causal_of_schedule ht hl ha hb hroots htime htensor
      (Or.inr ⟨rfl, [⟨0⟩], hnest, hra, hrb, hunsplit⟩)).2 [] events he
  exact ⟨tree, es, events, ht, hl, he, hxs, hwrite, hread, a, ha, b, hb, hai, hbi, hunsplit,
    Causal.writesFirst hcausal es⟩

/-- What is read at a later time need not be written first: not if an equation between splits the
loop over time, and not along a second time inside the first. -/
theorem not_writesFirst_splitTime :
    (∃ tree es events, (splitTime.schedule default).result = .ok tree ∧
      splitTime.lower.result = .ok es ∧ tree.events splitTime.dims [] = .ok events ∧
      events.map Event.instance =
        [⟨0, [0, 0]⟩, ⟨0, [1, 0]⟩, ⟨1, [0]⟩, ⟨2, [0]⟩, ⟨2, [1]⟩] ∧
      splitTime.dims.isTimeLike ⟨0⟩ = true ∧
      ∃ a ∈ es, ∃ b ∈ es, ⟨0⟩ ∈ commonRoots splitTime.dims a b ∧
        ¬WritesFirst splitTime.dims es a b ⟨0⟩ (events.map Event.instance)) ∧
      ∃ tree es events, (twoTimes.schedule default).result = .ok tree ∧
        twoTimes.lower.result = .ok es ∧ tree.events twoTimes.dims [] = .ok events ∧
        twoTimes.dims.isTimeLike ⟨1⟩ = true ∧
        ∃ a ∈ es, ∃ b ∈ es, ⟨1⟩ ∈ commonRoots twoTimes.dims a b ∧
          ¬WritesFirst twoTimes.dims es a b ⟨1⟩ (events.map Event.instance) := by
  constructor
  · have facts : ∃ tree es events, (splitTime.schedule default).result = .ok tree ∧
        splitTime.lower.result = .ok es ∧ tree.events splitTime.dims [] = .ok events ∧
        events.map Event.instance =
          [⟨0, [0, 0]⟩, ⟨0, [1, 0]⟩, ⟨1, [0]⟩, ⟨2, [0]⟩, ⟨2, [1]⟩] ∧
        Instance.Writes splitTime.dims es ⟨2, [0]⟩ ⟨"u", [1]⟩ ∧
        Instance.Reads splitTime.dims es ⟨0, [1, 0]⟩ ⟨"u", [1]⟩ ∧
        ∃ a ∈ es, ∃ b ∈ es, a.index = 2 ∧ b.index = 0 ∧
          ⟨0⟩ ∈ commonRoots splitTime.dims a b ∧
          a.valueAt? splitTime.dims [0] ⟨0⟩ = some 0 ∧
          b.valueAt? splitTime.dims [1, 0] ⟨0⟩ = some 1 :=
      ⟨_, _, _, rfl, rfl, rfl, by decide +kernel, by decide +kernel, by decide +kernel,
        by decide +kernel⟩
    obtain ⟨tree, es, events, ht, hl, he, hxs, hwrite, hread, a, ha, b, hb, hai, hbi, hroot, hu,
      hv⟩ := facts
    refine ⟨tree, es, events, ht, hl, he, hxs, rfl, a, ha, b, hb, hroot, ?_⟩
    intro h
    rw [hxs] at h
    have hlt : 3 < 1 := h rfl rfl hai.symm hbi.symm hwrite hread hu hv Int.zero_lt_one
    exact absurd hlt (by decide)
  · have facts : ∃ tree es events, (twoTimes.schedule default).result = .ok tree ∧
        twoTimes.lower.result = .ok es ∧ tree.events twoTimes.dims [] = .ok events ∧
        (events.map Event.instance)[4]? = some ⟨0, [1, 0, 0]⟩ ∧
        (events.map Event.instance)[3]? = some ⟨1, [0, 1, 0]⟩ ∧
        Instance.Writes twoTimes.dims es ⟨0, [1, 0, 0]⟩ ⟨"u", [0]⟩ ∧
        Instance.Reads twoTimes.dims es ⟨1, [0, 1, 0]⟩ ⟨"u", [0]⟩ ∧
        ∃ a ∈ es, ∃ b ∈ es, a.index = 0 ∧ b.index = 1 ∧
          ⟨1⟩ ∈ commonRoots twoTimes.dims a b ∧
          a.valueAt? twoTimes.dims [1, 0, 0] ⟨1⟩ = some 0 ∧
          b.valueAt? twoTimes.dims [0, 1, 0] ⟨1⟩ = some 1 :=
      ⟨_, _, _, rfl, rfl, rfl, by decide +kernel, by decide +kernel, by decide +kernel,
        by decide +kernel, by decide +kernel⟩
    obtain ⟨tree, es, events, ht, hl, he, hx, hy, hwrite, hread, a, ha, b, hb, hai, hbi, hroot, hu,
      hv⟩ := facts
    refine ⟨tree, es, events, ht, hl, he, rfl, a, ha, b, hb, hroot, ?_⟩
    intro h
    have hlt : 4 < 3 := h hx hy hai.symm hbi.symm hwrite hread hu hv Int.zero_lt_one
    exact absurd hlt (by decide)

end LoopNest
