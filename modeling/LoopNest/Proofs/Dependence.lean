import LoopNest.Dependence.Analysis
import LoopNest.Proofs.Lowering
/-!
# The edges of a dependence graph

`Lowered.mem_graph_iff` says where the edges of a graph come from: from the write of an equation
and one of its reads, from a loop along which an equation writes one element over and over, and
from the conflicting accesses of two equations, the one declared first as the source.  The rest
reads off this what scheduling relies on: edges point forward in the order of declaration, time is
carried forward, and what one equation demands of a loop is one direction.
-/

namespace LoopNest

variable {t : DimTable}

/-! ## The carrier of one pair -/

namespace AccessPair

variable {p : AccessPair} {unindexed : Option Int}

/-- Roots along which the accesses are no distance apart are passed over. -/
theorem carrier_append : ∀ {pre : List DimId} (rest : List DimId),
    (∀ r ∈ pre, p.first.distance? t unindexed r p.second = some 0) →
      p.carrier t unindexed (pre ++ rest) = p.carrier t unindexed rest
  | [], _, _ => rfl
  | r :: pre, rest, h => by
      rw [List.cons_append, carrier, h r List.mem_cons_self]
      simp only [if_true]
      exact carrier_append rest fun s hs => h s (List.mem_cons_of_mem _ hs)

theorem carrier_of_unknown {root : DimId} (inner : List DimId)
    (h : p.first.distance? t unindexed root p.second = none) :
    p.carrier t unindexed (root :: inner) = .ok (.unknown root) := by
  rw [carrier, h]

theorem carrier_of_zero_or_none : ∀ {pre : List DimId},
    (∀ s ∈ pre, p.first.distance? t unindexed s p.second = some 0 ∨
      p.first.distance? t unindexed s p.second = none) →
    (∀ s ∈ pre, p.first.distance? t unindexed s p.second = some 0) ∨
      ∃ s ∈ pre, p.first.distance? t unindexed s p.second = none ∧
        ∀ rest, p.carrier t unindexed (pre ++ rest) = .ok (.unknown s)
  | [], _ => Or.inl fun s hs => absurd hs List.not_mem_nil
  | s :: pre, h => by
      rcases h s List.mem_cons_self with hs | hs
      · rcases carrier_of_zero_or_none fun r hr => h r (List.mem_cons_of_mem _ hr) with
          hzero | ⟨r, hr, hnone, hc⟩
        · exact Or.inl (List.forall_mem_cons.mpr ⟨hs, hzero⟩)
        · refine Or.inr ⟨r, List.mem_cons_of_mem _ hr, hnone, fun rest => ?_⟩
          rw [List.cons_append, carrier, hs]
          exact hc rest
      · exact Or.inr ⟨s, List.mem_cons_self, hs, fun rest => carrier_of_unknown _ hs⟩

theorem carrier_of_ne {root : DimId} (inner : List DimId) {d : Int} (hd : d ≠ 0)
    (h : p.first.distance? t unindexed root p.second = some d) :
    p.carrier t unindexed (root :: inner) = p.carrierAt t root d := by
  rw [carrier, h]
  simp only [if_neg hd]

/-- What a carrier over a known distance is, if the distance is legal. -/
theorem carrierAt_eq_ok {root : DimId} {d : Int} {c : Carrier}
    (h : p.carrierAt t root d = .ok c) :
    (t.isTimeLike root = true ∧ readsFuture p.kind d = false ∧ c = .carried root .forward) ∨
      (t.isTimeLike root = false ∧ c = .carried root (.ofDistance d)) := by
  rw [carrierAt] at h
  split at h
  · rename_i htime
    split at h
    · cases h
    · rename_i hfuture
      cases h
      exact Or.inl ⟨htime, by simpa using hfuture, rfl⟩
  · rename_i htime
    cases h
    exact Or.inr ⟨by simpa using htime, rfl⟩

theorem root?_of_carrierAt {root : DimId} {d : Int} {c : Carrier}
    (h : p.carrierAt t root d = .ok c) : c.root? = some root := by
  rcases carrierAt_eq_ok h with ⟨_, _, rfl⟩ | ⟨_, rfl⟩ <;> rfl

theorem carrier_eq_ok : ∀ {roots : List DimId} {c : Carrier},
    p.carrier t unindexed roots = .ok c →
      c = .independent ∨ ∃ root ∈ roots,
        (c = .unknown root ∧ p.first.distance? t unindexed root p.second = none) ∨
          ∃ d, p.first.distance? t unindexed root p.second = some d ∧
            p.carrierAt t root d = .ok c
  | [], c, h => by
      cases h
      exact Or.inl rfl
  | root :: inner, c, h => by
      rw [carrier] at h
      cases hd : p.first.distance? t unindexed root p.second with
      | none =>
          rw [hd] at h
          cases h
          exact Or.inr ⟨root, List.mem_cons_self, Or.inl ⟨rfl, hd⟩⟩
      | some d =>
          simp only [hd] at h
          split at h
          · rcases carrier_eq_ok h with rfl | ⟨r, hr, hc⟩
            · exact Or.inl rfl
            · exact Or.inr ⟨r, List.mem_cons_of_mem _ hr, hc⟩
          · exact Or.inr ⟨root, List.mem_cons_self, Or.inr ⟨d, hd, h⟩⟩

theorem distance?_of_independent : ∀ {roots : List DimId},
    p.carrier t unindexed roots = .ok .independent →
      ∀ r ∈ roots, p.first.distance? t unindexed r p.second = some 0
  | [], _, r, hr => absurd hr List.not_mem_nil
  | root :: inner, h, r, hr => by
      rw [carrier] at h
      cases hd : p.first.distance? t unindexed root p.second with
      | none =>
          rw [hd] at h
          cases h
      | some d =>
          simp only [hd] at h
          split at h
          · rename_i hzero
            rcases List.mem_cons.mp hr with rfl | hr
            · rw [hd, hzero]
            · exact distance?_of_independent h r hr
          · have := root?_of_carrierAt h
            cases this

theorem direction_of_timeLike {roots : List DimId} {root : DimId} {dir : Direction}
    (h : p.carrier t unindexed roots = .ok (.carried root dir)) (ht : t.isTimeLike root = true) :
    dir = .forward := by
  rcases carrier_eq_ok h with hc | ⟨r, _, ⟨hc, _⟩ | ⟨d, _, hat⟩⟩
  · cases hc
  · cases hc
  · rcases carrierAt_eq_ok hat with ⟨_, _, hc⟩ | ⟨hs, hc⟩
    · cases hc
      rfl
    · cases hc
      rw [ht] at hs
      cases hs

end AccessPair

/-! ## An equation and itself -/

namespace Lowered

/-- Carriers of which no two demand different directions of one loop. -/
def Agreeing (cs : List Carrier) : Prop :=
  ∀ c ∈ cs, ∀ d ∈ cs, c.root? = d.root? → c.direction? = d.direction?

theorem addSelfCarrier_eq_ok {e : Lowered} {done all : List Carrier} {read : Access}
    (h : addSelfCarrier t e done read = .ok all) :
    ∃ c, (e.selfPair read).carrier t none (e.roots t) = .ok c ∧
      ((c.root? = none ∧ all = done) ∨
        (c.root?.isSome = true ∧ all = done ++ [c] ∧
          ∀ d ∈ done, c.root? = d.root? → c.direction? = d.direction?)) := by
  obtain ⟨c, hc, h⟩ := bind_eq_ok.mp h
  refine ⟨c, hc, ?_⟩
  cases hr : c.root? with
  | none =>
      simp only [hr] at h
      cases h
      exact Or.inl ⟨rfl, rfl⟩
  | some root =>
      simp only [hr] at h
      split at h
      · cases h
      · rename_i hany
        cases h
        refine Or.inr ⟨rfl, rfl, fun d hd hroot => ?_⟩
        have hno : c.opposes d = false := by
          simpa using fun ho => hany (List.any_eq_true.mpr ⟨d, hd, ho⟩)
        rw [← hr] at hroot
        simpa [Carrier.opposes, Carrier.isCarried, hr, ← hroot] using hno

theorem selfCarriers_agree {e : Lowered} {reads : List Access} {cs : List Carrier}
    (h : reads.foldlM (addSelfCarrier t e) [] = .ok cs) : Agreeing cs := by
  refine foldlM_induction (P := Agreeing) (fun read _ done all hd hstep => ?_) ?_ h
  · obtain ⟨c, _, ⟨_, rfl⟩ | ⟨_, rfl, hnew⟩⟩ := addSelfCarrier_eq_ok hstep
    · exact hd
    · intro a ha b hb hab
      rcases List.mem_append.mp ha with ha | ha <;> rcases List.mem_append.mp hb with hb | hb
      · exact hd a ha b hb hab
      · rw [List.mem_singleton.mp hb] at hab ⊢
        exact (hnew a ha hab.symm).symm
      · rw [List.mem_singleton.mp ha] at hab ⊢
        exact hnew b hb hab
      · rw [List.mem_singleton.mp ha, List.mem_singleton.mp hb]
  · intro a ha
    exact absurd ha List.not_mem_nil

theorem mem_selfCarriers_iff {e : Lowered} : ∀ {reads : List Access} {done cs : List Carrier},
    reads.foldlM (addSelfCarrier t e) done = .ok cs →
      (∀ c, c ∈ cs ↔ c ∈ done ∨ c.root?.isSome = true ∧
        ∃ read ∈ reads, (e.selfPair read).carrier t none (e.roots t) = .ok c) ∧
      ∀ read ∈ reads, ∃ c, (e.selfPair read).carrier t none (e.roots t) = .ok c
  | [], done, cs, h => by
      cases h
      exact ⟨by simp, fun _ hr => absurd hr List.not_mem_nil⟩
  | read :: reads, done, cs, h => by
      rw [List.foldlM_cons] at h
      obtain ⟨mid, hstep, h⟩ := bind_eq_ok.mp h
      obtain ⟨hmem, hok⟩ := mem_selfCarriers_iff h
      obtain ⟨c, hc, hcase⟩ := addSelfCarrier_eq_ok hstep
      have hmid : ∀ b, b ∈ mid ↔ b ∈ done ∨ b.root?.isSome = true ∧ b = c := by
        rcases hcase with ⟨hr, rfl⟩ | ⟨hr, rfl, _⟩
        · refine fun b => ⟨Or.inl, fun hb => hb.elim id ?_⟩
          rintro ⟨hs, rfl⟩
          rw [hr] at hs
          cases hs
        · intro b
          rw [List.mem_append, List.mem_singleton]
          exact or_congr_right ⟨fun hb => ⟨hb ▸ hr, hb⟩, And.right⟩
      refine ⟨fun b => ?_, fun r hr => ?_⟩
      · rw [hmem, hmid, or_assoc, ← and_or_left]
        refine or_congr_right (and_congr_right fun _ => ?_)
        constructor
        · rintro (rfl | ⟨r, hr, hb⟩)
          · exact ⟨read, List.mem_cons_self, hc⟩
          · exact ⟨r, List.mem_cons_of_mem _ hr, hb⟩
        · rintro ⟨r, hr, hb⟩
          rcases List.mem_cons.mp hr with rfl | hr
          · exact Or.inl (Except.ok.inj (hb.symm.trans hc))
          · exact Or.inr ⟨r, hr, hb⟩
      · rcases List.mem_cons.mp hr with rfl | hr
        · exact ⟨c, hc⟩
        · exact hok r hr

/-- The edges of an equation on itself: over its reads, and over a loop that rewrites. -/
theorem mem_selfEdges_iff {e : Lowered} {own : List Edge} (h : selfEdges t e = .ok own)
    (edge : Edge) :
    edge ∈ own ↔
      (∃ read ∈ e.readsOf t e.write.tensor, ∃ c,
        (e.selfPair read).carrier t none (e.roots t) = .ok c ∧ c.root?.isSome = true ∧
          edge = (e.selfPair read).toEdge c) ∨
        edge ∈ e.rewriteEdges t := by
  obtain ⟨cs, hcs, h⟩ := bind_eq_ok.mp h
  cases h
  have hmem := (mem_selfCarriers_iff hcs).1
  rw [List.mem_append, List.mem_map]
  refine or_congr_left ⟨?_, ?_⟩
  · rintro ⟨c, hc, rfl⟩
    obtain hn | ⟨hs, read, hr, hok⟩ := (hmem c).mp hc
    · exact absurd hn List.not_mem_nil
    · exact ⟨read, hr, c, hok, hs, rfl⟩
  · rintro ⟨read, hr, c, hok, hs, rfl⟩
    exact ⟨c, (hmem c).mpr (Or.inr ⟨hs, read, hr, hok⟩), rfl⟩

theorem distance?_of_unindexed {write read : Access} {root : DimId}
    (h : write.along? t root = none) : write.distance? t none root read = none := by
  rw [Access.distance?, h]
  cases read.along? t root <;> rfl

theorem carrier_of_unindexed {e : Lowered} {read : Access} {c : Carrier} {root : DimId}
    (h : (e.selfPair read).carrier t none (e.roots t) = .ok c)
    (hroot : e.write.along? t root = none) (hc : c.root? = some root) : c = .unknown root := by
  rcases AccessPair.carrier_eq_ok h with rfl | ⟨r, _, ⟨rfl, _⟩ | ⟨d, hd, hat⟩⟩
  · cases hc
  · cases hc
    rfl
  · rw [AccessPair.root?_of_carrierAt hat] at hc
    cases hc
    rw [show (e.selfPair read).first = e.write from rfl, distance?_of_unindexed hroot] at hd
    cases hd

theorem mem_rewriteEdges_iff {e : Lowered} {edge : Edge} :
    edge ∈ e.rewriteEdges t ↔ ∃ root, e.rewriteRoot? t = some root ∧
      edge = ⟨e.index, e.index, e.write.tensor, .output, .unknown root⟩ := by
  rw [rewriteEdges]
  cases e.rewriteRoot? t with
  | none => simp
  | some root => simp

theorem selfEdges_agree {e : Lowered} {own : List Edge} (h : selfEdges t e = .ok own)
    {x y : Edge} (hx : x ∈ own) (hy : y ∈ own) (hr : x.carrier.root? = y.carrier.root?) :
    x.carrier.direction? = y.carrier.direction? := by
  obtain ⟨cs, hcs, h⟩ := bind_eq_ok.mp h
  cases h
  have hmem := (mem_selfCarriers_iff hcs).1
  -- A carrier along a rewritten root is unknown, as is the one that rewriting itself adds.
  have key : ∀ c ∈ cs, ∀ z ∈ e.rewriteEdges t, c.root? = z.carrier.root? →
      c.direction? = z.carrier.direction? := by
    intro c hc z hz hcz
    obtain hn | ⟨-, read, -, hok⟩ := (hmem c).mp hc
    · exact absurd hn List.not_mem_nil
    obtain ⟨root, hrw, rfl⟩ := mem_rewriteEdges_iff.mp hz
    have hun : e.write.along? t root = none := by
      simpa using List.find?_some hrw
    rw [carrier_of_unindexed hok hun hcz]
  rcases List.mem_append.mp hx with hx | hx <;> rcases List.mem_append.mp hy with hy | hy
  · obtain ⟨c, hc, rfl⟩ := List.mem_map.mp hx
    obtain ⟨d, hd, rfl⟩ := List.mem_map.mp hy
    exact selfCarriers_agree hcs c hc d hd hr
  · obtain ⟨c, hc, rfl⟩ := List.mem_map.mp hx
    exact key c hc y hy hr
  · obtain ⟨d, hd, rfl⟩ := List.mem_map.mp hy
    exact (key d hd x hx hr.symm).symm
  · obtain ⟨root, hroot, rfl⟩ := mem_rewriteEdges_iff.mp hx
    obtain ⟨root', hroot', rfl⟩ := mem_rewriteEdges_iff.mp hy
    cases hroot.symm.trans hroot'
    rfl

/-! ## Two equations -/

theorem mem_orderedPairs_iff {α : Type} {R : α → α → Prop} [Std.Asymm R] :
    ∀ {xs : List α}, xs.Pairwise R →
      ∀ {a b : α}, (a, b) ∈ orderedPairs xs ↔ a ∈ xs ∧ b ∈ xs ∧ R a b
  | [], _, a, b => by simp [orderedPairs]
  | x :: xs, h, a, b => by
      obtain ⟨hx, hxs⟩ := List.pairwise_cons.mp h
      rw [orderedPairs, List.mem_append, List.mem_map, mem_orderedPairs_iff hxs]
      constructor
      · rintro (⟨c, hc, heq⟩ | ⟨ha, hb, hab⟩)
        · cases heq
          exact ⟨List.mem_cons_self, List.mem_cons_of_mem _ hc, hx _ hc⟩
        · exact ⟨List.mem_cons_of_mem _ ha, List.mem_cons_of_mem _ hb, hab⟩
      · rintro ⟨ha, hb, hab⟩
        rcases List.mem_cons.mp ha with rfl | ha' <;> rcases List.mem_cons.mp hb with rfl | hb'
        · exact absurd hab (Std.Asymm.asymm _ _ hab)
        · exact Or.inl ⟨b, hb', rfl⟩
        · exact absurd hab (Std.Asymm.asymm _ _ (hx a ha'))
        · exact Or.inr ⟨ha', hb', hab⟩

theorem crossEdge_eq_ok {a b : Lowered} {p : AccessPair} {edge : Edge} :
    ((p.carrier t (some 0) (commonRoots t a b)).map p.toEdge) = .ok edge ↔
      ∃ c, p.carrier t (some 0) (commonRoots t a b) = .ok c ∧ edge = p.toEdge c := by
  rw [map_eq_ok]
  exact exists_congr fun c => and_congr_right fun _ => eq_comm

theorem mem_crossEdges_iff {a b : Lowered} {edges : List Edge}
    (h : crossEdges t a b = .ok edges) (edge : Edge) :
    edge ∈ edges ↔ ∃ p ∈ crossPairs t a b, ∃ c,
      p.carrier t (some 0) (commonRoots t a b) = .ok c ∧ edge = p.toEdge c := by
  have hall := mapM_eq_ok.mp h
  constructor
  · intro he
    obtain ⟨p, hp, hok⟩ := exists_of_forall₂_right hall he
    exact ⟨p, hp, crossEdge_eq_ok.mp hok⟩
  · rintro ⟨p, hp, c, hc, rfl⟩
    obtain ⟨edge, he, hok⟩ := exists_of_forall₂_left hall hp
    obtain ⟨c', hc', rfl⟩ := crossEdge_eq_ok.mp hok
    cases hc.symm.trans hc'
    exact he

theorem ends_of_mem_crossPairs {a b : Lowered} {p : AccessPair} (h : p ∈ crossPairs t a b) :
    p.source = a.index ∧ p.sink = b.index := by
  rw [crossPairs] at h
  rcases List.mem_append.mp h with h | h
  · rcases List.mem_append.mp h with h | h <;> obtain ⟨read, _, rfl⟩ := List.mem_map.mp h <;>
      exact ⟨rfl, rfl⟩
  · split at h
    · rw [List.mem_singleton.mp h]
      exact ⟨rfl, rfl⟩
    · cases h

/-! ## The graph -/

variable {es : List Lowered} {g : DependenceGraph}

/-- Where the edges of a graph come from. -/
theorem mem_graph_iff (h : graph t es = .ok g) (edge : Edge) :
    edge ∈ g.edges ↔
      (∃ e ∈ es, ∃ own, selfEdges t e = .ok own ∧ edge ∈ own) ∨
        ∃ pair ∈ orderedPairs es, ∃ edges, crossEdges t pair.1 pair.2 = .ok edges ∧
          edge ∈ edges := by
  obtain ⟨_, _, h⟩ := bind_eq_ok.mp h
  obtain ⟨own, hown, h⟩ := bind_eq_ok.mp h
  obtain ⟨cross, hcross, h⟩ := bind_eq_ok.mp h
  cases h
  replace hown := mapM_eq_ok.mp hown
  replace hcross := mapM_eq_ok.mp hcross
  rw [List.mem_eraseDups, List.mem_append, List.mem_flatten, List.mem_flatten]
  refine or_congr ⟨?_, ?_⟩ ⟨?_, ?_⟩
  · rintro ⟨edges, hm, he⟩
    obtain ⟨e, hin, hok⟩ := exists_of_forall₂_right hown hm
    exact ⟨e, hin, edges, hok, he⟩
  · rintro ⟨e, hin, edges, hok, he⟩
    obtain ⟨edges', hm, hok'⟩ := exists_of_forall₂_left hown hin
    cases hok.symm.trans hok'
    exact ⟨edges, hm, he⟩
  · rintro ⟨edges, hm, he⟩
    obtain ⟨pair, hin, hok⟩ := exists_of_forall₂_right hcross hm
    exact ⟨pair, hin, edges, hok, he⟩
  · rintro ⟨pair, hin, edges, hok, he⟩
    obtain ⟨edges', hm, hok'⟩ := exists_of_forall₂_left hcross hin
    cases hok.symm.trans hok'
    exact ⟨edges, hm, he⟩

theorem selfEdges_of_graph (h : graph t es = .ok g) {e : Lowered} (he : e ∈ es) :
    ∃ own, selfEdges t e = .ok own := by
  obtain ⟨_, _, h⟩ := bind_eq_ok.mp h
  obtain ⟨own, hown, _⟩ := bind_eq_ok.mp h
  obtain ⟨edges, _, hok⟩ := exists_of_forall₂_left (mapM_eq_ok.mp hown) he
  exact ⟨edges, hok⟩

theorem crossEdges_of_graph (h : graph t es = .ok g) {pair : Lowered × Lowered}
    (hp : pair ∈ orderedPairs es) : ∃ edges, crossEdges t pair.1 pair.2 = .ok edges := by
  obtain ⟨_, _, h⟩ := bind_eq_ok.mp h
  obtain ⟨_, _, h⟩ := bind_eq_ok.mp h
  obtain ⟨cross, hcross, _⟩ := bind_eq_ok.mp h
  obtain ⟨edges, _, hok⟩ := exists_of_forall₂_left (mapM_eq_ok.mp hcross) hp
  exact ⟨edges, hok⟩

/-! ## What scheduling relies on -/

theorem exists_edge_of_mem_crossPairs (h : graph t es = .ok g) (hn : Numbered es) {a b : Lowered}
    (ha : a ∈ es) (hb : b ∈ es) (hab : a.index < b.index) {p : AccessPair}
    (hp : p ∈ crossPairs t a b) :
    ∃ c, p.carrier t (some 0) (commonRoots t a b) = .ok c ∧ p.toEdge c ∈ g.edges := by
  have hpair : (a, b) ∈ orderedPairs es :=
    have : Std.Asymm fun x y : Lowered => x.index < y.index := ⟨fun _ _ => Nat.lt_asymm⟩
    (mem_orderedPairs_iff hn.pairwise).mpr ⟨ha, hb, hab⟩
  obtain ⟨edges, hok⟩ := crossEdges_of_graph h hpair
  obtain ⟨edge, _, hedge⟩ := exists_of_forall₂_left (mapM_eq_ok.mp hok) hp
  obtain ⟨c, hc, rfl⟩ := crossEdge_eq_ok.mp hedge
  exact ⟨c, hc, (mem_graph_iff h _).mpr
    (Or.inr ⟨(a, b), hpair, edges, hok, (mem_crossEdges_iff hok _).mpr ⟨p, hp, c, hc, rfl⟩⟩)⟩

theorem exists_edge_of_mem_readsOf (h : graph t es = .ok g) {e : Lowered} (he : e ∈ es)
    {read : Access} (hr : read ∈ e.readsOf t e.write.tensor) :
    ∃ c, (e.selfPair read).carrier t none (e.roots t) = .ok c ∧
      (c.root?.isSome = true → (e.selfPair read).toEdge c ∈ g.edges) := by
  obtain ⟨own, hown⟩ := selfEdges_of_graph h he
  obtain ⟨cs, hcs, _⟩ := bind_eq_ok.mp hown
  obtain ⟨c, hc⟩ := (mem_selfCarriers_iff hcs).2 read hr
  exact ⟨c, hc, fun hs => (mem_graph_iff h _).mpr
    (Or.inl ⟨e, he, own, hown, (mem_selfEdges_iff hown _).mpr (Or.inl ⟨read, hr, c, hc, hs, rfl⟩)⟩)⟩

/-- The edges of an equation on itself along a root that its write does not index are at no known
distance. -/
theorem unknown_of_unindexed {e : Lowered} {own : List Edge} (h : selfEdges t e = .ok own)
    {edge : Edge} (he : edge ∈ own) {root : DimId} (hroot : e.write.along? t root = none)
    (hc : edge.carrier.root? = some root) : edge.carrier = .unknown root := by
  rcases (mem_selfEdges_iff h edge).mp he with ⟨read, _, c, hok, _, rfl⟩ | hrw
  · exact carrier_of_unindexed hok hroot hc
  · obtain ⟨_, _, rfl⟩ := mem_rewriteEdges_iff.mp hrw
    cases hc
    rfl

theorem ends_of_mem_selfEdges {e : Lowered} {own : List Edge} (h : selfEdges t e = .ok own)
    {edge : Edge} (he : edge ∈ own) : edge.source = e.index ∧ edge.sink = e.index := by
  rcases (mem_selfEdges_iff h edge).mp he with ⟨read, _, c, _, _, rfl⟩ | hrw
  · exact ⟨rfl, rfl⟩
  · obtain ⟨_, _, rfl⟩ := mem_rewriteEdges_iff.mp hrw
    exact ⟨rfl, rfl⟩

/-- The two ends of an edge, and which of the two kinds it is of. -/
theorem ends_of_mem_graph (h : graph t es = .ok g) (hn : Numbered es) {edge : Edge}
    (he : edge ∈ g.edges) :
    (∃ e ∈ es, edge.source = e.index ∧ edge.sink = e.index ∧
        ∃ own, selfEdges t e = .ok own ∧ edge ∈ own) ∨
      ∃ a ∈ es, ∃ b ∈ es, a.index < b.index ∧ edge.source = a.index ∧ edge.sink = b.index ∧
        ∃ p ∈ crossPairs t a b, ∃ c,
          p.carrier t (some 0) (commonRoots t a b) = .ok c ∧ edge = p.toEdge c := by
  rcases (mem_graph_iff h edge).mp he with ⟨e, hin, own, hok, hm⟩ | ⟨⟨a, b⟩, hp, edges, hok, hm⟩
  · obtain ⟨hs, ht⟩ := ends_of_mem_selfEdges hok hm
    exact Or.inl ⟨e, hin, hs, ht, own, hok, hm⟩
  · have : Std.Asymm fun x y : Lowered => x.index < y.index := ⟨fun _ _ => Nat.lt_asymm⟩
    obtain ⟨ha, hb, hab⟩ := (mem_orderedPairs_iff hn.pairwise).mp hp
    obtain ⟨p, hp, c, hc, rfl⟩ := (mem_crossEdges_iff hok edge).mp hm
    obtain ⟨hs, ht⟩ := ends_of_mem_crossPairs hp
    exact Or.inr ⟨a, ha, b, hb, hab, hs, ht, p, hp, c, hc, rfl⟩

theorem source_lt_sink (h : graph t es = .ok g) (hn : Numbered es) {edge : Edge}
    (he : edge ∈ g.edges) (hself : edge.isSelf = false) : edge.source < edge.sink := by
  rcases ends_of_mem_graph h hn he with ⟨e, _, hs, ht, _⟩ | ⟨a, _, b, _, hab, hs, ht, _⟩
  · simp [Edge.isSelf, hs, ht] at hself
  · rw [hs, ht]
    exact hab

theorem source_lt_length (h : graph t es = .ok g) (hn : Numbered es) {edge : Edge}
    (he : edge ∈ g.edges) : edge.source < es.length ∧ edge.sink < es.length := by
  rcases ends_of_mem_graph h hn he with ⟨e, hin, hs, ht, _⟩ | ⟨a, ha, b, hb, _, hs, ht, _⟩
  · rw [hs, ht]
    exact ⟨hn.index_lt hin, hn.index_lt hin⟩
  · rw [hs, ht]
    exact ⟨hn.index_lt ha, hn.index_lt hb⟩

/-- No edge carries time backward. -/
theorem forward_of_timeLike (h : graph t es = .ok g) (hn : Numbered es) {edge : Edge}
    (he : edge ∈ g.edges) {root : DimId} {dir : Direction}
    (hc : edge.carrier = .carried root dir) (ht : t.isTimeLike root = true) : dir = .forward := by
  rcases ends_of_mem_graph h hn he with
    ⟨e, _, _, _, own, hok, hm⟩ | ⟨a, _, b, _, _, _, _, p, _, c, hok, rfl⟩
  · rcases (mem_selfEdges_iff hok edge).mp hm with ⟨read, _, c, hok, _, rfl⟩ | hrw
    · exact AccessPair.direction_of_timeLike (hok.trans (congrArg _ hc)) ht
    · obtain ⟨_, _, rfl⟩ := mem_rewriteEdges_iff.mp hrw
      cases hc
  · exact AccessPair.direction_of_timeLike (hok.trans (congrArg _ hc)) ht

theorem self_edges_agree (h : graph t es = .ok g) (hn : Numbered es) {x y : Edge}
    (hx : x ∈ g.edges) (hy : y ∈ g.edges) (hxs : x.isSelf = true) (hys : y.isSelf = true)
    (hxy : x.source = y.source) (hr : x.carrier.root? = y.carrier.root?) :
    x.carrier.direction? = y.carrier.direction? := by
  have own : ∀ z ∈ g.edges, z.isSelf = true →
      ∃ e ∈ es, z.source = e.index ∧ ∃ own, selfEdges t e = .ok own ∧ z ∈ own := by
    intro z hz hzs
    rcases ends_of_mem_graph h hn hz with ⟨e, he, hs, _, ho⟩ | ⟨a, _, b, _, hab, hs, ht, _⟩
    · exact ⟨e, he, hs, ho⟩
    · have : z.source = z.sink := by simpa [Edge.isSelf] using hzs
      omega
  obtain ⟨a, ha, has, _, hoka, hxa⟩ := own x hx hxs
  obtain ⟨b, hb, hbs, _, hokb, hyb⟩ := own y hy hys
  obtain rfl : a = b := hn.eq_of_index_eq ha hb (has.symm.trans (hxy.trans hbs))
  cases hoka.symm.trans hokb
  exact selfEdges_agree hoka hxa hyb hr

end Lowered

end LoopNest
