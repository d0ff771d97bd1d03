import LoopNest.Cluster
import LoopNest.Proofs.Dependence
import LoopNest.Proofs.Demand
/-!
# Clusters in order of execution

The equations are put in an order that no edge runs against: as edges point forward in the order
of declaration, the first equation that waits may always come next (`Arranged.next?_isSome`).
Grouping keeps that order.  Each cluster holds equations of one signature, and along each of its
loops in space they are fusible.  `Cluster.Sound` collects what holds of one cluster, and
`Cluster.build_sound` and `Cluster.build_respects` say it of all clusters of a program.
-/

namespace LoopNest.Cluster

open Lowered

variable {t : DimTable} {es : List Lowered} {g : DependenceGraph}

/-- No edge leads from a later equation of the list to an earlier one. -/
def Respects (g : DependenceGraph) (is : List Nat) : Prop :=
  is.Pairwise fun i j => ∀ edge ∈ g.edges, ¬(edge.source = j ∧ edge.sink = i)

/-- What edges are relied upon to do: they end in equations and point forward. -/
structure Forward (n : Nat) (g : DependenceGraph) : Prop where
  issued : ∀ edge ∈ g.edges, edge.source < n
  forward : ∀ edge ∈ g.edges, edge.isSelf = false → edge.source < edge.sink

theorem forward_of_graph (h : graph t es = .ok g) (hn : Numbered es) : Forward es.length g :=
  ⟨fun _ he => (source_lt_length h hn he).1, fun _ he hs => source_lt_sink h hn he hs⟩

/-! ## The order of equations -/

theorem isReady_iff {placed : List Nat} {i : Nat} :
    isReady g placed i = true ↔
      ∀ edge ∈ g.edges, edge.sink = i → edge.isSelf = false → edge.source ∈ placed := by
  simp only [isReady, List.all_eq_true, Bool.or_eq_true, bne_iff_ne, List.contains_iff_mem]
  refine forall_congr' fun edge => forall_congr' ?_
  intro _
  cases hs : edge.isSelf with
  | true => simp
  | false => simp [Decidable.imp_iff_not_or]

theorem prefer_mem {last : Option Signature} {ready : List Lowered} {e : Lowered}
    (h : prefer last ready = some e) : e ∈ ready := by
  rw [prefer] at h
  cases hc : ready.find? fun e => continues last e.signature with
  | some a =>
      rw [hc] at h
      cases h
      exact List.mem_of_find?_eq_some hc
  | none =>
      rw [hc] at h
      cases hs : ready.find? fun e => sameConditions last e.signature with
      | some a =>
          rw [hs] at h
          cases h
          exact List.mem_of_find?_eq_some hs
      | none =>
          rw [hs] at h
          exact List.mem_of_mem_head? h

theorem prefer_isSome {last : Option Signature} {ready : List Lowered} (h : ready ≠ []) :
    (prefer last ready).isSome = true := by
  obtain ⟨a, rest, rfl⟩ := List.exists_cons_of_ne_nil h
  rw [prefer]
  generalize List.find? (fun e => continues last e.signature) (a :: rest) = x
  generalize List.find? (fun e => sameConditions last e.signature) (a :: rest) = y
  cases x <;> cases y <;> rfl

theorem next?_eq_some {waiting placed : List Lowered} {e : Lowered}
    (h : next? g waiting placed = some e) :
    e ∈ waiting ∧ isReady g (placed.map index) e.index = true :=
  List.mem_filter.mp (prefer_mem h)

/-- How far the arranging has come: what is placed and what waits are the equations, and what is
placed was placed after all it depends on. -/
structure Arranged (g : DependenceGraph) (es waiting placed : List Lowered) : Prop where
  perm : (placed ++ waiting).Perm es
  ascending : waiting.Pairwise fun a b => a.index < b.index
  closed : ∀ a ∈ placed, ∀ edge ∈ g.edges, edge.sink = a.index → edge.isSelf = false →
    edge.source ∈ placed.map index
  respects : Respects g (placed.map index)

namespace Arranged

variable {waiting placed : List Lowered}

/-- The first equation that waits may come next: what it depends on does not wait. -/
theorem isReady_first {a : Lowered} {rest : List Lowered} (h : Arranged g es (a :: rest) placed)
    (hn : Numbered es) (hf : Forward es.length g) :
    isReady g (placed.map index) a.index = true := by
  refine isReady_iff.mpr ?_
  intro edge he hsink hself
  have hlt : edge.source < a.index := hsink ▸ hf.forward edge he hself
  obtain ⟨b, hb, hbi⟩ := hn.exists_of_lt (hf.issued edge he)
  rcases List.mem_append.mp (h.perm.mem_iff.mpr hb) with hp | hp
  · exact hbi ▸ List.mem_map_of_mem hp
  · rcases List.mem_cons.mp hp with rfl | hp
    · omega
    · have := (List.pairwise_cons.mp h.ascending).1 b hp
      omega

theorem next?_isSome (h : Arranged g es waiting placed) (hn : Numbered es)
    (hf : Forward es.length g) (hw : waiting ≠ []) : (next? g waiting placed).isSome = true := by
  obtain ⟨a, rest, rfl⟩ := List.exists_cons_of_ne_nil hw
  exact prefer_isSome (List.ne_nil_of_mem
    (List.mem_filter.mpr ⟨List.mem_cons_self, h.isReady_first hn hf⟩))

theorem index_nodup (h : Arranged g es waiting placed) (hn : Numbered es) :
    ((placed ++ waiting).map index).Nodup := by
  rw [(h.perm.map index).nodup_iff, hn]
  exact List.nodup_range

theorem filter_perm {e : Lowered} (hnodup : (waiting.map index).Nodup) (he : e ∈ waiting) :
    (e :: waiting.filter fun w => w.index != e.index).Perm waiting := by
  induction waiting with
  | nil => cases he
  | cons a rest ih =>
      rw [List.map_cons, List.nodup_cons] at hnodup
      rcases List.mem_cons.mp he with rfl | he
      · rw [List.filter_cons_of_neg (by simp), List.filter_eq_self.mpr fun w hw => ?_]
        exact bne_iff_ne.mpr fun hi => hnodup.1 (hi ▸ List.mem_map_of_mem hw)
      · have hne : (a.index != e.index) = true :=
          bne_iff_ne.mpr fun hi => hnodup.1 (hi ▸ List.mem_map_of_mem he)
        simp only [List.filter_cons, hne, if_true]
        exact (List.Perm.swap _ _ _).trans ((ih hnodup.2 he).cons a)

theorem place (h : Arranged g es waiting placed) (hn : Numbered es) {e : Lowered}
    (hnext : next? g waiting placed = some e) :
    Arranged g es (waiting.filter fun w => w.index != e.index) (placed ++ [e]) := by
  obtain ⟨he, hready⟩ := next?_eq_some hnext
  have hnodup := h.index_nodup hn
  rw [List.map_append, List.nodup_append] at hnodup
  obtain ⟨_, hwait, hdisj⟩ := hnodup
  refine ⟨?_, h.ascending.sublist List.filter_sublist, ?_, ?_⟩
  · rw [List.append_assoc]
    exact ((filter_perm hwait he).append_left placed).trans h.perm
  · intro a ha edge hm hsink hself
    rw [List.map_append]
    refine List.mem_append_left _ ?_
    rcases List.mem_append.mp ha with ha | ha
    · exact h.closed a ha edge hm hsink hself
    · rw [List.mem_singleton.mp ha] at hsink
      exact isReady_iff.mp hready edge hm hsink hself
  · rw [List.map_append]
    refine List.pairwise_append.mpr ⟨h.respects, List.pairwise_singleton _ _, ?_⟩
    rintro i hi j hj edge hm ⟨hsource, hsink⟩
    rw [List.mem_singleton.mp hj] at hsource
    obtain ⟨a, ha, rfl⟩ := List.mem_map.mp hi
    have hne : a.index ≠ e.index := hdisj _ hi _ (List.mem_map_of_mem he)
    have hself : edge.isSelf = false := by
      simp only [Edge.isSelf, hsource, hsink, beq_eq_false_iff_ne]
      exact hne.symm
    have hs := h.closed a ha edge hm hsink hself
    rw [hsource] at hs
    exact hdisj _ hs _ (List.mem_map_of_mem he) rfl

end Arranged

theorem arrange_arranged (hn : Numbered es) (hf : Forward es.length g) :
    ∀ {n : Nat} {waiting placed : List Lowered}, Arranged g es waiting placed →
      waiting.length ≤ n → Arranged g es [] (arrange g n waiting placed)
  | 0, waiting, placed, h, hl => by
      rw [List.length_eq_zero_iff.mp (Nat.le_zero.mp hl)] at h
      exact h
  | n + 1, waiting, placed, h, hl => by
      rw [arrange]
      cases hnext : next? g waiting placed with
      | some e =>
          have hp := h.place hn hnext
          refine arrange_arranged hn hf hp ?_
          have hnodup := h.index_nodup hn
          rw [List.map_append] at hnodup
          have hlen := (Arranged.filter_perm (List.nodup_append.mp hnodup).2.1
            (next?_eq_some hnext).1).length_eq
          simp only [List.length_cons] at hlen
          show (List.filter _ waiting).length ≤ n
          omega
      | none =>
          have hw : waiting = [] := Decidable.byContradiction fun hw => by
            have := h.next?_isSome hn hf hw
            rw [hnext] at this
            cases this
          subst hw
          simpa using h

/-- All equations are placed, and no edge runs against the order. -/
theorem order_arranged (hn : Numbered es) (hf : Forward es.length g) :
    Arranged g es [] (order g es) :=
  arrange_arranged hn hf ⟨List.Perm.refl _, hn.pairwise, by simp, List.Pairwise.nil⟩
    (Nat.le_refl _)

theorem order_perm (hn : Numbered es) (hf : Forward es.length g) : (order g es).Perm es := by
  have hperm := (order_arranged hn hf).perm
  rwa [List.append_nil] at hperm

/-! ## Grouping -/

/-- What holds of a cluster of the equations `es`. -/
structure Sound (t : DimTable) (g : DependenceGraph) (es : List Lowered) (c : Cluster) : Prop where
  nonempty : c.equations ≠ []
  uniform : ∀ i ∈ c.equations, ∃ e ∈ es, e.index = i ∧ e.signature = c.signature
  fusible : ∀ d ∈ c.signature.loops, t.isTimeLike (t.root d) = false →
    Fusible g c.equations (t.root d)

theorem fusible_singleton (h : graph t es = .ok g) (hn : Numbered es) (root : DimId) (i : Nat) :
    Fusible g [i] root := by
  refine ⟨Fusible.known_singleton g root i, Demand.isSatisfiable_ofEdges ?_⟩
  intro x hx y hy hxr hyr
  obtain ⟨hxm, hxw⟩ := Demand.mem_within.mp hx
  obtain ⟨hym, hyw⟩ := Demand.mem_within.mp hy
  have hsource : ∀ z : Edge, z.isWithin [i] = true → z.source = i := by
    intro z hz
    simp only [Edge.isWithin, Bool.and_eq_true, List.contains_iff_mem, List.mem_singleton] at hz
    exact hz.1
  exact self_edges_agree h hn hxm hym (Edge.isSelf_of_isWithin_singleton hxw)
    (Edge.isSelf_of_isWithin_singleton hyw) ((hsource x hxw).trans (hsource y hyw).symm)
    (hxr.trans hyr.symm)

theorem single_sound (h : graph t es = .ok g) (hn : Numbered es) {e : Lowered} (he : e ∈ es) :
    (single e).Sound t g es := by
  refine ⟨by simp [single], fun i hi => ?_, fun d _ _ => fusible_singleton h hn _ _⟩
  exact ⟨e, he, (List.mem_singleton.mp hi).symm, rfl⟩

theorem fusible_of_obstacleAlong? {c : Cluster} {e : Lowered} {d : DimId}
    (hc : Fusible g c.equations (t.root d)) (he : Fusible g [e.index] (t.root d))
    (htime : t.isTimeLike (t.root d) = false) (h : obstacleAlong? t g c e.index d = none) :
    Fusible g (c.equations ++ [e.index]) (t.root d) := by
  rw [obstacleAlong?] at h
  simp only [htime, Bool.false_eq_true, if_false] at h
  split at h
  · cases h
  · split at h
    · cases h
    · rename_i hany hs
      refine hc.append he (fun edge hm hcar => hany ?_) (by simpa using hs)
      exact List.any_eq_true.mpr ⟨edge, hm, by simp [hcar]⟩

theorem append_sound (h : graph t es = .ok g) (hn : Numbered es) {c : Cluster} {e : Lowered}
    (hc : c.Sound t g es) (he : e ∈ es) (hsig : c.signature = e.signature)
    (hno : obstacle? t g c e.index = none) :
    Sound t g es ⟨c.equations ++ [e.index], c.signature⟩ := by
  refine ⟨by simp, fun i hi => ?_, fun d hd htime => ?_⟩
  · rcases List.mem_append.mp hi with hi | hi
    · exact hc.uniform i hi
    · exact ⟨e, he, (List.mem_singleton.mp hi).symm, hsig.symm⟩
  · exact fusible_of_obstacleAlong? (hc.fusible d hd htime) (fusible_singleton h hn _ _) htime
      (List.findSome?_eq_none_iff.mp hno d hd)

/-- The equations of clusters, in order. -/
def members (cs : List Cluster) : List Nat := cs.flatMap Cluster.equations

/-- The next equation comes after those grouped so far, in the last cluster or in a new one.  It
begins a new one only if the last has another signature or an obstacle keeps the equation out. -/
theorem Grouping.add_clusters (s : Grouping) (e : Lowered) :
    ((Grouping.add t g s e).clusters = s.clusters ++ [single e] ∧
        ∀ c ∈ s.last, c.signature = e.signature →
          ∃ note, obstacle? t g c e.index = some note) ∨
      ∃ before c, s.clusters = before ++ [c] ∧ c.signature = e.signature ∧
        obstacle? t g c e.index = none ∧
        (Grouping.add t g s e).clusters = before ++ [⟨c.equations ++ [e.index], c.signature⟩] := by
  unfold Grouping.add Grouping.clusters
  cases s.last with
  | none => exact Or.inl ⟨by simp, fun c hc => nomatch hc⟩
  | some c =>
      by_cases hsig : c.signature = e.signature
      · cases hob : obstacle? t g c e.index with
        | none => exact Or.inr ⟨s.done, c, by simp, hsig, hob, by simp [hsig, hob]⟩
        | some note =>
            refine Or.inl ⟨by simp [hsig, hob], fun c' hc' _ => ?_⟩
            cases hc'
            exact ⟨note, hob⟩
      · refine Or.inl ⟨by simp [hsig], fun c' hc' hsig' => ?_⟩
        cases hc'
        exact absurd hsig' hsig

theorem Grouping.last_add (s : Grouping) (e : Lowered) :
    ∃ c, (Grouping.add t g s e).last = some c := by
  unfold Grouping.add
  cases s.last with
  | none => exact ⟨_, rfl⟩
  | some c =>
      by_cases hsig : c.signature = e.signature
      · cases hob : obstacle? t g c e.index with
        | none => exact ⟨_, by simp only [hsig, hob, if_true]; rfl⟩
        | some note => exact ⟨_, by simp only [hsig, hob, if_true]; rfl⟩
      · exact ⟨_, by simp only [hsig, if_false]; rfl⟩

theorem group_sound (h : graph t es = .ok g) (hn : Numbered es) {fs : List Lowered}
    (hsub : ∀ e ∈ fs, e ∈ es) :
    (∀ c ∈ (group t g fs).clusters, c.Sound t g es) ∧
      members (group t g fs).clusters = fs.map index := by
  have step : ∀ (fs : List Lowered) (s : Grouping), (∀ e ∈ fs, e ∈ es) →
      (∀ c ∈ s.clusters, c.Sound t g es) →
      (∀ c ∈ (fs.foldl (Grouping.add t g) s).clusters, c.Sound t g es) ∧
        members (fs.foldl (Grouping.add t g) s).clusters = members s.clusters ++ fs.map index := by
    intro fs
    induction fs with
    | nil =>
        intro s _ hs
        exact ⟨hs, by simp⟩
    | cons e fs ih =>
        intro s hfs hs
        have he := hfs e List.mem_cons_self
        have hadd : (∀ c ∈ (Grouping.add t g s e).clusters, c.Sound t g es) ∧
            members (Grouping.add t g s e).clusters = members s.clusters ++ [e.index] := by
          rcases Grouping.add_clusters (t := t) (g := g) s e with
            ⟨heq, _⟩ | ⟨before, c, hb, hsig, hno, heq⟩
          · refine ⟨fun c hc => ?_, by simp [heq, members, single]⟩
            rw [heq] at hc
            rcases List.mem_append.mp hc with hc | hc
            · exact hs c hc
            · rw [List.mem_singleton.mp hc]
              exact single_sound h hn he
          · refine ⟨fun c' hc => ?_, by simp [heq, hb, members]⟩
            rw [heq] at hc
            rcases List.mem_append.mp hc with hc | hc
            · exact hs c' (hb ▸ List.mem_append_left _ hc)
            · rw [List.mem_singleton.mp hc]
              exact append_sound h hn (hs c (hb ▸ by simp)) he hsig hno
        obtain ⟨hsound, hmem⟩ := ih _ (fun a ha => hfs a (List.mem_cons_of_mem _ ha)) hadd.1
        exact ⟨hsound, by rw [List.foldl_cons, hmem, hadd.2]; simp⟩
  simpa [group, Grouping.clusters, members] using
    step fs ⟨[], none, []⟩ hsub (by simp [Grouping.clusters])

/-! ## The clusters of a program -/

theorem build_sound (h : graph t es = .ok g) (hn : Numbered es) (options : Options) :
    ∀ c ∈ build t g options es, c.Sound t g es := by
  rw [build]
  split
  · have hperm := order_perm hn (forward_of_graph h hn)
    exact (group_sound h hn fun e he => hperm.mem_iff.mp he).1
  · intro c hc
    obtain ⟨e, he, rfl⟩ := List.mem_map.mp hc
    exact single_sound h hn he

/-- The clusters hold every equation once, in an order that no edge runs against. -/
theorem build_respects (h : graph t es = .ok g) (hn : Numbered es) (options : Options) :
    (members (build t g options es)).Perm (List.range es.length) ∧
      Respects g (members (build t g options es)) := by
  have hf := forward_of_graph h hn
  rw [build]
  split
  · have hperm := order_perm hn hf
    rw [(group_sound h hn fun e he => hperm.mem_iff.mp he).2]
    exact ⟨hn ▸ hperm.map index, (order_arranged hn hf).respects⟩
  · have hmem : members (es.map single) = List.range es.length := by
      rw [← hn]
      rw [members, List.flatMap_map]
      exact List.flatMap_pure_eq_map index es
    rw [hmem]
    refine ⟨List.Perm.refl _, List.pairwise_lt_range.imp fun {i j} hij edge he => ?_⟩
    rintro ⟨rfl, rfl⟩
    have : edge.isSelf = false := by
      simp only [Edge.isSelf, beq_eq_false_iff_ne]
      omega
    have := hf.forward edge he this
    omega

end LoopNest.Cluster
