import Mathlib.Data.List.Flatten
import Mathlib.Data.List.Sort
import LoopNest.Proofs.Hoisting
import LoopNest.Proofs.Neighbours
import LoopNest.Proofs.Overtaking
/-!
# One loop over time

With fusion no two neighbours in the tree run over one dimension of time.  So equations share their
loops over time as long as every equation placed between them has these loops too
(`Plan.Laid.exists_nested`).  The order of placing follows that of declaration but for equations
that are drawn forward, which is why the equations declared between the two are not all that may
split the nest (`Lowered.Unsplit`).

A nest is shared by dimension and not by root: a part of time has a loop of its own.
-/

namespace LoopNest

open Lowered

theorem mem_between_of_sublist {α : Type} {before between after : List α} {a b x : α}
    (hn : (before ++ b :: (between ++ a :: after)).Nodup)
    (h : [b, x, a].Sublist (before ++ b :: (between ++ a :: after))) : x ∈ between := by
  obtain ⟨hbefore, htail, hdisj⟩ := List.nodup_append.mp hn
  obtain ⟨_, hlater⟩ := List.nodup_cons.mp htail
  have hafter : a ∉ after := (List.nodup_cons.mp (List.nodup_append.mp hlater).2.1).1
  obtain ⟨_ | ⟨y, _⟩, rest, heq, hl, hr⟩ := List.sublist_append_iff.mp h
  · cases heq
    obtain ⟨_ | ⟨y, _⟩, rest, heq, hl, hr⟩ :=
      List.sublist_append_iff.mp (List.cons_sublist_cons.mp hr)
    · cases heq
      have ha : a ∈ after := by
        cases hr with
        | cons _ h => exact h.subset (List.mem_cons_of_mem _ List.mem_cons_self)
        | cons_cons _ h => exact h.subset List.mem_cons_self
      exact absurd ha hafter
    · obtain rfl := (List.cons.inj heq).1
      exact hl.subset List.mem_cons_self
  · obtain rfl := (List.cons.inj heq).1
    exact absurd rfl (hdisj b (hl.subset List.mem_cons_self) b List.mem_cons_self)

theorem sublist_flatMap {α β : Type} {f : α → List β} {xs : List α} {ys : List β}
    (h : List.Forall₂ (fun x y => y ∈ f x) xs ys) : ys.Sublist (xs.flatMap f) := by
  induction h with
  | nil => exact List.Sublist.refl _
  | cons hy _ ih => exact (List.singleton_sublist.mpr hy).append ih

namespace Lowered

/-- The equation runs in the nest, under no condition that is decided outside the last loop. -/
def RunsIn (t : DimTable) (nest : List DimId) (e : Lowered) : Prop :=
  nest <+: e.loops ∧ ∀ c ∈ e.conditions, t.root c ∉ nest.dropLast.map t.root

instance (t : DimTable) (nest : List DimId) (e : Lowered) : Decidable (e.RunsIn t nest) :=
  inferInstanceAs (Decidable (nest <+: e.loops ∧
    ∀ c ∈ e.conditions, t.root c ∉ nest.dropLast.map t.root))

/-- No equation splits the nest between `b` and `a`, which is declared later. -/
structure Unsplit (t : DimTable) (es : List Lowered) (nest : List DimId) (b a : Lowered) :
    Prop where
  between : ∀ e ∈ es, b.index < e.index → e.index < a.index → e.RunsIn t nest
  /-- What is declared before `b` comes after it if `b` is drawn forward to an equation declared
  before both. -/
  overtaken : ∀ e ∈ es, e.index < b.index → ∀ k ∈ es, k.index < e.index →
    b.signature.Follows k.signature → e.RunsIn t nest
  /-- Any equation may be drawn forward to another one in the nest. -/
  drawn : ∀ l ∈ es, l.RunsIn t nest → ∀ e ∈ es, e.signature.Follows l.signature → e.RunsIn t nest

instance (t : DimTable) (es : List Lowered) (nest : List DimId) (b a : Lowered) :
    Decidable (Unsplit t es nest b a) :=
  decidable_of_iff ((∀ e ∈ es, b.index < e.index → e.index < a.index → e.RunsIn t nest) ∧
    (∀ e ∈ es, e.index < b.index → ∀ k ∈ es, k.index < e.index →
      b.signature.Follows k.signature → e.RunsIn t nest) ∧
    ∀ l ∈ es, l.RunsIn t nest → ∀ e ∈ es, e.signature.Follows l.signature → e.RunsIn t nest)
    ⟨fun ⟨h, h', h''⟩ => ⟨h, h', h''⟩, fun ⟨h, h', h''⟩ => ⟨h, h', h''⟩⟩

theorem Unsplit.runsIn {t : DimTable} {es : List Lowered} {nest : List DimId} {a b : Lowered}
    (h : Unsplit t es nest b a) (hb : b.RunsIn t nest) {before between after : List Lowered}
    (hperm : (before ++ b :: (between ++ a :: after)).Perm es) (hn : Numbered es)
    (hturn : Cluster.InTurn none (before ++ b :: (between ++ a :: after))) :
    ∀ e ∈ between, e.RunsIn t nest := by
  have hnodup : ((before ++ b :: (between ++ a :: after)).map index).Nodup := by
    rw [(hperm.map index).nodup_iff, hn]
    exact List.nodup_range
  have hbetween : ∀ e ∈ between, e ∈ between ++ a :: after := fun e he =>
    List.mem_append_left _ he
  have hmem : ∀ e ∈ between, e ∈ es := fun e he =>
    hperm.mem_iff.mp (List.mem_append_right _ (List.mem_cons_of_mem _ (hbetween e he)))
  have hbm : b ∈ es := hperm.mem_iff.mp (List.mem_append_right _ List.mem_cons_self)
  have hall : ∀ e ∈ between, e ∈ es ∧ e.RunsIn t nest := by
    refine hturn.drop.forall_between (P := fun e => e ∈ es ∧ e.RunsIn t nest) ⟨hbm, hb⟩ ?_ ?_
    · exact fun l hl e he hfollows => ⟨hmem e he, h.drawn l hl.1 hl.2 e (hmem e he) hfollows⟩
    · intro e he hlt
      refine ⟨hmem e he, ?_⟩
      rcases Nat.lt_trichotomy b.index e.index with hbe | hbe | heb
      · exact h.between e (hmem e he) hbe hlt
      · rw [List.map_append, List.map_cons, List.nodup_append] at hnodup
        exact absurd (hbe ▸ List.mem_map_of_mem (hbetween e he)) (List.nodup_cons.mp hnodup.2.1).1
      · -- `b` stands before `e` because it was drawn forward.
        obtain ⟨k, hk, hfollows, hke⟩ := hturn.overtakes hnodup (hbetween e he) heb
        have hkm : k ∈ es := hperm.mem_iff.mp (List.mem_append_left _ hk)
        exact h.overtaken e (hmem e he) heb k hkm hke hfollows
  exact fun e he => (hall e he).2

end Lowered

/-! ## Ways into a nest -/

namespace Plan

variable {p : Plan} {program : Program} {nest : List DimId}

theorem prefix_stepsFrom {gs : List Guard} : ∀ {nest : List DimId} {level : Nat}
    {loops : List DimId}, (∀ g ∈ gs, level + nest.length ≤ g.level) →
      nest.map Step.loop <+: stepsFrom gs level (nest ++ loops)
  | [], _, _, _ => List.nil_prefix
  | d :: nest, level, loops, h => by
      have hnone : guardSteps gs level = [] := by
        refine List.map_eq_nil_iff.mpr (List.filter_eq_nil_iff.mpr fun g hg => ?_)
        have := h g hg
        rw [List.length_cons] at this
        simp only [beq_iff_eq]
        omega
      rw [List.cons_append, stepsFrom, hnone]
      refine List.prefix_cons_inj _ |>.mpr (prefix_stepsFrom fun g hg => ?_)
      have := h g hg
      rw [List.length_cons] at this
      omega

theorem Sound.length_le_level (h : p.Sound program) {c : Nat} (hc : c ∈ p.clusterIds)
    {e : Lowered} (he : e ∈ p.equations) (hi : e.index ∈ (p.cluster c).equations)
    (hrun : e.RunsIn p.dims nest) {g : Guard} (hg : g ∈ p.guardsOf c) :
    nest.length ≤ g.level := by
  obtain ⟨hnest, hconditions⟩ := hrun
  have hof := h.ofCluster_guardsOf hc
  have hplaced := Guard.placed_of_ofCluster hof
  have hsig := h.signature_eq hc he hi
  obtain ⟨d, hd⟩ := Guard.exists_mem_conditions_of_ofCluster hof hg
  refine Nat.le_of_not_lt fun hlt => ?_
  obtain ⟨⟨l, hl, hroot⟩, _⟩ := (hplaced.earliest g hg d hd g.level).mpr (Nat.le_refl _)
  rw [hsig] at hl
  have houter : e.loops.take g.level <+: nest.dropLast := by
    refine List.prefix_of_prefix_length_le (List.take_prefix _ _)
      ((List.dropLast_prefix _).trans hnest) ?_
    rw [List.length_take, List.length_dropLast]
    omega
  rw [← h.dims] at hroot
  have hown : d ∈ e.signature.conditions := hsig ▸ hplaced.own g hg d hd
  refine hconditions d hown ?_
  rw [← hroot]
  exact List.mem_map_of_mem (houter.subset hl)

theorem Sound.prefix_steps (h : p.Sound program) {c : Nat} (hc : c ∈ p.clusterIds)
    {e : Lowered} (he : e ∈ p.equations) (hi : e.index ∈ (p.cluster c).equations)
    (hrun : e.RunsIn p.dims nest) : nest.map Step.loop <+: p.steps c := by
  obtain ⟨loops, hloops⟩ := hrun.1
  rw [steps, h.signature_eq hc he hi, show e.signature.loops = nest ++ loops from hloops.symm]
  refine prefix_stepsFrom fun g hg => ?_
  rw [Nat.zero_add]
  exact h.length_le_level hc he hi hrun hg

/-! ## Loops that neighbours share -/

namespace Laid

variable {ok : Loop → Prop} {way : Nat → List Step} {cs : List Nat} {ns : List Node} {d : DimId}
  {a b : Nat}

theorem getLast?_loop (h : Laid p ok way cs ns) {c : Nat} (hc : cs.getLast? = some c)
    (hway : (way c).head? = some (.loop d)) :
    ∃ l body, ns.getLast? = some (.loop l body) ∧ l.dim = d := by
  cases h with
  | nil => cases hc
  | here _ hw _ =>
      rw [List.getLast?_concat] at hc
      cases hc
      rw [hw] at hway
      cases hway
  | @loop _ _ own _ body l _ _ hne _ hhead _ =>
      rw [List.getLast?_append_of_ne_nil _ hne] at hc
      cases (hhead c (List.mem_of_getLast? hc)).symm.trans hway
      exact ⟨l, body, List.getLast?_concat, rfl⟩
  | guard _ hne hhead _ =>
      rw [List.getLast?_append_of_ne_nil _ hne] at hc
      obtain ⟨g, hg, _⟩ := hhead c (List.mem_of_getLast? hc)
      cases hg.symm.trans hway

/-- A loop over the dimension holds both clusters. -/
def Sharing (p : Plan) (ok : Loop → Prop) (way : Nat → List Step) (d : DimId) (b a : Nat)
    (cs : List Nat) (ns : List Node) : Prop :=
  ∃ l body, .loop l body ∈ ns ∧ l.dim = d ∧ l.clusters.Sublist cs ∧ b ∈ l.clusters ∧
    a ∈ l.clusters ∧ Laid p ok (fun c => (way c).tail) l.clusters body

theorem Sharing.append (h : Sharing p ok way d b a cs ns) (own : List Nat) (ms : List Node) :
    Sharing p ok way d b a (cs ++ own) (ns ++ ms) := by
  obtain ⟨l, body, hm, hdim, hsub, hrest⟩ := h
  exact ⟨l, body, List.mem_append_left _ hm, hdim, List.sublist_append_of_sublist_left hsub, hrest⟩

/-- Clusters share a loop over time if all between them go through it: else two such loops would
stand next to each other. -/
theorem sharing_of_ways (h : Laid p ok way cs ns) (hcompact : Node.Compact p.dims p.graph ns)
    (hasc : cs.Pairwise (· < ·)) (hb : b ∈ cs) (ha : a ∈ cs) (hba : b ≤ a)
    (htime : p.dims.isTimeLike (p.dims.root d) = true)
    (hways : ∀ c ∈ cs, b ≤ c → c ≤ a → (way c).head? = some (.loop d)) :
    Sharing p ok way d b a cs ns := by
  have hfirst := hways b hb (Nat.le_refl b) hba
  have hlast := hways a ha hba (Nat.le_refl a)
  induction h with
  | nil => cases hb
  | @here way cs ns c hl hw _ ih =>
      have hin : ∀ x ∈ cs ++ [c], (way x).head? = some (.loop d) → x ∈ cs := by
        intro x hx hhead
        refine (List.mem_append.mp hx).resolve_right fun hx => ?_
        rw [List.mem_singleton.mp hx, hw] at hhead
        cases hhead
      exact (ih hcompact.of_append (List.pairwise_append.mp hasc).1 (hin b hb hfirst)
        (hin a ha hlast) (fun x hx => hways x (List.mem_append_left _ hx)) hfirst hlast).append _ _
  | @loop way cs own ns body l hl hown hne hok hhead hbody ih _ =>
      obtain ⟨hcs, _, hlt⟩ := List.pairwise_append.mp hasc
      by_cases hbo : b ∈ own
      · have hao : a ∈ own := (List.mem_append.mp ha).resolve_left fun hac =>
          absurd (hlt a hac b hbo) (Nat.not_lt.mpr hba)
        cases (hhead b hbo).symm.trans hfirst
        subst hown
        exact ⟨l, body, List.mem_append_right _ List.mem_cons_self, rfl,
          List.sublist_append_right _ _, hbo, hao, hbody⟩
      · have hbc : b ∈ cs := (List.mem_append.mp hb).resolve_right hbo
        have hac : a ∈ cs := by
          refine (List.mem_append.mp ha).resolve_right fun hao => ?_
          -- The cluster before the loop goes through one over the same dimension.
          cases (hhead a hao).symm.trans hlast
          obtain rfl | ⟨before, c, rfl⟩ := List.eq_nil_or_concat' cs
          · cases hbc
          have hc : c ∈ before ++ [c] := List.mem_append_right _ List.mem_cons_self
          have hbc : b ≤ c := by
            rcases List.mem_append.mp hbc with hb | hb
            · exact Nat.le_of_lt ((List.pairwise_append.mp hcs).2.2 b hb c List.mem_cons_self)
            · exact Nat.le_of_eq (List.mem_singleton.mp hb)
          have hway := hways c (List.mem_append_left _ hc) hbc (Nat.le_of_lt (hlt c hc a hao))
          obtain ⟨m, inner, hm, hdim⟩ := hl.getLast?_loop List.getLast?_concat hway
          have hspace := ((Node.compact_concat.mp hcompact).2.1 _ hm hdim).1
          rw [hdim, htime] at hspace
          cases hspace
        exact (ih hcompact.of_append hcs hbc hac (fun x hx => hways x (List.mem_append_left _ hx))
          hfirst hlast).append _ _
  | @guard way cs own ns body e ds hl hne hhead hbody ih _ =>
      have hin : ∀ x ∈ cs ++ own, (way x).head? = some (.loop d) → x ∈ cs := by
        intro x hx hloop
        refine (List.mem_append.mp hx).resolve_right fun hx => ?_
        obtain ⟨g, hg, _⟩ := hhead x hx
        cases hg.symm.trans hloop
      exact (ih hcompact.of_append (List.pairwise_append.mp hasc).1 (hin b hb hfirst)
        (hin a ha hlast) (fun x hx => hways x (List.mem_append_left _ hx)) hfirst hlast).append _ _

/-- Clusters share a nest of loops over time if all between them go through it. -/
theorem exists_nested : ∀ {nest : List DimId} {way : Nat → List Step} {cs : List Nat}
    {ns : List Node}, nest ≠ [] → Laid p ok way cs ns → Node.Compact p.dims p.graph ns →
      cs.Pairwise (· < ·) → b ∈ cs → a ∈ cs → b ≤ a →
      (∀ d ∈ nest, p.dims.isTimeLike (p.dims.root d) = true) →
      (∀ c ∈ cs, b ≤ c → c ≤ a → nest.map Step.loop <+: way c) →
      ∃ l ∈ Node.loopsOf ns, nest.getLast? = some l.dim ∧ b ∈ l.clusters ∧ a ∈ l.clusters
  | [], _, _, _, hne, _, _, _, _, _, _, _, _ => absurd rfl hne
  | d :: nest, way, cs, ns, _, h, hcompact, hasc, hb, ha, hba, htime, hways => by
      obtain ⟨l, body, hm, rfl, hsub, hbl, hal, hbody⟩ := h.sharing_of_ways hcompact hasc hb ha hba
        (htime d List.mem_cons_self) fun c hc hbc hca => by
          obtain ⟨rest, hrest⟩ := hways c hc hbc hca
          rw [← hrest]
          rfl
      have hloops : Node.loops (.loop l body) ⊆ Node.loopsOf ns := by
        rw [Node.loopsOf_eq_flatMap]
        exact fun x hx => List.mem_flatMap.mpr ⟨_, hm, hx⟩
      cases nest with
      | nil => exact ⟨l, hloops List.mem_cons_self, rfl, hbl, hal⟩
      | cons d' nest =>
          obtain ⟨k, hk, hlast, hbk, hak⟩ := exists_nested (List.cons_ne_nil d' nest) hbody
            (hcompact.of_mem hm rfl) (hasc.sublist hsub) hbl hal hba
            (fun d hd => htime d (List.mem_cons_of_mem _ hd)) fun c hc hbc hca => by
              obtain ⟨rest, hrest⟩ := hways c (hsub.subset hc) hbc hca
              rw [← hrest]
              exact ⟨rest, rfl⟩
          exact ⟨k, hloops (List.mem_cons_of_mem _ hk), hlast, hbk, hak⟩

end Laid

/-! ## Equations that share their loops over time -/

namespace Sound

variable {a b : Lowered}

theorem order_perm (h : p.Sound program) :
    (Cluster.order p.graph p.equations).Perm p.equations :=
  Cluster.order_perm h.numbered (Cluster.forward_of_graph h.graph h.numbered)

/-- With fusion the clusters hold the equations in the order in which they are placed. -/
theorem members_eq_order (h : p.Sound program) (hfusion : p.options.fusion = true) :
    Cluster.members p.clusters = (Cluster.order p.graph p.equations).map index := by
  rw [h.clusters, Cluster.build, if_pos hfusion]
  exact (Cluster.group_sound h.graph h.numbered fun e he => h.order_perm.mem_iff.mp he).2

theorem sublist_members {cs is : List Nat} (hcs : cs.Pairwise (· < ·))
    (his : List.Forall₂ (fun c i => c ∈ p.clusterIds ∧ i ∈ (p.cluster c).equations) cs is) :
    is.Sublist (Cluster.members p.clusters) := by
  have hsub : cs ⊆ p.clusterIds := by
    intro c hc
    obtain ⟨i, _, hc, _⟩ := exists_of_forall₂_left his hc
    exact hc
  have hids : cs.Sublist p.clusterIds :=
    List.sublist_of_subperm_of_pairwise (List.subperm_of_subset (hcs.imp Nat.ne_of_lt) hsub) hcs
      List.pairwise_lt_range
  rw [← members_eq]
  exact (sublist_flatMap (his.imp fun _ _ h => h.2)).trans (hids.flatMap _)

theorem exists_split (h : p.Sound program) (hfusion : p.options.fusion = true)
    (ha : a ∈ p.equations) (hb : b ∈ p.equations) (hne : b.index ≠ a.index)
    (hnot : ¬[a.index, b.index].Sublist (Cluster.members p.clusters)) :
    ∃ before between after,
      Cluster.order p.graph p.equations = before ++ b :: (between ++ a :: after) := by
  obtain ⟨pre, after, heq⟩ := List.append_of_mem (h.order_perm.mem_iff.mpr ha)
  have hb := h.order_perm.mem_iff.mpr hb
  rw [heq, List.mem_append, List.mem_cons] at hb
  rcases hb with hb | rfl | hb
  · obtain ⟨before, between, rfl⟩ := List.append_of_mem hb
    exact ⟨before, between, after, by rw [heq, List.append_assoc, List.cons_append]⟩
  · exact absurd rfl hne
  · refine absurd ?_ hnot
    rw [h.members_eq_order hfusion, heq, List.map_append, List.map_cons]
    refine List.sublist_append_of_sublist_right (List.Sublist.cons_cons _ ?_)
    exact List.singleton_sublist.mpr (List.mem_map_of_mem hb)

theorem cluster_le (hnot : ¬[a.index, b.index].Sublist (Cluster.members p.clusters))
    {ca cb : Nat} (hca : ca ∈ p.clusterIds) (hai : a.index ∈ (p.cluster ca).equations)
    (hcb : cb ∈ p.clusterIds) (hbi : b.index ∈ (p.cluster cb).equations) : cb ≤ ca := by
  refine Nat.le_of_not_lt fun hlt => hnot ?_
  exact sublist_members (List.pairwise_pair.mpr hlt) (.cons ⟨hca, hai⟩ (.cons ⟨hcb, hbi⟩ .nil))

/-- The way of each cluster from one equation to the other leads into the nest that they are in, if
nothing splits it. -/
theorem prefix_steps_of_unsplit (h : p.Sound program) (hfusion : p.options.fusion = true)
    (ha : a ∈ p.equations) (hb : b ∈ p.equations) (hba : b.index < a.index)
    (hnot : ¬[a.index, b.index].Sublist (Cluster.members p.clusters))
    (hra : a.RunsIn p.dims nest) (hrb : b.RunsIn p.dims nest)
    (hunsplit : Unsplit p.dims p.equations nest b a) {ca cb c : Nat} (hca : ca ∈ p.clusterIds)
    (hai : a.index ∈ (p.cluster ca).equations) (hcb : cb ∈ p.clusterIds)
    (hbi : b.index ∈ (p.cluster cb).equations) (hc : c ∈ p.clusterIds) (hbc : cb ≤ c)
    (hac : c ≤ ca) : nest.map Step.loop <+: p.steps c := by
  have hperm := h.order_perm
  have hturn :=
    Cluster.order_inTurn h.numbered (Cluster.forward_of_graph h.graph h.numbered)
  obtain ⟨before, between, after, horder⟩ := h.exists_split hfusion ha hb (Nat.ne_of_lt hba) hnot
  rw [horder] at hperm hturn
  rcases Nat.lt_or_eq_of_le hbc with hbc | rfl
  · rcases Nat.lt_or_eq_of_le hac with hac | rfl
    · obtain ⟨i, hi⟩ := List.exists_mem_of_ne_nil _ (h.cluster_sound hc).nonempty
      have hsub : [b.index, i, a.index].Sublist (Cluster.members p.clusters) := by
        refine sublist_members ?_ (.cons ⟨hcb, hbi⟩ (.cons ⟨hc, hi⟩ (.cons ⟨hca, hai⟩ .nil)))
        simp [hbc, hac, Nat.lt_trans hbc hac]
      have hnodup := h.members_nodup
      rw [h.members_eq_order hfusion, horder] at hsub hnodup
      simp only [List.map_append, List.map_cons] at hsub hnodup
      obtain ⟨e, he, rfl⟩ := List.mem_map.mp (mem_between_of_sublist hnodup hsub)
      have hem : e ∈ p.equations := hperm.mem_iff.mp (List.mem_append_right _
        (List.mem_cons_of_mem _ (List.mem_append_left _ he)))
      exact h.prefix_steps hc hem hi (hunsplit.runsIn hrb hperm h.numbered hturn e he)
    · exact h.prefix_steps hc ha hai hra
  · exact h.prefix_steps hc hb hbi hrb

/-- One loop over the last dimension of an unsplit nest holds both equations. -/
theorem exists_shared_loop (h : p.Sound program) (hfusion : p.options.fusion = true)
    (ha : a ∈ p.equations) (hb : b ∈ p.equations) (hba : b.index < a.index)
    (hnot : ¬[a.index, b.index].Sublist (Cluster.members p.clusters))
    (hra : a.RunsIn p.dims nest) (hrb : b.RunsIn p.dims nest)
    (hunsplit : Unsplit p.dims p.equations nest b a) (hne : nest ≠ [])
    (htime : ∀ d ∈ nest, p.dims.isTimeLike (p.dims.root d) = true) :
    ∃ l ∈ p.tree.loops, nest.getLast? = some l.dim ∧ a.index ∈ p.equationsOf l.clusters ∧
      b.index ∈ p.equationsOf l.clusters := by
  obtain ⟨ca, hca, hai⟩ := h.exists_cluster ha
  obtain ⟨cb, hcb, hbi⟩ := h.exists_cluster hb
  obtain ⟨l, hl, hlast, hcbl, hcal⟩ := Laid.exists_nested hne h.laid (h.compact hfusion).nodes
    List.pairwise_lt_range hcb hca (cluster_le hnot hca hai hcb hbi) htime
    fun c hc hbc hac => h.prefix_steps_of_unsplit hfusion ha hb hba hnot hra hrb hunsplit hca hai
      hcb hbi hc hbc hac
  exact ⟨l, hl, hlast, List.mem_flatMap.mpr ⟨ca, hcal, hai⟩, List.mem_flatMap.mpr ⟨cb, hcbl, hbi⟩⟩

end Sound

end Plan

end LoopNest
