import LoopNest.Proofs.Domain
import LoopNest.Proofs.Naming
/-!
# Guards and the writes that their predicates read

A cluster enters the tree through one guard for each of its own, and a guard that is equal to the
last one there is entered again rather than opened anew.  So the equations in the body of a guard
all have conditions with that predicate (`Laid.exists_guard_of_mem_fencesOf`), and each equation
stands in a guard for each of its own (`Laid.exists_fence`).

If the predicate of one of `b`'s conditions reads what an earlier equation `a` writes, the edge
between them puts the statement of `a` first, and where no condition of `a` itself reads that tensor,
`a` cannot stand in the same guard: the whole guard comes after it (`fenced_of_schedule`).  Where the
conditions of `a` read what `a` writes, the guard of `a` is entered again for `b`, although the write
of `a` may have changed what its predicate says (`not_fenced_selfGated`).
-/

namespace LoopNest

open Lowered

/-- A guard of a tree with its body. -/
structure Fence where
  predicate : Expr
  body : List Node

namespace Node

mutual

/-- The guards of a node with their bodies, each before those inside it. -/
def fences : Node → List Fence
  | .loop _ body => fencesOf body
  | .guard e _ body => ⟨e, body⟩ :: fencesOf body
  | .statement _ => []

def fencesOf : List Node → List Fence
  | [] => []
  | n :: ns => n.fences ++ fencesOf ns

end

theorem fencesOf_append (ns ms : List Node) : fencesOf (ns ++ ms) = fencesOf ns ++ fencesOf ms := by
  induction ns with
  | nil => rfl
  | cons n ns ih => rw [List.cons_append, fencesOf, fencesOf, ih, List.append_assoc]

mutual

theorem body_infix_of_mem_fences : ∀ (n : Node), ∀ fence ∈ n.fences,
    equationsOf fence.body <:+: equationsOf [n]
  | .loop l body, fence, hf => by
      rw [equationsOf_loop]
      exact body_infix_of_mem_fencesOf body fence hf
  | .guard e ds body, fence, hf => by
      rw [equationsOf_guard]
      rcases List.mem_cons.mp hf with rfl | hf
      · exact List.infix_rfl
      · exact body_infix_of_mem_fencesOf body fence hf
  | .statement _, fence, hf => absurd hf List.not_mem_nil

theorem body_infix_of_mem_fencesOf : ∀ (ns : List Node), ∀ fence ∈ fencesOf ns,
    equationsOf fence.body <:+: equationsOf ns
  | [], fence, hf => absurd hf List.not_mem_nil
  | n :: ns, fence, hf => by
      rw [equationsOf_cons]
      rcases List.mem_append.mp hf with hf | hf
      · exact (body_infix_of_mem_fences n fence hf).trans (List.prefix_append _ _).isInfix
      · exact (body_infix_of_mem_fencesOf ns fence hf).trans (List.suffix_append _ _).isInfix

end

end Node

/-- In a list without repeats, what comes before one element of an infix, and is not in the infix
itself, comes before all of it. -/
theorem Precedes.of_infix {xs ys : List Nat} {a b : Nat} (h : Precedes xs a b) (hn : xs.Nodup)
    (hys : ys <:+: xs) (hb : b ∈ ys) (ha : a ∉ ys) : ∀ i ∈ ys, Precedes xs a i := by
  intro i hi
  obtain ⟨before, after, rfl⟩ := hys
  rw [List.append_assoc] at hn h ⊢
  obtain ⟨hax, _, hab⟩ := h
  refine ⟨hax, List.mem_append_right _ (List.mem_append_left _ hi), fun k j hk hj => ?_⟩
  obtain ⟨m, hm⟩ := List.mem_iff_getElem?.mp hb
  obtain ⟨hmlt, _⟩ := List.getElem?_eq_some_iff.mp hm
  have hb' : (before ++ (ys ++ after))[before.length + m]? = some b := by
    rw [List.getElem?_append_right (Nat.le_add_right _ _), Nat.add_sub_cancel_left,
      List.getElem?_append_left hmlt, hm]
  have hkm : k < before.length + m := hab k _ hk hb'
  have hkbefore : k < before.length := by
    refine Nat.lt_of_not_le fun hle => ha ?_
    rw [List.getElem?_append_right hle, List.getElem?_append_left (by omega)] at hk
    exact List.mem_of_getElem? hk
  have hjys : before.length ≤ j := by
    refine Nat.le_of_not_lt fun hlt => ?_
    rw [List.getElem?_append_left hlt] at hj
    exact (List.nodup_append.mp hn).2.2 i (List.mem_of_getElem? hj) i
      (List.mem_append_left _ hi) rfl
  exact Nat.lt_of_lt_of_le hkbefore hjys

namespace Plan.Laid

variable {p : Plan} {ok : Loop → Prop} {way : Nat → List Step} {cs : List Nat} {ns : List Node}

theorem fencesOf_statements (p : Plan) (c : Nat) : Node.fencesOf (p.statements c) = [] := by
  rw [statements_eq_map]
  induction (p.cluster c).equations with
  | nil => rfl
  | cons i is ih => exact ih

/-- The equations in a guard are those of clusters with an alike guard on their way. -/
theorem exists_guard_of_mem_fencesOf (h : Laid p ok way cs ns) :
    ∀ fence ∈ Node.fencesOf ns, ∀ i ∈ Node.equationsOf fence.body,
      ∃ c ∈ cs, i ∈ (p.cluster c).equations ∧
        ∃ g, Step.guard g ∈ way c ∧ Expr.Alike fence.predicate g.predicate := by
  induction h with
  | nil =>
      intro fence hf
      exact absurd hf List.not_mem_nil
  | here _ _ _ ih =>
      intro fence hf i hi
      rw [Node.fencesOf_append, fencesOf_statements, List.append_nil] at hf
      obtain ⟨c, hc, h⟩ := ih fence hf i hi
      exact ⟨c, List.mem_append_left _ hc, h⟩
  | loop _ _ _ _ _ _ ih ihbody =>
      intro fence hf i hi
      rw [Node.fencesOf_append, List.mem_append, Node.fencesOf, Node.fencesOf, List.append_nil,
        Node.fences] at hf
      rcases hf with hf | hf
      · obtain ⟨c, hc, h⟩ := ih fence hf i hi
        exact ⟨c, List.mem_append_left _ hc, h⟩
      · obtain ⟨c, hc, hin, g, hg, ha⟩ := ihbody fence hf i hi
        exact ⟨c, List.mem_append_right _ hc, hin, g, List.mem_of_mem_tail hg, ha⟩
  | guard _ _ hhead hbody ih ihbody =>
      intro fence hf i hi
      rw [Node.fencesOf_append, List.mem_append, Node.fencesOf, Node.fencesOf, List.append_nil,
        Node.fences, List.mem_cons] at hf
      rcases hf with hf | rfl | hf
      · obtain ⟨c, hc, h⟩ := ih fence hf i hi
        exact ⟨c, List.mem_append_left _ hc, h⟩
      · rw [hbody.equationsOf_eq] at hi
        obtain ⟨c, hc, hin⟩ := List.mem_flatMap.mp hi
        obtain ⟨g, hg, ha⟩ := hhead c hc
        exact ⟨c, List.mem_append_right _ hc, hin, g, List.mem_of_mem_head? hg, ha⟩
      · obtain ⟨c, hc, hin, g, hg, ha⟩ := ihbody fence hf i hi
        exact ⟨c, List.mem_append_right _ hc, hin, g, List.mem_of_mem_tail hg, ha⟩

/-- A cluster stands in a guard for each on its way. -/
theorem exists_fence (h : Laid p ok way cs ns) :
    ∀ c ∈ cs, ∀ g, Step.guard g ∈ way c →
      ∃ fence ∈ Node.fencesOf ns, Expr.Alike fence.predicate g.predicate ∧
        ∀ i ∈ (p.cluster c).equations, i ∈ Node.equationsOf fence.body := by
  induction h with
  | nil =>
      intro c hc
      exact absurd hc List.not_mem_nil
  | here _ hw _ ih =>
      intro c hc g hg
      rw [Node.fencesOf_append]
      rcases List.mem_append.mp hc with hc | hc
      · obtain ⟨fence, hf, h⟩ := ih c hc g hg
        exact ⟨fence, List.mem_append_left _ hf, h⟩
      · rw [List.mem_singleton.mp hc, hw] at hg
        exact absurd hg List.not_mem_nil
  | @loop way _ _ _ _ _ _ _ _ _ hhead _ ih ihbody =>
      intro c hc g hg
      rw [Node.fencesOf_append, Node.fencesOf, Node.fencesOf, List.append_nil, Node.fences]
      rcases List.mem_append.mp hc with hc | hc
      · obtain ⟨fence, hf, h⟩ := ih c hc g hg
        exact ⟨fence, List.mem_append_left _ hf, h⟩
      · obtain ⟨rest, hway⟩ := List.head?_eq_some_iff.mp (hhead c hc)
        have htail : Step.guard g ∈ (way c).tail := by
          rw [hway] at hg ⊢
          exact (List.mem_cons.mp hg).resolve_left fun h => nomatch h
        obtain ⟨fence, hf, h⟩ := ihbody c hc g htail
        exact ⟨fence, List.mem_append_right _ hf, h⟩
  | @guard way _ _ _ _ _ _ _ _ hhead hbody ih ihbody =>
      intro c hc g hg
      rw [Node.fencesOf_append, Node.fencesOf, Node.fencesOf, List.append_nil, Node.fences]
      rcases List.mem_append.mp hc with hc | hc
      · obtain ⟨fence, hf, h⟩ := ih c hc g hg
        exact ⟨fence, List.mem_append_left _ hf, h⟩
      · obtain ⟨g', hg', ha⟩ := hhead c hc
        obtain ⟨rest, hway⟩ := List.head?_eq_some_iff.mp hg'
        rw [hway] at hg
        rcases List.mem_cons.mp hg with hg | htail
        · -- The guard at the head of the way is the one that is entered here.
          cases hg
          refine ⟨_, List.mem_append_right _ List.mem_cons_self, ha, fun i hi => ?_⟩
          rw [hbody.equationsOf_eq]
          exact List.mem_flatMap.mpr ⟨c, hc, hi⟩
        · replace htail : Step.guard g ∈ (way c).tail := hway ▸ htail
          obtain ⟨fence, hf, h⟩ := ihbody c hc g htail
          exact ⟨fence, List.mem_append_right _ (List.mem_cons_of_mem _ hf), h⟩

end Plan.Laid

/-! ## Guards that read what an equation writes -/

/-- The guards of a tree with their bodies. -/
def ScheduleTree.fences (tree : ScheduleTree) : List Fence := Node.fencesOf tree.roots

/-- The guard is around an equation, and its predicate names a tensor. -/
def Fence.Tests (fence : Fence) (i : Nat) (tensor : String) : Prop :=
  i ∈ Node.equationsOf fence.body ∧ tensor ∈ fence.predicate.tensors

instance (fence : Fence) (i : Nat) (tensor : String) : Decidable (fence.Tests i tensor) :=
  inferInstanceAs
    (Decidable (i ∈ Node.equationsOf fence.body ∧ tensor ∈ fence.predicate.tensors))

/-- A guard around the equation `b` tests the tensor, and no such guard is around `a` too: all
statements in it come after that of `a`. -/
structure ScheduleTree.Fenced (tree : ScheduleTree) (a b : Nat) (tensor : String) : Prop where
  exists_fence : ∃ fence ∈ tree.fences, fence.Tests b tensor
  apart : ∀ fence ∈ tree.fences, fence.Tests b tensor → a ∉ Node.equationsOf fence.body
  after : ∀ fence ∈ tree.fences, fence.Tests b tensor → ∀ i ∈ Node.equationsOf fence.body,
    Precedes (tree.statements.map Statement.equation) a i

namespace Plan.Sound

variable {p : Plan} {program : Program} {tensor : String}

theorem exists_condition_of_tests (h : p.Sound program) {e : Lowered} (he : e ∈ p.equations)
    {fence : Fence} (hf : fence ∈ p.tree.fences) (ht : fence.Tests e.index tensor) :
    ∃ d ∈ e.conditions, ∃ q ∈ (p.dims.get d).predicate?, tensor ∈ q.tensors := by
  obtain ⟨c, hc, hin, g, hg, halike⟩ := h.laid.exists_guard_of_mem_fencesOf fence hf e.index ht.1
  have hnamed : ∃ g ∈ p.guardsOf c, tensor ∈ g.predicate.tensors :=
    ⟨g, (h.mem_steps hc).mp hg, halike.tensors_eq ▸ ht.2⟩
  rw [Guard.mem_tensors_of_ofCluster (h.ofCluster_guardsOf hc), h.signature_eq hc he hin,
    ← h.dims] at hnamed
  exact hnamed

/-- An equation stands in a guard that tests what the predicate of one of its conditions names. -/
theorem exists_tests (h : p.Sound program) {e : Lowered} (he : e ∈ p.equations)
    (hd : ∃ d ∈ e.conditions, ∃ q ∈ (p.dims.get d).predicate?, tensor ∈ q.tensors) :
    ∃ fence ∈ p.tree.fences, fence.Tests e.index tensor := by
  obtain ⟨c, hc, hin⟩ := h.exists_cluster he
  have hnamed : ∃ g ∈ p.guardsOf c, tensor ∈ g.predicate.tensors := by
    rw [Guard.mem_tensors_of_ofCluster (h.ofCluster_guardsOf hc), h.signature_eq hc he hin,
      ← h.dims]
    exact hd
  obtain ⟨g, hg, ht⟩ := hnamed
  obtain ⟨fence, hf, halike, hall⟩ := h.laid.exists_fence c hc g ((h.mem_steps hc).mpr hg)
  exact ⟨fence, hf, hall _ hin, halike.tensors_eq ▸ ht⟩

theorem fenced (h : p.Sound program) {a b : Lowered} (ha : a ∈ p.equations) (hb : b ∈ p.equations)
    (hab : a.index < b.index) {d : DimId} (hd : d ∈ b.conditions) {q : Expr}
    (hq : q ∈ (p.dims.get d).predicate?) (hreads : q.Reads a.write.tensor)
    (hown : ∀ d ∈ a.conditions, ∀ q ∈ (p.dims.get d).predicate?, a.write.tensor ∉ q.tensors) :
    p.tree.Fenced a.index b.index a.write.tensor := by
  have hapart : ∀ fence ∈ p.tree.fences, fence.Tests b.index a.write.tensor →
      a.index ∉ Node.equationsOf fence.body := by
    intro fence hf ht hin
    obtain ⟨d, hd, q, hq, hnames⟩ := h.exists_condition_of_tests ha hf ⟨hin, ht.2⟩
    exact hown d hd q hq hnames
  have hordered := h.precedes_of_collides ha hb hab (Or.inr (Or.inl (Or.inr ⟨d, hd, q, hq, hreads⟩)))
  refine ⟨h.exists_tests hb ⟨d, hd, q, hq, hreads.mem_tensors⟩, hapart, fun fence hf ht => ?_⟩
  exact hordered.of_infix h.equationsOf_nodup (Node.body_infix_of_mem_fencesOf _ fence hf) ht.1
    (hapart fence hf ht)

end Plan.Sound

/-- If the predicate of one of the conditions of `b` reads what an earlier equation `a` writes, and
no predicate of the conditions of `a` itself names that tensor, the guard of `b` that tests it comes
after the statement of `a`. -/
theorem fenced_of_schedule {program : Program} {options : Options} {tree : ScheduleTree}
    {es : List Lowered} (hschedule : (program.schedule options).result = .ok tree)
    (hlower : program.lower.result = .ok es) {a b : Lowered} (ha : a ∈ es) (hb : b ∈ es)
    (hab : a.index < b.index) {d : DimId} (hd : d ∈ b.conditions) {q : Expr}
    (hq : q ∈ (program.dims.get d).predicate?) (hreads : q.Reads a.write.tensor)
    (hown : ∀ d ∈ a.conditions, ∀ q ∈ (program.dims.get d).predicate?,
      a.write.tensor ∉ q.tensors) :
    tree.Fenced a.index b.index a.write.tensor := by
  obtain ⟨p, hp, _, rfl, rfl⟩ := Program.exists_plan_of_schedule hschedule hlower
  rw [← hp.dims] at hq hown
  exact hp.fenced ha hb hab hd hq hreads hown

/-- A tensor `g` along `x` is written, and an equation along `x` and `y` runs where `g` is
positive. -/
def positivePart (target : Access) : Program where
  dims := (do
    let (t, x) ← DimTable.empty.space "x" (some 4)
    let (t, _) ← t.space "y" (some 2)
    let (t, _) ← t.conditional "c" x none
      (some (.compare .gt (.access "g" [.fixed x 0]) (.int 0)))
    return t : Except ModelError DimTable).toOption.getD .empty
  scalars := []
  equations := [⟨target, .int 0, [], []⟩, ⟨⟨"u", [.fixed ⟨2⟩ 0, .fixed ⟨1⟩ 0]⟩, .int 1, [], []⟩]

/-- Every point of `g` is written. -/
def reset : Program := positivePart ⟨"g", [.fixed ⟨0⟩ 0]⟩

/-- The positive points of `g` are written. -/
def selfGated : Program := positivePart ⟨"g", [.fixed ⟨2⟩ 0]⟩

theorem fenced_of_schedule_reset :
    ∃ tree es, (reset.schedule default).result = .ok tree ∧ reset.lower.result = .ok es ∧
      tree.loops.map (fun l => (l.dim, tree.equationsOf l.clusters)) =
        [(⟨0⟩, [0, 1]), (⟨1⟩, [1])] ∧
      ∃ a ∈ es, ∃ b ∈ es, a.index = 0 ∧ b.index = 1 ∧ a.write.tensor = "g" ∧
        tree.Fenced 0 1 "g" := by
  have facts : ∃ tree es, (reset.schedule default).result = .ok tree ∧
      reset.lower.result = .ok es ∧
      tree.loops.map (fun l => (l.dim, tree.equationsOf l.clusters)) =
        [(⟨0⟩, [0, 1]), (⟨1⟩, [1])] ∧
      ∃ a ∈ es, ∃ b ∈ es, a.index = 0 ∧ b.index = 1 ∧ a.write.tensor = "g" ∧
        ∃ d ∈ b.conditions, ∃ q ∈ (reset.dims.get d).predicate?, q.Reads a.write.tensor ∧
          a.conditions = [] :=
    ⟨_, _, rfl, rfl, by decide +kernel, by decide +kernel⟩
  obtain ⟨tree, es, ht, hl, hloops, a, ha, b, hb, ha0, hb1, hg, d, hd, q, hq, hreads, hnone⟩ := facts
  refine ⟨tree, es, ht, hl, hloops, a, ha, b, hb, ha0, hb1, hg, ?_⟩
  have hfenced := fenced_of_schedule ht hl ha hb (by rw [ha0, hb1]; decide) hd hq hreads (by
    rw [hnone]
    exact fun d hd => absurd hd List.not_mem_nil)
  rwa [ha0, hb1, hg] at hfenced

/-- The guard that tests `g` for the second equation is around the first one, which writes `g`. -/
theorem not_fenced_selfGated :
    ∃ tree es, (selfGated.schedule default).result = .ok tree ∧ selfGated.lower.result = .ok es ∧
      ∃ a ∈ es, ∃ b ∈ es, a.index = 0 ∧ b.index = 1 ∧ a.write.tensor = "g" ∧
        (∃ d ∈ b.conditions, ∃ q ∈ (selfGated.dims.get d).predicate?, q.Reads "g") ∧
        ∃ fence ∈ tree.fences, fence.Tests 1 "g" ∧ 0 ∈ Node.equationsOf fence.body :=
  ⟨_, _, rfl, rfl, by decide +kernel⟩

end LoopNest
