import LoopNest.Proofs.Naming
import LoopNest.Proofs.Settled
/-!
# Where guards are decided

Each condition of a cluster has a test, an expression in loop variables, and its guard is moved out
of the loops that the test does not need.  `Nest.Decides` says what a level must offer: the loop over
the root that the condition gates, and the loop of every variable of the test.  The level of the
guard is the first that does (`Guard.decides_iff_of_ofCondition`), and guards of one level are made
one.  So every condition of a cluster is in one guard, at the first level that decides it
(`Guard.placed_of_ofCluster`).

A predicate can be placed if everything in it has a value inside the loops
(`Guard.exists_ofCondition_iff`).  The loops over the roots that the conditions gate are there for
every cluster of a program, as lowering meets a condition on the way to a loop; a stride can
therefore always be placed (`placed_of_clusters`).
-/

namespace LoopNest

open Lowered

/-! ## Tests -/

namespace Nest

/-- The predicate that decides a condition inside the nest. -/
def test (n : Nest) (c : DimId) : Expr :=
  match (n.dims.get c).kind with
  | .conditional parent (.stride _) => Guard.onStride n parent (n.dims.get c).factorName
  | .conditional _ (.predicate e) => n.expr e
  | _ => .and []

/-- The dimensions whose values the test of a condition is made of. -/
def tested (n : Nest) (c : DimId) : List DimId :=
  match (n.dims.get c).kind with
  | .conditional parent (.stride _) => [parent]
  | .conditional _ (.predicate e) => e.dims
  | _ => []

/-- Inside the first `level` loops the condition can be decided: the root that it gates has its loop
among them, and so has every variable of the test. -/
structure Decides (n : Nest) (c : DimId) (level : Nat) : Prop where
  root : ∃ l ∈ n.loops.take level, n.dims.root l = n.dims.root c
  within : (n.test c).ClosedIn (n.loops.take level)

variable {n : Nest}

theorem dim_mem_atoms_test {c l : DimId} :
    .dim l ∈ (n.test c).atoms ↔ ∃ d ∈ n.tested c, l = n.loopVar d := by
  rw [test, tested]
  split
  · have hparent := fun d => n.dim_mem_atoms_value d l
    simp [Guard.onStride, Expr.mem_atoms_fold, mem_atoms_displaced, hparent]
  · rw [dim_mem_atoms_expr]
    exact exists_congr fun d => and_congr_left fun _ => Expr.mem_dims_iff.symm
  · simp

theorem depthOf?_isSome (n : Nest) {d : DimId} :
    (n.depthOf? d).isSome = true ↔ ∃ l ∈ n.loops, n.dims.root l = n.dims.root d := by
  rw [depthOf?, Option.isSome_map, List.findIdx?_isSome, List.any_eq_true]
  simp

/-- What has to be among the outer loops for a condition to be decided, in terms of roots. -/
theorem decides_iff {c : DimId} {k : Nat} :
    n.Decides c k ↔ (∃ l ∈ n.loops.take k, n.dims.root l = n.dims.root c) ∧
      ∀ d ∈ n.tested c, ∃ l ∈ n.loops.take k, n.dims.root l = n.dims.root d := by
  have houter := List.take_prefix k n.loops
  constructor
  · rintro ⟨hroot, hwithin⟩
    refine ⟨hroot, fun d hd => (loopVar_mem_iff houter).mp ?_⟩
    exact Expr.closedIn_iff_atoms.mp hwithin _ (dim_mem_atoms_test.mpr ⟨d, hd, rfl⟩)
  · rintro ⟨hroot, htested⟩
    refine ⟨hroot, Expr.closedIn_iff_atoms.mpr fun l hl => ?_⟩
    obtain ⟨d, hd, rfl⟩ := dim_mem_atoms_test.mp hl
    exact (loopVar_mem_iff houter).mpr (htested d hd)

end Nest

namespace Guard

variable {program : Program} {loops : List DimId} {c : DimId} {g : Guard}

/-! ## Predicates that can be placed -/

/-- Everything in a predicate has a value inside the loops. -/
structure Resolvable (program : Program) (loops : List DimId) (e : Expr) : Prop where
  symbols : ∀ name, Expr.Occurs (.symbol name) e → name ∈ program.scalars ∨
    ∃ d ∈ program.dims.ids, ∃ q ∈ program.dims.parameters d, q.name = name
  tensors : ∀ tensor, e.Reads tensor →
    ∃ eq ∈ program.equations, eq.lhs.tensor = tensor ∨ eq.rhs.Reads tensor
  dims : ∀ d, e.Mentions d → ∃ l ∈ loops, program.dims.root l = program.dims.root d

theorem mem_knownSymbols {name : String} :
    name ∈ knownSymbols program ↔ name ∈ program.scalars ∨
      ∃ d ∈ program.dims.ids, ∃ q ∈ program.dims.parameters d, q.name = name := by
  simp only [knownSymbols, List.mem_append, List.mem_flatMap, List.mem_map]

theorem mem_tensors {tensor : String} :
    tensor ∈ program.tensors ↔
      ∃ eq ∈ program.equations, eq.lhs.tensor = tensor ∨ eq.rhs.Reads tensor := by
  simp only [Program.tensors, SortedSet.mem_ofList, List.mem_flatMap, List.mem_cons, List.mem_map,
    Expr.reads_iff, Equation.reads, eq_comm]

theorem unresolved?_eq_none_iff {e : Expr} :
    unresolved? program ⟨program.dims, loops⟩ e = none ↔ Resolvable program loops e := by
  simp only [unresolved?, Option.orElse_eq_orElse, Option.orElse_eq_or, Option.or_eq_none_iff,
    Option.map_eq_none_iff, List.find?_eq_none, List.mem_map]
  constructor
  · rintro ⟨hsymbols, htensors, hdims⟩
    refine ⟨fun name hname => ?_, fun tensor htensor => ?_, fun d hd => ?_⟩
    · have := hsymbols name (Expr.mem_symbols_iff.mpr hname)
      exact mem_knownSymbols.mp (by simpa using this)
    · have := htensors tensor (Expr.reads_iff.mp htensor)
      exact mem_tensors.mp (by simpa using this)
    · have := hdims d (Expr.mem_dims_iff.mpr hd)
      rw [← Option.not_isSome, Bool.not_eq_true', Bool.not_eq_false] at this
      exact (Nest.depthOf?_isSome _).mp this
  · rintro ⟨hsymbols, htensors, hdims⟩
    refine ⟨fun name hname => ?_, fun tensor htensor => ?_, fun d hd => ?_⟩
    · simpa using mem_knownSymbols.mpr (hsymbols name (Expr.mem_symbols_iff.mp hname))
    · simpa using mem_tensors.mpr (htensors tensor (Expr.reads_iff.mpr htensor))
    · have := (Nest.depthOf?_isSome ⟨program.dims, loops⟩).mpr (hdims d (Expr.mem_dims_iff.mp hd))
      simpa using Option.ne_none_iff_isSome.mpr this

/-! ## The guard of one condition -/

/-- A guard is decided from its level on, and not before. -/
theorem decides_iff_of_ofCondition (h : ofCondition program ⟨program.dims, loops⟩ c = .ok g) :
    g.conditions = [c] ∧ g.predicate = Nest.test ⟨program.dims, loops⟩ c ∧
      ∀ k, Nest.Decides ⟨program.dims, loops⟩ c k ↔ g.level ≤ k := by
  unfold ofCondition at h
  simp only at h
  cases hdepth : Nest.depthOf? ⟨program.dims, loops⟩ c with
  | none =>
      simp only [hdepth] at h
      cases h
  | some depth =>
      have hreached := (depthOf?_eq_some hdepth).2
      cases hk : (program.dims.get c).kind with
      | conditional parent condition =>
          cases condition with
          | stride factor =>
              have hparent : program.dims.root parent = program.dims.root c :=
                DimTable.root_eq_of_parent? (DimTable.parent?_of_kind hk)
              simp only [hdepth, hk] at h
              cases h
              refine ⟨rfl, by simp only [Nest.test, hk], fun k => ?_⟩
              rw [Nest.decides_iff, hreached]
              simp [Nest.tested, hk, hparent]
          | predicate e =>
              simp only [hdepth, hk] at h
              split at h
              · cases h
              · rename_i hresolved
                have hdims := (unresolved?_eq_none_iff.mp hresolved).dims
                cases h
                refine ⟨rfl, by simp only [Nest.test, hk], fun k => ?_⟩
                rw [Nest.decides_iff, depthOfAll_le_iff, hreached]
                simp only [Nest.tested, hk]
                refine and_congr_right fun _ => forall₂_congr fun d hd => ?_
                obtain ⟨own, hown⟩ := Option.isSome_iff_exists.mp
                  ((Nest.depthOf?_isSome ⟨program.dims, loops⟩).mpr
                    (hdims d (Expr.mem_dims_iff.mp hd)))
                simp [hown, (depthOf?_eq_some hown).2]
      | _ =>
          simp only [hdepth, hk] at h
          cases h
          refine ⟨rfl, by simp only [Nest.test, hk], fun k => ?_⟩
          rw [Nest.decides_iff, hreached]
          simp [Nest.tested, hk]

theorem depthOf?_of_stride (h : ofCondition program ⟨program.dims, loops⟩ c = .ok g)
    {parent : DimId} {factor : Option Int}
    (hk : (program.dims.get c).kind = .conditional parent (.stride factor)) :
    Nest.depthOf? ⟨program.dims, loops⟩ c = some g.level := by
  unfold ofCondition at h
  cases hdepth : Nest.depthOf? ⟨program.dims, loops⟩ c with
  | none =>
      simp only [hdepth] at h
      cases h
  | some depth =>
      simp only [hdepth, hk] at h
      cases h
      rfl

/-- A condition over a loop of the nest has a guard if its predicate, where it has one, can be
placed. -/
theorem exists_ofCondition_iff (h : ∃ l ∈ loops, program.dims.root l = program.dims.root c) :
    (∃ g, ofCondition program ⟨program.dims, loops⟩ c = .ok g) ↔
      ∀ e ∈ (program.dims.get c).predicate?, Resolvable program loops e := by
  obtain ⟨depth, hdepth⟩ :=
    Option.isSome_iff_exists.mp ((Nest.depthOf?_isSome ⟨program.dims, loops⟩).mpr h)
  unfold ofCondition
  simp only [hdepth, Dimension.predicate?]
  cases hk : (program.dims.get c).kind with
  | conditional parent condition =>
      cases condition with
      | stride factor => simp
      | predicate e =>
          simp only [← unresolved?_eq_none_iff, Option.mem_some_iff, forall_eq']
          cases unresolved? program ⟨program.dims, loops⟩ e <;> simp
  | _ => simp

/-! ## The guards of a cluster -/

/-- The guards of a cluster are where its conditions can be decided. -/
structure Placed (program : Program) (c : Cluster) (gs : List Guard) : Prop where
  ascending : gs.Pairwise fun g h => g.level < h.level
  inside : ∀ g ∈ gs, 1 ≤ g.level
  once : ∀ d ∈ c.signature.conditions, ∃! g, g ∈ gs ∧ d ∈ g.conditions
  own : ∀ g ∈ gs, ∀ d ∈ g.conditions, d ∈ c.signature.conditions
  /-- The predicate of a guard is the conjunction of the tests of its conditions. -/
  conjunction : ∀ g ∈ gs,
    g.predicate = Expr.all (g.conditions.map (Nest.test ⟨program.dims, c.signature.loops⟩))
  /-- The variables of a guard are those of loops around it. -/
  closed : ∀ g ∈ gs, g.predicate.ClosedIn (c.signature.loops.take g.level)
  /-- Each condition of a guard is decided from the level of the guard on, and not before. -/
  earliest : ∀ g ∈ gs, ∀ d ∈ g.conditions, ∀ k,
    Nest.Decides ⟨program.dims, c.signature.loops⟩ d k ↔ g.level ≤ k
  /-- A stride is decided just inside the loop over the root that it gates. -/
  stride : ∀ g ∈ gs, ∀ d ∈ g.conditions, ∀ parent factor,
    (program.dims.get d).kind = .conditional parent (.stride factor) →
      ∃ i l, g.level = i + 1 ∧ c.signature.loops[i]? = some l ∧
        program.dims.root l = program.dims.root d

theorem combine_pairwise (gs : List Guard) :
    (combine gs).Pairwise fun g h => g.level < h.level := by
  rw [combine, List.pairwise_map]
  exact SortedSet.pairwise_ofList Nat.lt_trans (fun hnot hne => by omega) _

section Combined

variable {c : Cluster} {own : List Guard} {d : DimId}
  (hown : List.Forall₂ (fun d a => ofCondition program ⟨program.dims, c.signature.loops⟩ d = .ok a)
    c.signature.conditions own)

include hown

/-- A guard made of all guards of its level stands for the conditions of these. -/
theorem mem_conditions_of_mem_combine (hg : g ∈ combine own) :
    d ∈ g.conditions ↔ d ∈ c.signature.conditions ∧
      ∃ a, ofCondition program ⟨program.dims, c.signature.loops⟩ d = .ok a ∧ a.level = g.level := by
  obtain ⟨first, _, rfl⟩ := mem_combine.mp hg
  rw [Guard.conjunction, List.mem_flatMap]
  constructor
  · rintro ⟨a, ha, hd⟩
    obtain ⟨ha, hlevel⟩ := List.mem_filter.mp ha
    obtain ⟨d', hd', hof⟩ := exists_of_forall₂_right hown ha
    rw [(decides_iff_of_ofCondition hof).1, List.mem_singleton] at hd
    subst hd
    exact ⟨hd', a, hof, beq_iff_eq.mp hlevel⟩
  · rintro ⟨hd, a, hof, hlevel⟩
    obtain ⟨b, hb, hof'⟩ := exists_of_forall₂_left hown hd
    cases hof.symm.trans hof'
    refine ⟨a, List.mem_filter.mpr ⟨hb, beq_iff_eq.mpr hlevel⟩, ?_⟩
    rw [(decides_iff_of_ofCondition hof).1]
    exact List.mem_singleton.mpr rfl

theorem exists_mem_conditions_of_mem_combine (hg : g ∈ combine own) : ∃ d, d ∈ g.conditions := by
  obtain ⟨a, ha, rfl⟩ := mem_combine.mp hg
  obtain ⟨d, hd, hof⟩ := exists_of_forall₂_right hown ha
  exact ⟨d, (mem_conditions_of_mem_combine hown hg).mpr ⟨hd, a, hof, rfl⟩⟩

theorem existsUnique_mem_combine (hd : d ∈ c.signature.conditions) :
    ∃! g, g ∈ combine own ∧ d ∈ g.conditions := by
  obtain ⟨a, ha, hof⟩ := exists_of_forall₂_left hown hd
  have hg := mem_combine.mpr ⟨a, ha, rfl⟩
  refine ⟨_, ⟨hg, (mem_conditions_of_mem_combine hown hg).mpr ⟨hd, a, hof, rfl⟩⟩, ?_⟩
  rintro g ⟨hg', hd'⟩
  obtain ⟨_, b, hof', hlevel⟩ := (mem_conditions_of_mem_combine hown hg').mp hd'
  cases hof.symm.trans hof'
  obtain ⟨a', _, rfl⟩ := mem_combine.mp hg'
  rw [hlevel]
  rfl

theorem predicate_of_mem_combine (hg : g ∈ combine own) :
    g.predicate =
      Expr.all (g.conditions.map (Nest.test ⟨program.dims, c.signature.loops⟩)) := by
  obtain ⟨first, _, rfl⟩ := mem_combine.mp hg
  rw [Guard.conjunction, List.map_flatMap, ← List.flatMap_singleton' (List.map _ _),
    List.flatMap_map]
  refine congrArg Expr.all (List.flatMap_congr fun a ha => ?_)
  obtain ⟨d, _, hof⟩ := exists_of_forall₂_right hown (List.mem_filter.mp ha).1
  obtain ⟨hconditions, hpredicate, _⟩ := decides_iff_of_ofCondition hof
  rw [hconditions, hpredicate, List.map_singleton]

theorem decides_iff_of_mem_combine (hg : g ∈ combine own) (hd : d ∈ g.conditions) (k : Nat) :
    Nest.Decides ⟨program.dims, c.signature.loops⟩ d k ↔ g.level ≤ k := by
  obtain ⟨_, a, hof, hlevel⟩ := (mem_conditions_of_mem_combine hown hg).mp hd
  rw [← hlevel]
  exact (decides_iff_of_ofCondition hof).2.2 k

theorem closedIn_of_mem_combine (hg : g ∈ combine own) :
    g.predicate.ClosedIn (c.signature.loops.take g.level) := by
  intro l hl
  rw [predicate_of_mem_combine hown hg, ← Expr.dim_mem_atoms, Expr.atoms_all, List.flatMap_map,
    List.mem_flatMap] at hl
  obtain ⟨d, hd, hl⟩ := hl
  have hdecides := (decides_iff_of_mem_combine hown hg hd g.level).mpr (Nat.le_refl _)
  exact hdecides.within l (Expr.dim_mem_atoms.mp hl)

/-- Outside all loops nothing can be decided. -/
theorem one_le_level_of_mem_combine (hg : g ∈ combine own) : 1 ≤ g.level := by
  obtain ⟨a, ha, rfl⟩ := mem_combine.mp hg
  obtain ⟨d, _, hof⟩ := exists_of_forall₂_right hown ha
  refine Nat.one_le_iff_ne_zero.mpr fun hzero => ?_
  obtain ⟨⟨l, hl, _⟩, _⟩ := ((decides_iff_of_ofCondition hof).2.2 0).mpr (Nat.le_of_eq hzero)
  rw [List.take_zero] at hl
  cases hl

end Combined

variable {c : Cluster}

theorem placed_of_ofCluster {gs : List Guard} (h : ofCluster program c = .ok gs) :
    Placed program c gs := by
  obtain ⟨own, hown, h⟩ := bind_eq_ok.mp h
  cases h
  replace hown := mapM_eq_ok.mp hown
  refine
    { ascending := combine_pairwise own
      inside := fun _ hg => one_le_level_of_mem_combine hown hg
      once := fun _ hd => existsUnique_mem_combine hown hd
      own := fun _ hg _ hd => ((mem_conditions_of_mem_combine hown hg).mp hd).1
      conjunction := fun _ hg => predicate_of_mem_combine hown hg
      closed := fun _ hg => closedIn_of_mem_combine hown hg
      earliest := fun _ hg _ hd => decides_iff_of_mem_combine hown hg hd
      stride := fun g hg d hd parent factor hk => ?_ }
  obtain ⟨_, a, hof, hlevel⟩ := (mem_conditions_of_mem_combine hown hg).mp hd
  obtain ⟨i, l, hi, hl⟩ := (depthOf?_eq_some (depthOf?_of_stride hof hk)).1
  exact ⟨i, l, hlevel ▸ hi, hl⟩

theorem exists_mem_conditions_of_ofCluster {gs : List Guard} (h : ofCluster program c = .ok gs)
    {g : Guard} (hg : g ∈ gs) : ∃ d, d ∈ g.conditions := by
  obtain ⟨own, hown, h⟩ := bind_eq_ok.mp h
  cases h
  exact exists_mem_conditions_of_mem_combine (mapM_eq_ok.mp hown) hg

theorem exists_ofCluster_iff (h : ∀ d ∈ c.signature.conditions,
      ∃ l ∈ c.signature.loops, program.dims.root l = program.dims.root d) :
    (∃ gs, ofCluster program c = .ok gs) ↔ ∀ d ∈ c.signature.conditions,
      ∀ e ∈ (program.dims.get d).predicate?, Resolvable program c.signature.loops e := by
  constructor
  · rintro ⟨gs, hgs⟩ d hd
    obtain ⟨own, hown, _⟩ := bind_eq_ok.mp hgs
    obtain ⟨a, _, hof⟩ := exists_of_forall₂_left (mapM_eq_ok.mp hown) hd
    exact (exists_ofCondition_iff (h d hd)).mp ⟨a, hof⟩
  · intro hresolvable
    obtain ⟨own, hown⟩ := exists_mapM_eq_ok fun d hd =>
      (exists_ofCondition_iff (h d hd)).mpr (hresolvable d hd)
    exact ⟨_, bind_eq_ok.mpr ⟨own, hown, rfl⟩⟩

end Guard

/-! ## The clusters of a program -/

theorem Program.clusters_eq_ok {program : Program} {options : Options} {cs : List Cluster}
    (h : (program.clusters options).result = .ok cs) :
    ∃ es g, program.lower.result = .ok es ∧ Lowered.graph program.dims es = .ok g ∧
      cs = Cluster.build program.dims g options es := by
  simp only [clusters, Logged.result_bind, Logged.result_noteAll, Logged.result_pure] at h
  obtain ⟨es, hes, h⟩ := bind_eq_ok.mp h
  obtain ⟨g, hg, h⟩ := bind_eq_ok.mp h
  cases h
  exact ⟨es, g, hes, analyze_eq_ok.mp hg, rfl⟩

theorem Cluster.Sound.exists_loop {t : DimTable} {g : DependenceGraph} {es : List Lowered}
    {c : Cluster} (h : c.Sound t g es) (hshaped : ∀ e ∈ es, e.Shaped t) {d : DimId}
    (hd : d ∈ c.signature.conditions) : ∃ l ∈ c.signature.loops, t.root l = t.root d := by
  obtain ⟨i, hi⟩ := List.exists_mem_of_ne_nil _ h.nonempty
  obtain ⟨e, he, _, hsig⟩ := h.uniform i hi
  rw [← hsig] at hd ⊢
  exact List.mem_map.mp ((hshaped e he).root_mem_of_mem_conditions d hd)

/-- The guards of a cluster can be placed exactly if everything in its predicates has a value inside
its loops, and they are placed where they can first be decided. -/
theorem placed_of_clusters {program : Program} {options : Options} {cs : List Cluster}
    (hclusters : (program.clusters options).result = .ok cs) {c : Cluster} (hc : c ∈ cs) :
    ((∃ gs, Guard.ofCluster program c = .ok gs) ↔ ∀ d ∈ c.signature.conditions,
      ∀ e ∈ (program.dims.get d).predicate?, Guard.Resolvable program c.signature.loops e) ∧
    ∀ gs, Guard.ofCluster program c = .ok gs → Guard.Placed program c gs := by
  obtain ⟨es, g, hlower, hgraph, rfl⟩ := Program.clusters_eq_ok hclusters
  obtain ⟨hnumbered, hshaped⟩ := Program.lower_shaped hlower
  have hsound := Cluster.build_sound hgraph hnumbered options c hc
  exact ⟨Guard.exists_ofCluster_iff fun d hd => hsound.exists_loop hshaped hd,
    fun gs hgs => Guard.placed_of_ofCluster hgs⟩

/-- One equation along `x` and `y` under a stride and two predicates, of which one reads along `y`,
and one along `x` under a predicate on `z`. -/
def terraces : Program where
  dims := (do
    let (t, x) ← DimTable.empty.space "x" (some 4)
    let (t, y) ← t.space "y" (some 4)
    let (t, z) ← t.space "z" (some 4)
    let (t, _) ← t.conditional "even" x (some 2) none
    let (t, _) ← t.conditional "late" x none (some (.compare .ge (.dim x) (.symbol "s")))
    let (t, _) ← t.conditional "wet" x none
      (some (.compare .gt (.access "h" [.symbolic x (.dim y)]) (.symbol "s")))
    let (t, _) ← t.conditional "off" x none (some (.compare .gt (.dim z) (.int 0)))
    return t : Except ModelError DimTable).toOption.getD .empty
  scalars := ["s"]
  equations :=
    [⟨⟨"u", [.fixed ⟨3⟩ 0, .fixed ⟨1⟩ 0]⟩, .int 0, [], [⟨4⟩, ⟨5⟩]⟩,
      ⟨⟨"h", [.fixed ⟨6⟩ 0]⟩, .int 0, [], []⟩]

theorem placed_of_clusters_terraces :
    ∃ cs, (terraces.clusters default).result = .ok cs ∧
      cs.map (fun c => (c.equations, (Guard.ofCluster terraces c).toOption.map fun gs =>
        gs.map fun g => (g.level, g.conditions))) =
        [([0], some [(1, [⟨3⟩, ⟨4⟩]), (2, [⟨5⟩])]), ([1], none)] ∧
      ∀ c ∈ cs, ((∃ gs, Guard.ofCluster terraces c = .ok gs) ↔ ∀ d ∈ c.signature.conditions,
        ∀ e ∈ (terraces.dims.get d).predicate?,
          Guard.Resolvable terraces c.signature.loops e) ∧
        ∀ gs, Guard.ofCluster terraces c = .ok gs → Guard.Placed terraces c gs := by
  have facts : ∃ cs, (terraces.clusters default).result = .ok cs ∧
      cs.map (fun c => (c.equations, (Guard.ofCluster terraces c).toOption.map fun gs =>
        gs.map fun g => (g.level, g.conditions))) =
        [([0], some [(1, [⟨3⟩, ⟨4⟩]), (2, [⟨5⟩])]), ([1], none)] :=
    ⟨_, rfl, by decide +kernel⟩
  obtain ⟨cs, hcs, hguards⟩ := facts
  exact ⟨cs, hcs, hguards, fun c hc => placed_of_clusters hcs hc⟩

end LoopNest
