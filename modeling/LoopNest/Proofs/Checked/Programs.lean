import LoopNest.Proofs.Checked.Runs
import LoopNest.Proofs.Checked.Trees
/-!
# Scheduling with checked lookups

The stages put together.  Up to the plan the check at the start is all that it takes (`plan_eq`,
`clusters_eq`).  From the tree on what a left-hand side displaces its indices by is looked up too,
and no check asks after that; so the tree is built without a miss if the table has issued what the
left-hand sides mention (`schedule_eq`), and a program over issued dimensions can be written,
scheduled and run (`Program.resolves_of_issued`).
-/

namespace LoopNest

/-! ## Restricted equations -/

theorem Program.targets_of_lower {p : Program}
    (h : ∀ eq ∈ p.equations, eq.lhs.toExpr.IssuedBy p.dims) {es : List Lowered}
    (hes : p.lower.result = .ok es) {e : Lowered} (he : e ∈ es) :
    e.equation.lhs.toExpr.IssuedBy p.dims := by
  obtain ⟨eq, heq, hof⟩ := exists_ofEquation hes he
  obtain ⟨hcheck, hrestricted, -⟩ := Lowered.ofEquation_eq_ok hof
  intro d hd
  rw [hrestricted] at hd
  obtain ⟨c, hc, rfl⟩ := Equation.mentions_lhs_restricted.mp hd
  exact Equation.contains_replacement hcheck (h eq (List.mem_of_getElem? heq) c hc)

namespace Checked

variable {p : Program} {options : Options}

/-! ## Stages -/

/-- The clusters of a program, in order of execution. -/
def clusters (p : Program) (options : Options) :
    Except (Fault AnalysisError) (List Cluster) := do
  let es ← lower p
  let g ← graph p.dims es
  build p.dims g options es

/-- What the tree of a program is built from. -/
def plan (p : Program) (options : Options) : Except (Fault ScheduleError) Plan := do
  pass options.check
  let es ← (lower p).mapError (Fault.rename .analysis)
  let g ← (graph p.dims es).mapError (Fault.rename .analysis)
  let clusters ← build p.dims g options es
  let guards ← clusters.mapM (ofCluster p)
  return ⟨p.dims, es, g, clusters, guards, options⟩

/-- The program as a tree of loops and guards. -/
def schedule (p : Program) (options : Options) : Except (Fault ScheduleError) ScheduleTree := do
  let plan ← plan p options
  tree plan

theorem analyze_eq {t : DimTable} {es : List Lowered} (h : ∀ e ∈ es, e.IssuedBy t) :
    graph t es = pass (Lowered.analyze t es).result := by
  rw [graph_eq h]
  simp only [Lowered.analyze, Logged.result_bind, Logged.result_ofExcept, Logged.result_note,
    Logged.result_pure]
  cases Lowered.graph t es <;> rfl

theorem clusters_eq (p : Program) (options : Options) :
    clusters p options = pass (p.clusters options).result := by
  rw [Program.clusters, Logged.result_bind]
  refine bind_eq_pass (lower_eq p) fun es hes => ?_
  have hissued := fun e (he : e ∈ es) => Program.lower_issuedBy hes he
  rw [Logged.result_bind]
  refine bind_eq_pass (analyze_eq hissued) fun g hg => ?_
  rw [build_eq (Program.analyze_eq_ok.mp hg) (Program.lower_shaped hes).1 hissued]
  simp only [Logged.result_bind, Logged.result_noteAll, Logged.result_pure]
  rfl

/-- A plan is made with checked lookups. -/
theorem plan_eq (p : Program) (options : Options) :
    plan p options = pass (p.plan options).result := by
  rw [Program.plan, Logged.result_bind]
  refine bind_eq_pass rfl fun _ _ => ?_
  rw [Logged.result_bind, Logged.result_mapError]
  refine bind_eq_pass (by rw [lower_eq, rename_pass]) fun es hes => ?_
  replace hes := mapError_eq_ok.mp hes
  have hissued := fun e (he : e ∈ es) => Program.lower_issuedBy hes he
  rw [Logged.result_bind, Logged.result_mapError]
  refine bind_eq_pass (by rw [analyze_eq hissued, rename_pass]) fun g hg => ?_
  replace hg := Program.analyze_eq_ok.mp (mapError_eq_ok.mp hg)
  have hn := (Program.lower_shaped hes).1
  rw [build_eq hg hn hissued, lift_ok, ok_bind]
  simp only [Logged.result_bind, Logged.result_noteAll, Logged.result_ofExcept,
    Logged.result_pure, Except.bind]
  refine bind_eq_pass (mapM_eq_pass fun c hc => ?_) fun guards _ => rfl
  obtain ⟨hloops, hconditions, -⟩ := Lowered.issuedBy_of_build hg hn hissued hc
  exact ofCluster_eq hloops hconditions

/-- A plan refers to what is there if the left-hand sides of the program do. -/
theorem issued_of_plan (h : ∀ eq ∈ p.equations, eq.lhs.toExpr.IssuedBy p.dims) {plan : Plan}
    (hplan : (p.plan options).result = .ok plan) : plan.Issued := by
  obtain ⟨hs, -⟩ := Program.sound_of_plan hplan
  exact hs.issued fun e he => hs.dims ▸ Program.targets_of_lower h hs.lowered he

/-- A program is scheduled with checked lookups. -/
theorem schedule_eq (h : ∀ eq ∈ p.equations, eq.lhs.toExpr.IssuedBy p.dims) (options : Options) :
    schedule p options = pass (p.schedule options).result := by
  rw [Program.schedule, Logged.result_bind]
  refine bind_eq_pass (plan_eq p options) fun plan hplan => ?_
  rw [tree_eq (issued_of_plan h hplan)]
  simp only [Logged.result_bind, Logged.result_noteAll, Logged.result_note, Logged.result_pure]
  rfl

theorem resolves_of_schedule (h : ∀ eq ∈ p.equations, eq.lhs.toExpr.IssuedBy p.dims)
    {tree : ScheduleTree} (htree : (p.schedule options).result = .ok tree) :
    Node.ResolvesAll p.dims tree.clusters.length tree.roots := by
  simp only [Program.schedule, Logged.result_bind, Logged.result_noteAll, Logged.result_note,
    Logged.result_pure] at htree
  obtain ⟨plan, hplan, htree⟩ := bind_eq_ok.mp htree
  cases htree
  obtain ⟨hs, -⟩ := Program.sound_of_plan hplan
  rw [← hs.dims]
  have hlength : plan.tree.clusters.length = plan.clusters.length := by
    rw [Plan.tree, List.length_map, Plan.clusterIds, List.length_range]
  exact hlength ▸ tree_resolves (issued_of_plan h hplan)

end Checked

/-! ## All that a program is used for -/

/-- With every lookup checked a program is written, put into clusters and scheduled as it is
without, and so are its schedules written and run: what is looked up is there. -/
structure Program.Resolves (p : Program) : Prop where
  text : Checked.programText p = .ok p.text
  clusters : ∀ options, Checked.clusters p options = Checked.pass (p.clusters options).result
  schedule : ∀ options, Checked.schedule p options = Checked.pass (p.schedule options).result
  treeText : ∀ options tree, (p.schedule options).result = .ok tree →
    Checked.treeText p.dims tree = .ok (tree.text p.dims)
  events : ∀ options tree, (p.schedule options).result = .ok tree → ∀ bindings,
    Checked.events p.dims tree bindings = Checked.pass (tree.events p.dims bindings)

/-- A program over issued dimensions misses none of them. -/
theorem Program.resolves_of_issued {p : Program} (h : ∀ eq ∈ p.equations, eq.IssuedBy p.dims) :
    p.Resolves where
  text := Checked.programText_eq h
  clusters := Checked.clusters_eq p
  schedule := Checked.schedule_eq fun eq heq => (h eq heq).lhs
  treeText _ _ htree :=
    Checked.treeText_eq (Checked.resolves_of_schedule (fun eq heq => (h eq heq).lhs) htree)
  events _ _ htree :=
    Checked.events_eq (Checked.resolves_of_schedule (fun eq heq => (h eq heq).lhs) htree)

end LoopNest
