import LoopNest.Proofs.Checked.Programs
import LoopNest.Proofs.NamesApart
/-!
# Programs from problems

A problem refers to dimensions by name, and a name that no dimension has ends the reading.  So
whatever stands in the program of a problem, displacements on left-hand sides included, was issued
by the program's own table (`Problem.toProgram_issuedBy`), and no later stage looks up in vain
(`Problem.resolves_of_toProgram`).
-/

namespace LoopNest.Problem

variable {t : DimTable}

theorem Stands.issuedBy {limit : Nat} {m : Mention} {x : Atom} (h : Stands t limit m x) :
    x.IssuedBy t := by
  cases h with
  | symbol _ | tensor _ => trivial
  | dim hd _ | index hd _ => exact hd.1

theorem Spells.issuedBy {limit : Nat} {ms : List Mention} {e : Expr}
    (h : Spells t limit ms e.atoms) : e.IssuedBy t := by
  refine Expr.issuedBy_iff_atoms.mpr fun x hx => ?_
  obtain ⟨m, -, hm⟩ := exists_of_forall₂_right h hx
  exact hm.issuedBy

theorem Restates.issuedBy {decl : EquationDecl} {eq : Equation} (h : Restates t decl eq) :
    eq.IssuedBy t := by
  refine ⟨Spells.issuedBy h.lhs, Spells.issuedBy h.rhs, fun pair hp => ?_, fun d hd => ?_⟩
  · obtain ⟨names, -, hold, hnew⟩ := exists_of_forall₂_right h.subdomain hp
    exact ⟨hold.1, hnew.1⟩
  · obtain ⟨name, -, hname⟩ := exists_of_forall₂_right h.implicit hd
    exact hname.1

/-- Whatever a problem's program mentions, its table has issued. -/
theorem toProgram_issuedBy {problem : Problem} {p : Program} (h : problem.toProgram = .ok p) :
    ∀ eq ∈ p.equations, eq.IssuedBy p.dims := by
  obtain ⟨dims, -, h⟩ := bind_eq_ok.mp h
  obtain ⟨scalars, -, h⟩ := bind_eq_ok.mp h
  obtain ⟨equations, hequations, h⟩ := bind_eq_ok.mp h
  obtain ⟨_, -, h⟩ := bind_eq_ok.mp h
  cases h
  intro eq heq
  obtain ⟨decl, -, hdecl⟩ := exists_of_forall₂_right (mapM_eq_ok.mp hequations) heq
  exact (toEquation_restates hdecl).issuedBy

/-- The program of a problem is written, scheduled and run without a lookup in vain, and every
round of the ordering of its equations finds one that may come next. -/
theorem resolves_of_toProgram {problem : Problem} {p : Program}
    (h : problem.toProgram = .ok p) : p.Resolves :=
  Program.resolves_of_issued (toProgram_issuedBy h)

/-- A buffered sweep over the interior whose target is displaced by a dimension and by a scalar, and
a copy at every point that a predicate admits. -/
def skewedSweep : Problem where
  dimensions := [⟨"time", .time (some 2)⟩, ⟨"t", .stepping "time" 2⟩, ⟨"x", .space (some 4)⟩,
    ⟨"xi", .sub "x" .middle 1 1⟩,
    ⟨"odd", .conditional "x" none
      (some (.compare .eq (.binary .mod (.dim "x") (.int 2)) (.int 1)))⟩]
  scalars := ["s"]
  equations := [
    ⟨"u", [.fixed "t" 1, .symbolic "x" (.sum [.dim "x", .symbol "s"])],
      .access "v" [.fixed "x" (-1)], [("x", "xi")], []⟩,
    ⟨"w", [.fixed "x" 0], .access "u" [.fixed "t" 1, .fixed "x" 0], [], ["odd"]⟩]

theorem resolves_of_toProgram_skewedSweep :
    ∃ p tree events, skewedSweep.toProgram = .ok p ∧ (p.schedule default).result = .ok tree ∧
      tree.events p.dims [("s", 1)] = .ok events ∧
      events.map Event.index = [[1, 3], [1, 5], [1], [3], [0, 3], [0, 5], [1], [3]] ∧
      p.Resolves := by
  have facts : (skewedSweep.toProgram.toOption.bind fun p =>
      (p.schedule default).result.toOption.bind fun tree =>
        (tree.events p.dims [("s", 1)]).toOption.map fun events => events.map Event.index) =
      some [[1, 3], [1, 5], [1], [3], [0, 3], [0, 5], [1], [3]] := by
    decide +kernel
  obtain ⟨p, hp, facts⟩ := Option.bind_eq_some_iff.mp facts
  obtain ⟨tree, htree, facts⟩ := Option.bind_eq_some_iff.mp facts
  obtain ⟨events, hevents, hindex⟩ := Option.map_eq_some_iff.mp facts
  replace hp := toOption_eq_some.mp hp
  exact ⟨p, tree, events, hp, toOption_eq_some.mp htree, toOption_eq_some.mp hevents, hindex,
    resolves_of_toProgram hp⟩

end LoopNest.Problem
