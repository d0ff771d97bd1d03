import LoopNest.Proofs.Renaming
/-!
# Where the order of a subdomain's pairs shows

Under other names the pairs of a subdomain come in another order.  The lowered equations do not show
it, unless a pair replaces what another pair puts in (`order_shows_iff_chained`).
-/

namespace LoopNest

theorem Problem.lower_rename {f : String → String} {problem : Problem} {p : Program}
    (hdistinct : problem.Distinct) (hf : problem.Renames f) (hp : problem.toProgram = .ok p)
    (hchain : ∀ eq ∈ p.equations, ¬ eq.Chained) :
    ∃ q, (problem.rename f).toProgram = .ok q ∧
      ∀ es, p.lower.result = .ok es ↔ q.lower.result = .ok es := by
  obtain ⟨q, hq, hrearranged⟩ := Problem.toProgram_rename hf hdistinct hp
  exact ⟨q, hq, fun es => hrearranged.lower_eq_ok_iff (Problem.check_of_toProgram hp)
    (Problem.distinct_of_toProgram hdistinct hp) hchain⟩

/-- The order of a subdomain's pairs shows in the equation that they make if and only if they form a
chain: a dimension that the equation mentions is replaced by one that is to be replaced itself.  So
without a chain a problem text has the same lowered equations under any other names, though its
pairs are then read in another order. -/
theorem order_shows_iff_chained (p : Program) :
    (∀ eq ∈ p.equations, eq.checkMappings p.dims = .ok () → (eq.subdomain.map Prod.fst).Nodup →
      ((∀ pairs : List (DimId × DimId), pairs.Perm eq.subdomain →
        { eq with subdomain := pairs }.restrict p.dims = eq.restrict p.dims) ↔ ¬ eq.Chained)) ∧
    ∀ (text : String) (problem : Problem) (f : String → String),
      Problem.ofText? text = some problem → problem.toProgram = .ok p → problem.Renames f →
        (∀ eq ∈ p.equations, ¬ eq.Chained) →
          ∃ q, (problem.rename f).toProgram = .ok q ∧
            ∀ es, p.lower.result = .ok es ↔ q.lower.result = .ok es := by
  constructor
  · intro eq _ hcheck hdistinct
    exact Equation.restrict_perm_iff hcheck hdistinct
  · intro text problem f hread hp hf hchain
    exact Problem.lower_rename (Problem.distinct_of_ofText? hread) hf hp hchain

namespace Problem

/-- The name that takes the place of another when two names are swapped. -/
def swap (m n name : String) : String := if name = m then n else if name = n then m else name

/-- A range, a part of it and a part of the part.  An equation along one of them is restricted from
the range to its part, and from the part to the part of it. -/
def nestedText (along : String) : String :=
  "\x7b\"dimensions\":[\x7b\"name\":\"x\",\"kind\":\"space\"\x7d," ++
    "\x7b\"name\":\"a\",\"kind\":\"sub\",\"parent\":\"x\",\"side\":\"left\"\x7d," ++
    "\x7b\"name\":\"b\",\"kind\":\"sub\",\"parent\":\"a\",\"side\":\"left\"\x7d]," ++
  "\"equations\":[[[\"u\",[\"" ++ along ++ "\"]],\x7b\"int\":1\x7d," ++
    "\x7b\"x\":\"a\",\"a\":\"b\"\x7d]]\x7d"

/-- An equation along the part has no use for the pair of the whole range.  So it makes no
difference that the pairs are read the other way round with the names of range and part swapped. -/
theorem order_shows_iff_chained_part :
    ∃ problem p q es, ofText? (nestedText "a") = some problem ∧ problem.toProgram = .ok p ∧
      (problem.rename (swap "x" "a")).toProgram = .ok q ∧
      p.equations.map Equation.subdomain = [[(⟨1⟩, ⟨2⟩), (⟨0⟩, ⟨1⟩)]] ∧
      q.equations.map Equation.subdomain = [[(⟨0⟩, ⟨1⟩), (⟨1⟩, ⟨2⟩)]] ∧
      (∀ eq ∈ p.equations, ∀ pairs : List (DimId × DimId), pairs.Perm eq.subdomain →
        { eq with subdomain := pairs }.restrict p.dims = eq.restrict p.dims) ∧
      p.lower.result = .ok es ∧ q.lower.result = .ok es ∧ es.map Lowered.loops = [[⟨2⟩]] := by
  have facts : ((ofText? (nestedText "a")).bind fun problem =>
      problem.toProgram.toOption.bind fun p =>
        (problem.rename (swap "x" "a")).toProgram.toOption.bind fun q =>
          p.lower.result.toOption.map fun es =>
            ([p.equations.map Equation.subdomain, q.equations.map Equation.subdomain],
              es.map Lowered.loops, decide (problem.Renames (swap "x" "a")) &&
                p.equations.all fun eq => decide (¬ eq.Chained))) =
      some ([[[(⟨1⟩, ⟨2⟩), (⟨0⟩, ⟨1⟩)]], [[(⟨0⟩, ⟨1⟩), (⟨1⟩, ⟨2⟩)]]], [[⟨2⟩]], true) := by
    decide +kernel
  obtain ⟨problem, hread, facts⟩ := Option.bind_eq_some_iff.mp facts
  obtain ⟨p, hp, facts⟩ := Option.bind_eq_some_iff.mp facts
  obtain ⟨q, hq, facts⟩ := Option.bind_eq_some_iff.mp facts
  obtain ⟨es, hes, facts⟩ := Option.map_eq_some_iff.mp facts
  obtain ⟨hpairs, facts⟩ := Prod.mk.inj facts
  obtain ⟨hpairs, hpairs'⟩ := List.cons.inj hpairs
  obtain ⟨hloops, facts⟩ := Prod.mk.inj facts
  obtain ⟨hf, hall⟩ := Bool.and_eq_true_iff.mp facts
  replace hp := toOption_eq_some.mp hp
  replace hq := toOption_eq_some.mp hq
  replace hes := toOption_eq_some.mp hes
  have hchain : ∀ eq ∈ p.equations, ¬ eq.Chained := fun eq heq =>
    of_decide_eq_true (List.all_eq_true.mp hall eq heq)
  have hdistinct := distinct_of_toProgram (distinct_of_ofText? hread) hp
  obtain ⟨hrestrict, hlower⟩ := order_shows_iff_chained p
  obtain ⟨q', hq', hsame⟩ := hlower _ problem _ hread hp (of_decide_eq_true hf) hchain
  cases hq.symm.trans hq'
  refine ⟨problem, p, q, es, hread, hp, hq, hpairs, List.head_eq_of_cons_eq hpairs',
    fun eq heq => ?_, hes, (hsame es).mp hes, hloops⟩
  have hcheck := (Program.contains_of_check (check_of_toProgram hp) heq).2
  exact (hrestrict eq heq hcheck (hdistinct eq heq)).mpr (hchain eq heq)

/-- In an equation along the range the pair of the part comes first by name and finds nothing to
replace, so the equation runs over the part.  With the names of range and part swapped it comes
second, and the equation runs over the part of the part. -/
theorem not_order_free :
    (¬ ∀ (t : DimTable) (eq : Equation), eq.checkMappings t = .ok () →
      (eq.subdomain.map Prod.fst).Nodup →
        ∀ pairs : List (DimId × DimId), pairs.Perm eq.subdomain →
          { eq with subdomain := pairs }.restrict t = eq.restrict t) ∧
    ¬ ∀ (text : String) (problem : Problem) (f : String → String) (p q : Program),
      ofText? text = some problem → problem.toProgram = .ok p → problem.Renames f →
        (problem.rename f).toProgram = .ok q →
          ∀ es, p.lower.result = .ok es → q.lower.result = .ok es := by
  have facts : ((ofText? (nestedText "x")).bind fun problem =>
      problem.toProgram.toOption.bind fun p =>
        (problem.rename (swap "x" "a")).toProgram.toOption.bind fun q =>
          p.lower.result.toOption.bind fun es => q.lower.result.toOption.map fun es' =>
            (es.map Lowered.loops, es'.map Lowered.loops,
              decide (problem.Renames (swap "x" "a")) &&
                p.equations.any fun eq => decide eq.Chained)) =
      some ([[⟨1⟩]], [[⟨2⟩]], true) := by
    decide +kernel
  obtain ⟨problem, hread, facts⟩ := Option.bind_eq_some_iff.mp facts
  obtain ⟨p, hp, facts⟩ := Option.bind_eq_some_iff.mp facts
  obtain ⟨q, hq, facts⟩ := Option.bind_eq_some_iff.mp facts
  obtain ⟨es, hes, facts⟩ := Option.bind_eq_some_iff.mp facts
  obtain ⟨es', hes', facts⟩ := Option.map_eq_some_iff.mp facts
  obtain ⟨hloops, facts⟩ := Prod.mk.inj facts
  obtain ⟨hloops', facts⟩ := Prod.mk.inj facts
  obtain ⟨hf, hany⟩ := Bool.and_eq_true_iff.mp facts
  replace hp := toOption_eq_some.mp hp
  replace hq := toOption_eq_some.mp hq
  replace hes := toOption_eq_some.mp hes
  replace hes' := toOption_eq_some.mp hes'
  constructor
  · intro h
    obtain ⟨eq, heq, hchained⟩ := List.any_eq_true.mp hany
    have hcheck := (Program.contains_of_check (check_of_toProgram hp) heq).2
    have hdistinct := distinct_of_toProgram (distinct_of_ofText? hread) hp eq heq
    exact (Equation.restrict_perm_iff hcheck hdistinct).mp (h p.dims eq hcheck hdistinct)
      (of_decide_eq_true hchained)
  · intro h
    cases (h _ problem _ p q hread hp (of_decide_eq_true hf) hq es hes).symm.trans hes'
    cases hloops.symm.trans hloops'

end Problem

end LoopNest
