import Mathlib.Data.List.Perm.Basic
import LoopNest.Proofs.NamesApart
/-!
# Pairs of a subdomain, as they are read

The pairs of a subdomain are put in the order of their names, and of two pairs with one name the
last one counts (`Problem.distinct_sortedPairs`).  So in any problem that was read, the pairs of an
equation replace different dimensions (`Problem.distinct_of_ofText?`), and reading pairs of
different names does no more than put them in order (`Problem.sortedPairs_perm`).
-/

namespace LoopNest

namespace Problem

/-! ## Pairs in order -/

theorem nodup_ofList (names : List String) : (SortedSet.ofList names).Nodup := by
  have hsorted : (SortedSet.ofList names).Pairwise (· < ·) := by
    refine SortedSet.pairwise_ofList String.lt_trans (fun hnot hne => ?_) names
    exact String.not_le.mp fun hle => hne (String.le_antisymm hle (String.not_lt.mp hnot))
  refine hsorted.imp fun {m n} hlt heq => ?_
  exact String.lt_irrefl n (heq ▸ hlt)

theorem exists_find?_reverse {pairs : List (String × String)} {pair : String × String}
    (hp : pair ∈ pairs) : ∃ found ∈ pairs,
      pairs.reverse.find? (fun q => q.1 == pair.1) = some found ∧ found.1 = pair.1 := by
  obtain ⟨found, hfound⟩ : ∃ found, pairs.reverse.find? (fun q => q.1 == pair.1) = some found :=
    Option.isSome_iff_exists.mp
      (List.find?_isSome.mpr ⟨pair, List.mem_reverse.mpr hp, beq_self_eq_true _⟩)
  refine ⟨found, List.mem_reverse.mp (List.mem_of_find?_eq_some hfound), hfound, ?_⟩
  simpa using List.find?_some hfound

/-- The pairs of a subdomain are read with one pair for each name. -/
theorem distinct_sortedPairs (pairs : List (String × String)) :
    ((sortedPairs pairs).map Prod.fst).Nodup := by
  have hkeys : (sortedPairs pairs).map Prod.fst = SortedSet.ofList (pairs.map Prod.fst) := by
    rw [sortedPairs, List.map_filterMap]
    refine (List.filterMap_congr fun key hkey => ?_).trans List.filterMap_some
    obtain ⟨pair, hp, rfl⟩ := List.mem_map.mp (SortedSet.mem_ofList.mp hkey)
    obtain ⟨found, -, hfound, hname⟩ := exists_find?_reverse hp
    rw [hfound, Option.map_some, hname]
  rw [hkeys]
  exact nodup_ofList _

/-- Pairs of different names are only put in order. -/
theorem sortedPairs_perm {pairs : List (String × String)}
    (hdistinct : (pairs.map Prod.fst).Nodup) : (sortedPairs pairs).Perm pairs := by
  have hperm : (SortedSet.ofList (pairs.map Prod.fst)).Perm (pairs.map Prod.fst) :=
    (List.perm_ext_iff_of_nodup (nodup_ofList _) hdistinct).mpr fun _ => SortedSet.mem_ofList
  have hfind : (pairs.map Prod.fst).filterMap
      (fun key => pairs.reverse.find? fun pair => pair.1 == key) = pairs := by
    rw [List.filterMap_map]
    refine (List.filterMap_congr fun pair hp => ?_).trans List.filterMap_some
    obtain ⟨found, hmem, hfound, hname⟩ := exists_find?_reverse hp
    rw [Function.comp_apply, hfound, List.inj_on_of_nodup_map hdistinct hmem hp hname]
  have hsorted := hperm.filterMap fun key => pairs.reverse.find? fun pair => pair.1 == key
  rwa [hfind] at hsorted

/-! ## Problems that were read -/

/-- The names in each equation's subdomain differ, as they do in any problem that was read. -/
def Distinct (p : Problem) : Prop := ∀ decl ∈ p.equations, (decl.subdomain.map Prod.fst).Nodup

theorem distinct_of_pairs? {j : Option Json} {pairs : List (String × String)}
    (h : defaulted [] pairs? j = some pairs) : (pairs.map Prod.fst).Nodup := by
  cases j with
  | none =>
      cases h
      exact .nil
  | some j =>
      cases j with
      | object fields =>
          obtain ⟨_, -, rfl⟩ := Option.map_eq_some_iff.mp h
          exact distinct_sortedPairs _
      | _ => cases h

theorem distinct_of_equation? {room : Nat} {j : Json} {decl : EquationDecl}
    (h : equation? room j = some decl) : (decl.subdomain.map Prod.fst).Nodup := by
  unfold equation? at h
  split at h
  · obtain ⟨lhs, -, h⟩ := Option.bind_eq_some_iff.mp h
    obtain ⟨rhs, -, h⟩ := Option.bind_eq_some_iff.mp h
    obtain ⟨subdomain, hsubdomain, h⟩ := Option.bind_eq_some_iff.mp h
    obtain ⟨implicit, -, h⟩ := Option.bind_eq_some_iff.mp h
    cases h
    exact distinct_of_pairs? hsubdomain
  · cases h

theorem distinct_of_ofJson? {room : Nat} {j : Json} {p : Problem} (h : ofJson? room j = some p) :
    p.Distinct := by
  have hlist : ∀ {o : Option Json} {decls : List EquationDecl},
      defaulted [] (listOf? (equation? (room - 2))) o = some decls →
        ∀ decl ∈ decls, (decl.subdomain.map Prod.fst).Nodup := by
    intro o decls hdecls decl hdecl
    cases o with
    | none =>
        cases hdecls
        cases hdecl
    | some j =>
        cases j with
        | array items =>
            obtain ⟨item, -, hitem⟩ := exists_of_forall₂_right (mapM_eq_some.mp hdecls) hdecl
            exact distinct_of_equation? hitem
        | _ => cases hdecls
  unfold ofJson? at h
  split at h
  · obtain ⟨dimensions, -, h⟩ := Option.bind_eq_some_iff.mp h
    obtain ⟨scalars, -, h⟩ := Option.bind_eq_some_iff.mp h
    obtain ⟨equations, hequations, h⟩ := Option.bind_eq_some_iff.mp h
    cases h
    exact hlist hequations
  · cases h

theorem distinct_of_ofText? {text : String} {p : Problem} (h : ofText? text = some p) :
    p.Distinct := by
  obtain ⟨j, -, h⟩ := Option.bind_eq_some_iff.mp h
  exact distinct_of_ofJson? h

/-! ## Programs of such problems -/

theorem distinct_of_toEquation {t : DimTable} {decl : EquationDecl} {eq : Equation}
    (hdistinct : (decl.subdomain.map Prod.fst).Nodup) (heq : toEquation t decl = .ok eq) :
    (eq.subdomain.map Prod.fst).Nodup := by
  have hnames : (eq.subdomain.map Prod.fst).map t.name = decl.subdomain.map Prod.fst := by
    have hall := (toEquation_restates heq).subdomain
    rw [List.map_map]
    refine List.forall₂_eq_eq_eq ▸ ?_
    refine List.forall₂_map_left_iff.mpr (List.forall₂_map_right_iff.mpr (hall.flip.imp ?_))
    intro pair names hnamed
    exact (DimTable.named_iff.mp hnamed.1).2
  rw [← hnames] at hdistinct
  exact hdistinct.of_map _

theorem check_of_toProgram {problem : Problem} {p : Program} (hp : problem.toProgram = .ok p) :
    p.check = .ok () := by
  obtain ⟨t, -, hp⟩ := bind_eq_ok.mp hp
  obtain ⟨scalars, -, hp⟩ := bind_eq_ok.mp hp
  obtain ⟨equations, -, hp⟩ := bind_eq_ok.mp hp
  obtain ⟨_, hcheck, hp⟩ := bind_eq_ok.mp hp
  cases hp
  exact mapError_eq_ok.mp hcheck

theorem distinct_of_toProgram {problem : Problem} {p : Program} (hdistinct : problem.Distinct)
    (hp : problem.toProgram = .ok p) : ∀ eq ∈ p.equations, (eq.subdomain.map Prod.fst).Nodup := by
  obtain ⟨t, -, hp⟩ := bind_eq_ok.mp hp
  obtain ⟨scalars, -, hp⟩ := bind_eq_ok.mp hp
  obtain ⟨equations, hequations, hp⟩ := bind_eq_ok.mp hp
  obtain ⟨_, -, hp⟩ := bind_eq_ok.mp hp
  cases hp
  intro eq heq
  obtain ⟨decl, hdecl, hread⟩ := exists_of_forall₂_right (mapM_eq_ok.mp hequations) heq
  exact distinct_of_toEquation (hdistinct decl hdecl) hread

end Problem

end LoopNest
