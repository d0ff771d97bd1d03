import LoopNest.Proofs.Narrowing
import LoopNest.Proofs.Substitution
/-!
# What is found after a substitution

Queries read off an expression what one walk over it visits: its accesses, its dimensions, its
scalars.  Substitution is a recursion of its own over the same trees.  Neither leaves out a place
that the other reaches: the walk after a substitution visits what it visited before, replaced
(`Expr.nodes_subst`), so every query afterwards is the query before, replaced.  And as the walk
misses nothing (`Expr.mem_dims_iff`), no place is left out by both: the replaced dimension is gone
(`Expr.not_mentions_subst`, `Equation.not_involves_subst`).

Dimensions are listed in the order of their first appearance.  Two of them may become one, and then
the later one is dropped (`eraseDups_append_map`).
-/

namespace LoopNest

variable {old new : DimId}

theorem DimId.subst_ne (h : old ≠ new) (d : DimId) : d.subst old new ≠ old := by
  rw [subst]
  split
  · exact h.symm
  · assumption

/-! ## First appearances -/

section FirstAppearances

variable {f : DimId → DimId} {xs ys : List DimId}

/-- Lists with the same first appearances still have the same ones if more is appended to both. -/
theorem eraseDups_append_congr (h : xs.eraseDups = ys.eraseDups) (rest : List DimId) :
    (xs ++ rest).eraseDups = (ys ++ rest).eraseDups := by
  have hmem : ∀ a, a ∈ xs ↔ a ∈ ys := by
    intro a
    rw [← List.mem_eraseDups, h, List.mem_eraseDups]
  have hrest : rest.removeAll xs = rest.removeAll ys := by
    refine List.filter_congr fun a _ => ?_
    rw [Bool.eq_iff_iff]
    simp [hmem]
  rw [List.eraseDups_append, List.eraseDups_append, h, hrest]

/-- What is dropped before a renaming would be dropped after it. -/
theorem eraseDups_append_map (ys xs : List DimId) :
    (ys ++ xs.eraseDups.map f).eraseDups = (ys ++ xs.map f).eraseDups := by
  induction xs using List.reverseRecOn with
  | nil => rfl
  | append_singleton xs a ih =>
      rw [List.map_append, ← List.append_assoc, List.map_singleton]
      by_cases ha : a ∈ xs
      · have hseen : f a ∈ ys ++ xs.map f := List.mem_append_right _ (List.mem_map_of_mem ha)
        rw [Lowered.eraseDups_append_cons ha [], List.append_nil, ih,
          Lowered.eraseDups_append_cons hseen [], List.append_nil]
      · rw [Lowered.eraseDups_concat ha, List.map_append, ← List.append_assoc, List.map_singleton]
        exact eraseDups_append_congr ih [f a]

theorem eraseDups_map_eraseDups (xs : List DimId) :
    (xs.eraseDups.map f).eraseDups = (xs.map f).eraseDups :=
  eraseDups_append_map [] xs

end FirstAppearances

/-! ## Expressions -/

namespace Expr

variable (old new : DimId)

theorem access?_subst (e : Expr) :
    (e.subst old new).access? = e.access?.map (Access.subst old new) := by
  cases e <;> rfl

theorem symbol?_subst (e : Expr) : (e.subst old new).symbol? = e.symbol? := by
  cases e <;> rfl

theorem ownDims_subst (e : Expr) :
    (e.subst old new).ownDims = e.ownDims.map fun d => d.subst old new := by
  cases e with
  | access tensor is => exact Index.map_dim_substAll old new is
  | _ => rfl

theorem accesses_subst (e : Expr) :
    (e.subst old new).accesses = e.accesses.map (Access.subst old new) := by
  rw [accesses, accesses, nodes_subst, List.filterMap_map, List.map_filterMap]
  exact List.filterMap_congr fun f _ => access?_subst old new f

theorem dims_subst (e : Expr) :
    (e.subst old new).dims = (e.dims.map fun d => d.subst old new).eraseDups := by
  rw [dims, dims, eraseDups_map_eraseDups, nodes_subst, List.flatMap_map, List.map_flatMap]
  exact congrArg List.eraseDups (List.flatMap_congr fun f _ => ownDims_subst old new f)

theorem symbols_subst (e : Expr) : (e.subst old new).symbols = e.symbols := by
  rw [symbols, symbols, nodes_subst, List.filterMap_map]
  exact congrArg SortedSet.ofList (List.filterMap_congr fun f _ => symbol?_subst old new f)

variable {old new}

theorem not_mentions_subst (h : old ≠ new) (e : Expr) : ¬ (e.subst old new).Mentions old := by
  intro hold
  obtain ⟨c, -, hc⟩ := (mentions_subst old new).mp hold
  exact DimId.subst_ne h c hc

end Expr

/-! ## Equations -/

namespace Equation

variable {eq : Equation} {d : DimId}

/-- The dimension stands anywhere in the equation: on either side, displacements included, among the
implicit dimensions, or in a pair of the subdomain. -/
def Involves (eq : Equation) (d : DimId) : Prop :=
  eq.Mentions d ∨ ∃ pair ∈ eq.subdomain, pair.1 = d ∨ pair.2 = d

theorem reads_subst (old new : DimId) (eq : Equation) :
    (eq.subst old new).reads = eq.reads.map (Access.subst old new) :=
  Expr.accesses_subst old new eq.rhs

theorem dims_subst (old new : DimId) (eq : Equation) :
    (eq.subst old new).dims = (eq.dims.map fun d => d.subst old new).eraseDups := by
  have hlhs : (eq.subst old new).lhs.indices.map Index.dim =
      (eq.lhs.indices.map Index.dim).map fun d => d.subst old new :=
    Index.map_dim_substAll old new eq.lhs.indices
  have hrhs : (eq.subst old new).rhs.dims = (eq.rhs.dims.map fun d => d.subst old new).eraseDups :=
    Expr.dims_subst old new eq.rhs
  -- Dimensions of the right-hand side that become one are dropped there already.
  have hdrop := eraseDups_append_map (f := id) ((eq.lhs.indices.map Index.dim).map fun d =>
    d.subst old new) (eq.rhs.dims.map fun d => d.subst old new)
  rw [List.map_id, List.map_id] at hdrop
  rw [dims, dims, eraseDups_map_eraseDups, List.map_append, List.map_append, hlhs, hrhs]
  exact eraseDups_append_congr hdrop _

theorem mentions_subst : (eq.subst old new).Mentions d ↔
    ∃ c, eq.Mentions c ∧ c.subst old new = d := by
  unfold Mentions
  rw [exists_and_or_iff, mem_implicit_subst]
  exact or_congr (Expr.mentions_subst old new (e := eq.lhs.toExpr))
    (or_congr_left (Expr.mentions_subst old new))

theorem involves_subst : (eq.subst old new).Involves d ↔
    ∃ c, eq.Involves c ∧ c.subst old new = d := by
  unfold Involves
  rw [mentions_subst]
  constructor
  · rintro (⟨c, hc, rfl⟩ | ⟨_, hp, h⟩)
    · exact ⟨c, Or.inl hc, rfl⟩
    · obtain ⟨pair, hpair, rfl⟩ := List.mem_map.mp hp
      rcases h with rfl | rfl
      · exact ⟨_, Or.inr ⟨pair, hpair, Or.inl rfl⟩, rfl⟩
      · exact ⟨_, Or.inr ⟨pair, hpair, Or.inr rfl⟩, rfl⟩
  · rintro ⟨c, hc | ⟨pair, hpair, rfl | rfl⟩, rfl⟩
    · exact Or.inl ⟨c, hc, rfl⟩
    · exact Or.inr ⟨_, List.mem_map.mpr ⟨pair, hpair, rfl⟩, Or.inl rfl⟩
    · exact Or.inr ⟨_, List.mem_map.mpr ⟨pair, hpair, rfl⟩, Or.inr rfl⟩

theorem not_involves_subst (h : old ≠ new) (eq : Equation) :
    ¬ (eq.subst old new).Involves old := by
  intro hold
  obtain ⟨c, -, hc⟩ := involves_subst.mp hold
  exact DimId.subst_ne h c hc

end Equation

/-! ## Both together -/

/-- Queries of the expression and the substitution commute, and leave no place out. -/
structure Expr.CommutesWithSubst (old new : DimId) (e : Expr) : Prop where
  accesses : (e.subst old new).accesses = e.accesses.map (Access.subst old new)
  dims : (e.subst old new).dims = (e.dims.map fun d => d.subst old new).eraseDups
  symbols : (e.subst old new).symbols = e.symbols
  gone : old ≠ new → ¬ (e.subst old new).Mentions old

/-- Queries of the equation and the substitution commute, and leave no place out. -/
structure Equation.CommutesWithSubst (old new : DimId) (eq : Equation) : Prop where
  reads : (eq.subst old new).reads = eq.reads.map (Access.subst old new)
  dims : (eq.subst old new).dims = (eq.dims.map fun d => d.subst old new).eraseDups
  gone : old ≠ new → ¬ (eq.subst old new).Involves old

/-- Substitution and queries cover the same places of expressions and equations. -/
theorem queries_commute_with_subst (old new : DimId) :
    (∀ e : Expr, e.CommutesWithSubst old new) ∧
      ∀ eq : Equation, eq.CommutesWithSubst old new := by
  refine ⟨fun e => ?_, fun eq => ?_⟩
  · exact ⟨e.accesses_subst old new, e.dims_subst old new, e.symbols_subst old new,
      fun h => Expr.not_mentions_subst h e⟩
  · exact ⟨eq.reads_subst old new, eq.dims_subst old new, fun h => Equation.not_involves_subst h eq⟩

/-- The first dimension stands in every kind of place: as an index, in displacements of both sides,
in an access inside a displacement, as a variable, in a pair and among the implicit dimensions. -/
def everywhere : Equation where
  lhs := ⟨"u", [.symbolic ⟨0⟩ (.access "p" [.fixed ⟨0⟩ 1])]⟩
  rhs := .binary .add
    (.access "v" [.symbolic ⟨2⟩ (.neg (.access "p" [.symbolic ⟨0⟩ (.dim ⟨0⟩)])), .fixed ⟨1⟩ 0])
    (.call "max" [.element "w" [.dim ⟨0⟩], .and [.compare .lt (.dim ⟨0⟩) (.symbol "n")]])
  subdomain := [(⟨0⟩, ⟨1⟩), (⟨2⟩, ⟨0⟩)]
  implicit := [⟨3⟩, ⟨0⟩]

theorem queries_commute_with_subst_everywhere :
    (⟨0⟩ : DimId) ≠ ⟨1⟩ ∧ everywhere.dims = [⟨0⟩, ⟨2⟩, ⟨1⟩, ⟨3⟩] ∧
      (everywhere.subst ⟨0⟩ ⟨1⟩).dims = [⟨1⟩, ⟨2⟩, ⟨3⟩] ∧
      (everywhere.subst ⟨0⟩ ⟨1⟩).reads =
        [⟨"v", [.symbolic ⟨2⟩ (.neg (.access "p" [.symbolic ⟨1⟩ (.dim ⟨1⟩)])), .fixed ⟨1⟩ 0]⟩,
          ⟨"p", [.symbolic ⟨1⟩ (.dim ⟨1⟩)]⟩] ∧
      (everywhere.rhs.subst ⟨0⟩ ⟨1⟩).symbols = ["n"] ∧
      ¬ (everywhere.subst ⟨0⟩ ⟨1⟩).Involves ⟨0⟩ := by
  obtain ⟨hexprs, hequations⟩ := queries_commute_with_subst ⟨0⟩ ⟨1⟩
  have hne : (⟨0⟩ : DimId) ≠ ⟨1⟩ := by decide
  have hdims : everywhere.dims = [⟨0⟩, ⟨2⟩, ⟨1⟩, ⟨3⟩] := by decide
  refine ⟨hne, hdims, ?_, ?_, ?_, (hequations everywhere).gone hne⟩
  · rw [(hequations everywhere).dims, hdims]
    decide
  · rw [(hequations everywhere).reads]
    rfl
  · rw [(hexprs everywhere.rhs).symbols]
    rfl

end LoopNest
