import LoopNest.Proofs.Closed
/-!
# What substitution renames

To replace a dimension in an expression is to rename what the expression names, wherever it stands
and leaving everything else (`Expr.atoms_subst`).  So the restricted equation mentions exactly the
images of what the equation mentioned (`Equation.runsAlong_restricted`), each renamed by one pair of
the subdomain after another.  Every pair puts a dimension in the place of one that it derives from,
so the image of a dimension derives from it (`DimTable.derives_replacement`).
-/

namespace LoopNest

/-! ## Expressions -/

/-- The atom with dimension `old` replaced by `new`. -/
def Atom.subst (old new : DimId) : Atom → Atom
  | .symbol name => .symbol name
  | .tensor name => .tensor name
  | .dim d => .dim (d.subst old new)
  | .index d => .index (d.subst old new)

namespace Expr

variable (old new : DimId)

theorem parts_subst (e : Expr) : (e.subst old new).parts = e.parts.map (subst old new) := by
  cases e with
  | access tensor is =>
      rw [subst, parts, parts, Index.substAll_eq_map, List.filterMap_map, List.map_filterMap]
      refine List.filterMap_congr fun i _ => ?_
      cases i <;> rfl
  | element tensor es | and es | call f es => rw [subst, parts, parts, substAll_eq_map]
  | neg e => rfl
  | binary op a b | compare op a b => rfl
  | int _ | float _ | symbol _ | dim _ => rfl

theorem ownAtoms_subst (e : Expr) :
    (e.subst old new).ownAtoms = e.ownAtoms.map (Atom.subst old new) := by
  cases e with
  | access tensor is =>
      have hdims := congrArg (List.map Atom.index) (Index.map_dim_substAll old new is)
      rw [List.map_map, List.map_map, List.map_map] at hdims
      rw [subst, ownAtoms, ownAtoms, List.map_cons, List.map_map]
      exact congrArg (Atom.tensor tensor :: ·) hdims
  | element tensor es | and es | call f es => rfl
  | neg e => rfl
  | binary op a b | compare op a b => rfl
  | int _ | float _ | symbol _ | dim _ => rfl

/-- The walk over an expression after a replacement visits what it visited before, replaced. -/
theorem nodes_subst (e : Expr) : (e.subst old new).nodes = e.nodes.map (subst old new) := by
  have ih : ∀ part ∈ e.parts, (part.subst old new).nodes = part.nodes.map (subst old new) :=
    fun part hp => nodes_subst part
  rw [nodes_eq_cons, nodes_eq_cons e, parts_subst, List.map_cons, List.flatMap_map,
    List.map_flatMap, List.flatMap_congr ih]
termination_by sizeOf e
decreasing_by exact sizeOf_lt_of_mem_parts hp

/-- What an expression names after a replacement is what it named before, renamed. -/
theorem atoms_subst (e : Expr) : (e.subst old new).atoms = e.atoms.map (Atom.subst old new) := by
  rw [atoms, atoms, nodes_subst, List.flatMap_map, List.map_flatMap]
  exact List.flatMap_congr fun f _ => ownAtoms_subst old new f

theorem mentions_subst {e : Expr} {d : DimId} :
    (e.subst old new).Mentions d ↔ ∃ c, e.Mentions c ∧ c.subst old new = d := by
  simp only [mentions_iff_atoms, atoms_subst, List.mem_map]
  constructor
  · rintro (⟨x, hx, h⟩ | ⟨x, hx, h⟩)
    · cases x with
      | dim c => exact ⟨c, Or.inl hx, Atom.dim.inj h⟩
      | _ => cases h
    · cases x with
      | index c => exact ⟨c, Or.inr hx, Atom.index.inj h⟩
      | _ => cases h
  · rintro ⟨c, hx | hx, rfl⟩
    · exact Or.inl ⟨_, hx, rfl⟩
    · exact Or.inr ⟨_, hx, rfl⟩

end Expr

/-! ## Equations -/

namespace Equation

variable {eq : Equation} {d : DimId}

theorem exists_and_or_iff {α : Type} {p q r : α → Prop} {f : α → Prop} :
    (∃ c, (p c ∨ q c ∨ r c) ∧ f c) ↔
      (∃ c, p c ∧ f c) ∨ (∃ c, q c ∧ f c) ∨ ∃ c, r c ∧ f c := by
  simp only [or_and_right, exists_or]

theorem mem_implicit_subst (old new : DimId) (eq : Equation) (d : DimId) :
    d ∈ (eq.subst old new).implicit ↔ ∃ c, c ∈ eq.implicit ∧ c.subst old new = d := by
  rw [subst, List.mem_map]

theorem runsAlong_subst (old new : DimId) (eq : Equation) (d : DimId) :
    (eq.subst old new).RunsAlong d ↔ ∃ c, eq.RunsAlong c ∧ c.subst old new = d := by
  have hlhs : d ∈ (eq.subst old new).lhs.indices.map Index.dim ↔
      ∃ c, c ∈ eq.lhs.indices.map Index.dim ∧ c.subst old new = d := by
    rw [subst, Access.subst, Index.map_dim_substAll, List.mem_map]
  unfold RunsAlong
  rw [exists_and_or_iff, hlhs, mem_implicit_subst, subst, Expr.mentions_subst]

/-- What stands for a dimension after replacements one after another. -/
def replacement (pairs : List (DimId × DimId)) (d : DimId) : DimId :=
  pairs.foldl (fun d pair => d.subst pair.1 pair.2) d

theorem foldl_subst {P : Equation → DimId → Prop}
    (hP : ∀ old new eq d, P (eq.subst old new) d ↔ ∃ c, P eq c ∧ c.subst old new = d) :
    ∀ (pairs : List (DimId × DimId)) (eq : Equation) (d : DimId),
      P (pairs.foldl (fun eq pair => eq.subst pair.1 pair.2) eq) d ↔
        ∃ c, P eq c ∧ replacement pairs c = d
  | [], eq, d => by simp [replacement]
  | pair :: pairs, eq, d => by
      rw [List.foldl_cons, foldl_subst hP pairs]
      simp only [hP, replacement, List.foldl_cons]
      constructor
      · rintro ⟨_, ⟨c, hc, rfl⟩, rfl⟩
        exact ⟨c, hc, rfl⟩
      · rintro ⟨c, hc, rfl⟩
        exact ⟨_, ⟨c, hc, rfl⟩, rfl⟩

theorem runsAlong_restricted :
    eq.restricted.RunsAlong d ↔ ∃ c, eq.RunsAlong c ∧ replacement eq.subdomain c = d :=
  foldl_subst runsAlong_subst eq.subdomain ⟨eq.lhs, eq.rhs, [], eq.implicit⟩ d

theorem mentions_lhs_restricted :
    eq.restricted.lhs.toExpr.Mentions d ↔
      ∃ c, eq.lhs.toExpr.Mentions c ∧ replacement eq.subdomain c = d :=
  foldl_subst (P := fun eq d => eq.lhs.toExpr.Mentions d)
    (fun old new eq _ => Expr.mentions_subst old new (e := eq.lhs.toExpr)) eq.subdomain
    ⟨eq.lhs, eq.rhs, [], eq.implicit⟩ d

/-- What stands for a dimension is the dimension itself, or a pair put it there. -/
theorem replacement_cases : ∀ (pairs : List (DimId × DimId)) (d : DimId),
    replacement pairs d = d ∨ ∃ pair ∈ pairs, replacement pairs d = pair.2
  | [], _ => Or.inl rfl
  | pair :: pairs, d => by
      rw [replacement, List.foldl_cons]
      rcases replacement_cases pairs (d.subst pair.1 pair.2) with h | ⟨q, hq, h⟩
      · rw [replacement] at h
        rw [h, DimId.subst]
        split
        · exact Or.inr ⟨pair, List.mem_cons_self, rfl⟩
        · exact Or.inl rfl
      · exact Or.inr ⟨q, List.mem_cons_of_mem _ hq, h⟩

end Equation

/-! ## Pairs of a subdomain -/

theorem DimTable.check_eq_ok {t : DimTable} {d : DimId} :
    t.check d = .ok () ↔ t.contains d = true := by
  unfold check
  split <;> simp [*]

theorem Equation.checkMapping_eq_ok {t : DimTable} {pair : DimId × DimId} :
    Equation.checkMapping t pair = .ok () ↔ t.contains pair.1 = true ∧ t.contains pair.2 = true ∧
      pair.1 ≠ pair.2 ∧ t.derives pair.2 pair.1 = true ∧
        (t.get pair.2).ridesOnParent = false := by
  have hfault : subdomainFault? t pair.1 pair.2 = none ↔ pair.1 ≠ pair.2 ∧
      t.derives pair.2 pair.1 = true ∧ (t.get pair.2).ridesOnParent = false := by
    unfold subdomainFault?
    split
    · simp [*]
    · split
      · simp_all
      · split <;> simp_all
  unfold checkMapping
  rw [← hfault, ← DimTable.check_eq_ok, ← DimTable.check_eq_ok]
  constructor
  · intro h
    obtain ⟨_, h₁, h⟩ := bind_eq_ok.mp h
    obtain ⟨_, h₂, h⟩ := bind_eq_ok.mp h
    cases hf : subdomainFault? t pair.1 pair.2 with
    | none => exact ⟨h₁, h₂, rfl⟩
    | some fault =>
        rw [hf] at h
        cases h
  · rintro ⟨h₁, h₂, h⟩
    refine bind_eq_ok.mpr ⟨_, h₁, bind_eq_ok.mpr ⟨_, h₂, ?_⟩⟩
    rw [h]
    rfl

/-- What stands for a dimension derives from it, if each pair maps a dimension to one that derives
from it. -/
theorem DimTable.derives_replacement {t : DimTable} : ∀ {pairs : List (DimId × DimId)},
    (∀ pair ∈ pairs, t.derives pair.2 pair.1 = true) → ∀ d,
      t.derives (Equation.replacement pairs d) d = true
  | [], _, d => t.derives_self d
  | pair :: pairs, h, d => by
      have hrest := derives_replacement (fun q hq => h q (List.mem_cons_of_mem _ hq))
        (d.subst pair.1 pair.2)
      rw [Equation.replacement, List.foldl_cons]
      refine derives_trans hrest ?_
      rw [DimId.subst]
      split
      · rename_i hd
        exact hd ▸ h pair List.mem_cons_self
      · exact t.derives_self d

end LoopNest
