import LoopNest.Proofs.Narrowing
import LoopNest.Proofs.Substitution
/-!
# The order of a subdomain's pairs

The pairs of a subdomain are carried out one after another, each on what the earlier ones have left.
All of them together rename each dimension to what stands for it in the end
(`Equation.restricted_eq`), so two orders make one equation if and only if they agree on the
dimensions that the equation uses (`Equation.restricted_eq_iff`).

They do, unless a dimension that the equation uses is replaced by one that is to be replaced itself
(`Equation.Chained`).  Then the order tells whether the second pair comes in time
(`Equation.restrict_perm_iff`).
-/

namespace LoopNest

/-! ## Renaming all dimensions at once -/

mutual

/-- The expression with each dimension `d` renamed to `f d`. -/
def Expr.mapDims (f : DimId → DimId) : Expr → Expr
  | .int v => .int v
  | .float v => .float v
  | .symbol n => .symbol n
  | .dim d => .dim (f d)
  | .access t is => .access t (Index.mapDimsAll f is)
  | .element t es => .element t (Expr.mapDimsAll f es)
  | .neg e => .neg (e.mapDims f)
  | .binary o a b => .binary o (a.mapDims f) (b.mapDims f)
  | .compare o a b => .compare o (a.mapDims f) (b.mapDims f)
  | .and es => .and (Expr.mapDimsAll f es)
  | .call g es => .call g (Expr.mapDimsAll f es)

def Index.mapDims (f : DimId → DimId) : Index → Index
  | .fixed d k => .fixed (f d) k
  | .symbolic d e => .symbolic (f d) (e.mapDims f)

def Expr.mapDimsAll (f : DimId → DimId) : List Expr → List Expr
  | [] => []
  | e :: es => e.mapDims f :: Expr.mapDimsAll f es

def Index.mapDimsAll (f : DimId → DimId) : List Index → List Index
  | [] => []
  | i :: is => i.mapDims f :: Index.mapDimsAll f is

end

section Parts

variable (f : DimId → DimId)

theorem Expr.mapDimsAll_eq_map (es : List Expr) : mapDimsAll f es = es.map (mapDims f) := by
  induction es with
  | nil => rfl
  | cons e es ih => rw [mapDimsAll, ih, List.map_cons]

theorem Index.mapDimsAll_eq_map (is : List Index) : mapDimsAll f is = is.map (mapDims f) := by
  induction is with
  | nil => rfl
  | cons i is ih => rw [mapDimsAll, ih, List.map_cons]

theorem Expr.parts_mapDims (e : Expr) : (e.mapDims f).parts = e.parts.map (mapDims f) := by
  cases e with
  | access tensor is =>
      rw [mapDims, parts, parts, Index.mapDimsAll_eq_map, List.filterMap_map, List.map_filterMap]
      refine List.filterMap_congr fun i _ => ?_
      cases i <;> rfl
  | element tensor es | and es | call g es => rw [mapDims, parts, parts, mapDimsAll_eq_map]
  | neg e => rfl
  | binary op a b | compare op a b => rfl
  | int _ | float _ | symbol _ | dim _ => rfl

theorem Expr.exists_of_occurs_mapDims {g : Expr} (e : Expr) (h : Occurs g (e.mapDims f)) :
    ∃ e', Occurs e' e ∧ e'.mapDims f = g := by
  rcases h with _ | ⟨hp, h⟩
  · exact ⟨e, .here, rfl⟩
  · rw [parts_mapDims] at hp
    obtain ⟨part, hpart, rfl⟩ := List.mem_map.mp hp
    obtain ⟨e', he', heq⟩ := exists_of_occurs_mapDims part h
    exact ⟨e', .inside hpart he', heq⟩
termination_by sizeOf e
decreasing_by exact sizeOf_lt_of_mem_parts hpart

end Parts

/-! A renaming that changes nothing. -/

mutual

theorem Expr.mapDims_id : ∀ e : Expr, e.mapDims id = e
  | .int _ | .float _ | .symbol _ | .dim _ => rfl
  | .access t is => congrArg (Expr.access t) (Index.mapDimsAll_id is)
  | .element t es => congrArg (Expr.element t) (Expr.mapDimsAll_id es)
  | .neg e => congrArg Expr.neg e.mapDims_id
  | .binary o a b => congrArg₂ (Expr.binary o) a.mapDims_id b.mapDims_id
  | .compare o a b => congrArg₂ (Expr.compare o) a.mapDims_id b.mapDims_id
  | .and es => congrArg Expr.and (Expr.mapDimsAll_id es)
  | .call f es => congrArg (Expr.call f) (Expr.mapDimsAll_id es)

theorem Index.mapDims_id : ∀ i : Index, i.mapDims id = i
  | .fixed _ _ => rfl
  | .symbolic d e => congrArg (Index.symbolic d) e.mapDims_id

theorem Expr.mapDimsAll_id : ∀ es : List Expr, Expr.mapDimsAll id es = es
  | [] => rfl
  | e :: es => congrArg₂ List.cons e.mapDims_id (Expr.mapDimsAll_id es)

theorem Index.mapDimsAll_id : ∀ is : List Index, Index.mapDimsAll id is = is
  | [] => rfl
  | i :: is => congrArg₂ List.cons i.mapDims_id (Index.mapDimsAll_id is)

end

/-! A renaming after a replacement. -/

section Subst

variable (f : DimId → DimId) (old new : DimId)

mutual

theorem Expr.mapDims_subst : ∀ e : Expr,
    (e.subst old new).mapDims f = e.mapDims fun d => f (d.subst old new)
  | .int _ | .float _ | .symbol _ | .dim _ => rfl
  | .access t is => congrArg (Expr.access t) (Index.mapDimsAll_substAll is)
  | .element t es => congrArg (Expr.element t) (Expr.mapDimsAll_substAll es)
  | .neg e => congrArg Expr.neg e.mapDims_subst
  | .binary o a b => congrArg₂ (Expr.binary o) a.mapDims_subst b.mapDims_subst
  | .compare o a b => congrArg₂ (Expr.compare o) a.mapDims_subst b.mapDims_subst
  | .and es => congrArg Expr.and (Expr.mapDimsAll_substAll es)
  | .call g es => congrArg (Expr.call g) (Expr.mapDimsAll_substAll es)

theorem Index.mapDims_subst : ∀ i : Index,
    (i.subst old new).mapDims f = i.mapDims fun d => f (d.subst old new)
  | .fixed _ _ => rfl
  | .symbolic d e => congrArg (Index.symbolic (f (d.subst old new))) e.mapDims_subst

theorem Expr.mapDimsAll_substAll : ∀ es : List Expr,
    Expr.mapDimsAll f (Expr.substAll old new es) =
      Expr.mapDimsAll (fun d => f (d.subst old new)) es
  | [] => rfl
  | e :: es => congrArg₂ List.cons e.mapDims_subst (Expr.mapDimsAll_substAll es)

theorem Index.mapDimsAll_substAll : ∀ is : List Index,
    Index.mapDimsAll f (Index.substAll old new is) =
      Index.mapDimsAll (fun d => f (d.subst old new)) is
  | [] => rfl
  | i :: is => congrArg₂ List.cons i.mapDims_subst (Index.mapDimsAll_substAll is)

end

end Subst

/-- The atom with each dimension `d` renamed to `f d`. -/
def Atom.mapDims (f : DimId → DimId) : Atom → Atom
  | .symbol name => .symbol name
  | .tensor name => .tensor name
  | .dim d => .dim (f d)
  | .index d => .index (f d)

/-! Two renamings agree on an expression if and only if they do on what it names. -/

section Agreement

variable {f g : DimId → DimId}

mutual

theorem Expr.mapDims_eq_iff : ∀ e : Expr, e.mapDims f = e.mapDims g ↔
    ∀ x ∈ e.atoms, x.mapDims f = x.mapDims g
  | .int _ | .float _ => by simp [Expr.mapDims]
  | .symbol _ | .dim _ => by simp [Expr.mapDims, Atom.mapDims]
  | .access tensor is => by
      rw [Expr.mapDims, Expr.mapDims, Expr.access.injEq, Index.mapDimsAll_eq_iff is,
        Expr.atoms_access, List.forall_mem_cons, List.forall_mem_append]
      exact and_congr_left fun _ => iff_of_true rfl rfl
  | .element tensor es => by
      rw [Expr.mapDims, Expr.mapDims, Expr.element.injEq, Expr.mapDimsAll_eq_iff es,
        Expr.atoms_element, List.forall_mem_cons]
      exact and_congr_left fun _ => iff_of_true rfl rfl
  | .neg e => by
      rw [Expr.mapDims, Expr.mapDims, Expr.neg.injEq, e.mapDims_eq_iff, Expr.atoms_neg]
  | .binary o a b => by
      rw [Expr.mapDims, Expr.mapDims, Expr.binary.injEq, a.mapDims_eq_iff, b.mapDims_eq_iff,
        Expr.atoms_binary, List.forall_mem_append, and_iff_right rfl]
  | .compare o a b => by
      rw [Expr.mapDims, Expr.mapDims, Expr.compare.injEq, a.mapDims_eq_iff, b.mapDims_eq_iff,
        Expr.atoms_compare, List.forall_mem_append, and_iff_right rfl]
  | .and es => by
      rw [Expr.mapDims, Expr.mapDims, Expr.and.injEq, Expr.mapDimsAll_eq_iff es, Expr.atoms_and]
  | .call h es => by
      rw [Expr.mapDims, Expr.mapDims, Expr.call.injEq, Expr.mapDimsAll_eq_iff es,
        Expr.atoms_call, and_iff_right rfl]

theorem Index.mapDims_eq_iff : ∀ i : Index, i.mapDims f = i.mapDims g ↔
    f i.dim = g i.dim ∧ ∀ x ∈ i.symbolic?.toList.flatMap Expr.atoms, x.mapDims f = x.mapDims g
  | .fixed d k => by simp [Index.mapDims, Index.dim, Index.symbolic?]
  | .symbolic d e => by
      rw [Index.mapDims, Index.mapDims, Index.symbolic.injEq, e.mapDims_eq_iff]
      simp [Index.dim, Index.symbolic?]

theorem Expr.mapDimsAll_eq_iff : ∀ es : List Expr,
    Expr.mapDimsAll f es = Expr.mapDimsAll g es ↔
      ∀ x ∈ es.flatMap Expr.atoms, x.mapDims f = x.mapDims g
  | [] => by simp [Expr.mapDimsAll]
  | e :: es => by
      rw [Expr.mapDimsAll, Expr.mapDimsAll, List.cons.injEq, e.mapDims_eq_iff,
        Expr.mapDimsAll_eq_iff es, List.flatMap_cons, List.forall_mem_append]

theorem Index.mapDimsAll_eq_iff : ∀ is : List Index,
    Index.mapDimsAll f is = Index.mapDimsAll g is ↔
      (∀ x ∈ is.map fun i => Atom.index i.dim, x.mapDims f = x.mapDims g) ∧
        ∀ x ∈ (is.filterMap Index.symbolic?).flatMap Expr.atoms, x.mapDims f = x.mapDims g
  | [] => by simp [Index.mapDimsAll]
  | i :: is => by
      rw [Index.mapDimsAll, Index.mapDimsAll, List.cons.injEq, i.mapDims_eq_iff,
        Index.mapDimsAll_eq_iff is, Index.filterMap_symbolic?_cons, List.map_cons,
        List.forall_mem_cons, List.flatMap_append, List.forall_mem_append, and_and_and_comm]
      exact and_congr_left fun _ => and_congr_left fun _ => Atom.index.injEq _ _ ▸ Iff.rfl

end

end Agreement

theorem Expr.mapDims_eq_mapDims_iff {f g : DimId → DimId} {e : Expr} :
    e.mapDims f = e.mapDims g ↔ ∀ d, e.Mentions d → f d = g d := by
  rw [Expr.mapDims_eq_iff]
  constructor
  · intro h d hd
    rcases Expr.mentions_iff_atoms.mp hd with hd | hd
    · exact Atom.dim.inj (h _ hd)
    · exact Atom.index.inj (h _ hd)
  · intro h x hx
    cases x with
    | symbol name | tensor name => rfl
    | dim d => exact congrArg Atom.dim (h d (Expr.mentions_iff_atoms.mpr (Or.inl hx)))
    | index d => exact congrArg Atom.index (h d (Expr.mentions_iff_atoms.mpr (Or.inr hx)))

/-! ## Replacements one after another -/

namespace Equation

/-- The equation with each dimension `d` renamed to `f d`, and nothing left to replace. -/
def mapDims (f : DimId → DimId) (eq : Equation) : Equation where
  lhs := ⟨eq.lhs.tensor, Index.mapDimsAll f eq.lhs.indices⟩
  rhs := eq.rhs.mapDims f
  subdomain := []
  implicit := eq.implicit.map f

theorem mapDims_eq_iff {f g : DimId → DimId} {eq : Equation} :
    eq.mapDims f = eq.mapDims g ↔ ∀ d, eq.Mentions d → f d = g d := by
  have hlhs : (eq.mapDims f).lhs = (eq.mapDims g).lhs ↔
      ∀ d, eq.lhs.toExpr.Mentions d → f d = g d := by
    rw [← Expr.mapDims_eq_mapDims_iff, Access.toExpr, Expr.mapDims, Expr.mapDims,
      Expr.access.injEq]
    exact Access.mk.injEq _ _ _ _ ▸ Iff.rfl
  have himplicit : (eq.mapDims f).implicit = (eq.mapDims g).implicit ↔
      ∀ d ∈ eq.implicit, f d = g d := List.map_inj_left
  constructor
  · rintro h d (hd | hd | hd)
    · exact hlhs.mp (congrArg lhs h) d hd
    · exact Expr.mapDims_eq_mapDims_iff.mp (congrArg rhs h) d hd
    · exact himplicit.mp (congrArg implicit h) d hd
  · intro h
    have hl := hlhs.mpr fun d hd => h d (Or.inl hd)
    have hr : (eq.mapDims f).rhs = (eq.mapDims g).rhs :=
      Expr.mapDims_eq_mapDims_iff.mpr fun d hd => h d (Or.inr (Or.inl hd))
    have hi := himplicit.mpr fun d hd => h d (Or.inr (Or.inr hd))
    exact (Equation.mk.injEq ..).mpr ⟨hl, hr, rfl, hi⟩

/-- The replacements together rename each dimension to what stands for it in the end. -/
theorem restricted_eq (eq : Equation) : eq.restricted = eq.mapDims (replacement eq.subdomain) := by
  have hfold : ∀ (pairs : List (DimId × DimId)) (lhs : Access) (rhs : Expr)
      (implicit : List DimId),
      pairs.foldl (fun eq pair => eq.subst pair.1 pair.2) ⟨lhs, rhs, [], implicit⟩ =
        mapDims (replacement pairs) ⟨lhs, rhs, [], implicit⟩ := by
    intro pairs
    induction pairs with
    | nil =>
        intro lhs rhs implicit
        have hid : replacement [] = id := rfl
        rw [hid, mapDims, Index.mapDimsAll_id, Expr.mapDims_id, List.map_id, List.foldl_nil]
    | cons pair pairs ih =>
        intro lhs rhs implicit
        have hsubst : subst pair.1 pair.2 ⟨lhs, rhs, [], implicit⟩ =
            ⟨lhs.subst pair.1 pair.2, rhs.subst pair.1 pair.2, [],
              implicit.map fun d => d.subst pair.1 pair.2⟩ := rfl
        rw [List.foldl_cons, hsubst, ih, mapDims, mapDims, Access.subst,
          Index.mapDimsAll_substAll, Expr.mapDims_subst, List.map_map]
        rfl
  exact hfold eq.subdomain eq.lhs eq.rhs eq.implicit

/-- Other pairs make the same equation if and only if they agree on the dimensions mentioned. -/
theorem restricted_eq_iff {eq : Equation} {pairs : List (DimId × DimId)} :
    { eq with subdomain := pairs }.restricted = eq.restricted ↔
      ∀ d, eq.Mentions d → replacement pairs d = replacement eq.subdomain d := by
  rw [restricted_eq, restricted_eq eq, ← mapDims_eq_iff]
  rfl

/-! ## Chains of replacements -/

section Replacement

variable {pairs : List (DimId × DimId)} {b d : DimId}

theorem replacement_of_not_mem (h : d ∉ pairs.map Prod.fst) : replacement pairs d = d := by
  induction pairs with
  | nil => rfl
  | cons pair pairs ih =>
      rw [List.map_cons, List.mem_cons, not_or] at h
      have hpair : d.subst pair.1 pair.2 = d := if_neg h.1
      rw [replacement, List.foldl_cons, hpair]
      exact ih h.2

theorem replacement_of_mem (hdistinct : (pairs.map Prod.fst).Nodup) (h : (d, b) ∈ pairs)
    (hb : b ∉ pairs.map Prod.fst) : replacement pairs d = b := by
  induction pairs with
  | nil => cases h
  | cons pair pairs ih =>
      rw [List.map_cons, List.nodup_cons] at hdistinct
      rw [List.map_cons, List.mem_cons, not_or] at hb
      rw [replacement, List.foldl_cons]
      rcases List.mem_cons.mp h with rfl | h
      · rw [DimId.subst, if_pos rfl]
        exact replacement_of_not_mem hb.2
      · have hother : d ≠ pair.1 := by
          rintro rfl
          exact hdistinct.1 (List.mem_map.mpr ⟨_, h, rfl⟩)
        rw [DimId.subst, if_neg hother]
        exact ih hdistinct.2 h hb.2

end Replacement

/-- A dimension that the equation mentions is replaced by one that is to be replaced itself. -/
def Chained (eq : Equation) : Prop :=
  ∃ d b c, eq.Mentions d ∧ (d, b) ∈ eq.subdomain ∧ (b, c) ∈ eq.subdomain

instance (eq : Equation) (d : DimId) : Decidable (eq.Mentions d) :=
  inferInstanceAs (Decidable (eq.lhs.toExpr.Mentions d ∨ eq.rhs.Mentions d ∨ d ∈ eq.implicit))

instance (eq : Equation) : Decidable eq.Chained :=
  decidable_of_iff (∃ p ∈ eq.subdomain, eq.Mentions p.1 ∧ ∃ q ∈ eq.subdomain, p.2 = q.1) <| by
    constructor
    · rintro ⟨⟨d, b⟩, hb, hd, ⟨_, c⟩, hc, rfl⟩
      exact ⟨d, b, c, hd, hb, hc⟩
    · rintro ⟨d, b, c, hd, hb, hc⟩
      exact ⟨(d, b), hb, hd, (b, c), hc, rfl⟩

variable {t : DimTable} {eq : Equation} {pairs : List (DimId × DimId)}

theorem replacement_eq_of_perm (hdistinct : (eq.subdomain.map Prod.fst).Nodup)
    (hchain : ¬ eq.Chained) (hperm : pairs.Perm eq.subdomain) {d : DimId} (hd : eq.Mentions d) :
    replacement pairs d = replacement eq.subdomain d := by
  have hfirsts : (pairs.map Prod.fst).Perm (eq.subdomain.map Prod.fst) := hperm.map _
  by_cases hmem : d ∈ eq.subdomain.map Prod.fst
  · obtain ⟨⟨_, b⟩, hb, rfl⟩ := List.mem_map.mp hmem
    have hlast : b ∉ eq.subdomain.map Prod.fst := by
      intro hmem
      obtain ⟨⟨_, c⟩, hc, rfl⟩ := List.mem_map.mp hmem
      exact hchain ⟨_, _, c, hd, hb, hc⟩
    rw [replacement_of_mem hdistinct hb hlast]
    exact replacement_of_mem (hfirsts.nodup_iff.mpr hdistinct) (hperm.mem_iff.mpr hb)
      fun h => hlast (hfirsts.mem_iff.mp h)
  · rw [replacement_of_not_mem hmem]
    exact replacement_of_not_mem fun h => hmem (hfirsts.mem_iff.mp h)

theorem checkMappings_of_perm (hcheck : eq.checkMappings t = .ok ())
    (hperm : pairs.Perm eq.subdomain) :
    { eq with subdomain := pairs }.checkMappings t = .ok () :=
  forM_eq_ok.mpr fun pair hp => forM_eq_ok.mp hcheck pair (hperm.mem_iff.mp hp)

/-- Of a chain, either of the two pairs may come first, and what stands for the dimension in the end
is not the same. -/
theorem exists_replacement_ne (hcheck : eq.checkMappings t = .ok ())
    (hdistinct : (eq.subdomain.map Prod.fst).Nodup) {b c d : DimId} (hb : (d, b) ∈ eq.subdomain)
    (hc : (b, c) ∈ eq.subdomain) :
    ∃ late early, late.Perm eq.subdomain ∧ early.Perm eq.subdomain ∧
      replacement late d = b ∧ replacement early d ≠ b := by
  have hok := forM_eq_ok.mp hcheck
  obtain ⟨-, -, hne, -, -⟩ := checkMapping_eq_ok.mp (hok _ hb)
  obtain ⟨-, -, hbc, hderives, -⟩ := checkMapping_eq_ok.mp (hok _ hc)
  obtain ⟨rest, hrest⟩ : ∃ rest, eq.subdomain.Perm ((d, b) :: (b, c) :: rest) := by
    have hmem : (b, c) ∈ eq.subdomain.erase (d, b) :=
      (List.mem_erase_of_ne fun h => hne (congrArg Prod.fst h).symm).mpr hc
    exact ⟨_, (List.perm_cons_erase hb).trans ((List.perm_cons_erase hmem).cons _)⟩
  have hfirsts : (d :: b :: rest.map Prod.fst).Nodup := (hrest.map Prod.fst).nodup hdistinct
  refine ⟨(b, c) :: (d, b) :: rest, (d, b) :: (b, c) :: rest,
    (List.Perm.swap ..).trans hrest.symm, hrest.symm, ?_, ?_⟩
  · have hsteps : replacement ((b, c) :: (d, b) :: rest) d = replacement rest b := by
      simp [replacement, DimId.subst, hne]
    rw [hsteps]
    exact replacement_of_not_mem (List.nodup_cons.mp hfirsts.of_cons).1
  · have hsteps : replacement ((d, b) :: (b, c) :: rest) d = replacement rest c := by
      simp [replacement, DimId.subst]
    have hlast : t.derives (replacement rest c) c = true := by
      refine DimTable.derives_replacement (fun pair hp => ?_) c
      have hmem := hrest.mem_iff.mpr (List.mem_cons_of_mem _ (List.mem_cons_of_mem _ hp))
      exact (checkMapping_eq_ok.mp (hok pair hmem)).2.2.2.1
    intro heq
    rw [← hsteps, heq] at hlast
    exact hbc (DimTable.derives_antisymm hlast hderives)

/-- The order of the pairs shows if and only if they form a chain. -/
theorem restrict_perm_iff (hcheck : eq.checkMappings t = .ok ())
    (hdistinct : (eq.subdomain.map Prod.fst).Nodup) :
    (∀ pairs, pairs.Perm eq.subdomain →
      { eq with subdomain := pairs }.restrict t = eq.restrict t) ↔ ¬ eq.Chained := by
  have hrestrict : ∀ pairs, pairs.Perm eq.subdomain →
      ({ eq with subdomain := pairs }.restrict t = eq.restrict t ↔
        ∀ d, eq.Mentions d → replacement pairs d = replacement eq.subdomain d) := by
    intro pairs hperm
    rw [restrict, restrict, checkMappings_of_perm hcheck hperm, hcheck, ← restricted_eq_iff]
    exact ⟨Except.ok.inj, congrArg Except.ok⟩
  constructor
  · rintro h ⟨d, b, c, hd, hb, hc⟩
    obtain ⟨late, early, hlate, hearly, heq, hne⟩ :=
      exists_replacement_ne hcheck hdistinct hb hc
    refine hne ?_
    rw [(hrestrict early hearly).mp (h early hearly) d hd,
      ← (hrestrict late hlate).mp (h late hlate) d hd, heq]
  · intro hchain pairs hperm
    exact (hrestrict pairs hperm).mpr fun d hd =>
      replacement_eq_of_perm hdistinct hchain hperm hd

end Equation

end LoopNest
