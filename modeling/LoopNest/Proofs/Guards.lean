import LoopNest.Guard
import LoopNest.Proofs.Evaluation
/-!
# What guards decide

The guards of a cluster together stand for its conditions.  `Scope.Meets` says what it is for a
point to meet a condition, in terms of the program: the stride divides the value of the parent, or
the predicate holds.  A point at which every guard holds meets every condition
(`Guard.meets_of_ofCluster`).  At a point that meets every condition a guard may have no value, as
when a scalar is not bound, but it is not decided against the point
(`Guard.ne_false_of_ofCluster`); a run that succeeds makes that enough.
-/

namespace LoopNest

/-- The point meets the condition of a conditional dimension. -/
def Scope.Meets (s : Scope) (n : Nest) (c : DimId) : Prop :=
  match (n.dims.get c).kind with
  | .conditional parent (.stride _) =>
    ∃ v f, s.int (n.expr (.dim parent)) = .ok v ∧
      s.bindings.find? (n.dims.get c).factorName = some f ∧ f ≠ 0 ∧ v % f = 0
  | .conditional _ (.predicate e) => s.truth (n.expr e) = .ok true
  | _ => True

theorem Scope.meets_of_condition?_eq_none {s : Scope} {n : Nest} {c : DimId}
    (h : (n.dims.get c).condition? = none) : s.Meets n c := by
  rw [Dimension.condition?] at h
  cases hk : (n.dims.get c).kind with
  | conditional _ _ =>
      rw [hk] at h
      cases h
  | _ =>
      simp only [Scope.Meets, hk]

theorem Expr.fold_symbol {op : BinOp} (hadd : op ≠ .add) (hmul : op ≠ .mul) (e : Expr)
    (name : String) : Expr.fold op e (.symbol name) = .binary op e (.symbol name) := by
  cases op <;> first
    | contradiction
    | cases e <;> rfl

namespace Guard

variable {p : Program} {n : Nest} {s : Scope}

/-! ## Depths -/

/-- A dimension lies inside the first loop over its root, and that is where its depth ends. -/
theorem depthOf?_eq_some {d : DimId} {depth : Nat} (h : n.depthOf? d = some depth) :
    (∃ i l, depth = i + 1 ∧ n.loops[i]? = some l ∧ n.dims.root l = n.dims.root d) ∧
      ∀ k, depth ≤ k ↔ ∃ l ∈ n.loops.take k, n.dims.root l = n.dims.root d := by
  obtain ⟨i, hi, rfl⟩ := Option.map_eq_some_iff.mp h
  obtain ⟨hlt, hroot, hfirst⟩ := List.findIdx?_eq_some_iff_getElem.mp hi
  replace hroot : n.dims.root n.loops[i] = n.dims.root d := by simpa using hroot
  refine ⟨⟨i, _, rfl, List.getElem?_eq_getElem hlt, hroot⟩, fun k => ⟨fun hk => ?_, ?_⟩⟩
  · exact ⟨_, List.mem_take_iff_getElem.mpr ⟨i, by omega, rfl⟩, hroot⟩
  · rintro ⟨l, hl, hd⟩
    obtain ⟨j, hj, rfl⟩ := List.mem_take_iff_getElem.mp hl
    refine Nat.le_of_not_lt fun hk => ?_
    exact absurd (beq_iff_eq.mpr hd) (by simpa using hfirst j (by omega))

theorem depthOf?_le {d : DimId} {depth : Nat} (h : n.depthOf? d = some depth) :
    depth ≤ n.loops.length := by
  obtain ⟨⟨i, l, rfl, hl, _⟩, _⟩ := depthOf?_eq_some h
  exact (List.getElem?_eq_some_iff.mp hl).1

theorem foldl_max_le_iff {bound : Nat} : ∀ {xs : List Nat} {least : Nat},
    xs.foldl max least ≤ bound ↔ least ≤ bound ∧ ∀ x ∈ xs, x ≤ bound
  | [], _ => by simp
  | x :: xs, least => by
      rw [List.foldl_cons, foldl_max_le_iff, Nat.max_le, List.forall_mem_cons, and_assoc]

theorem depthOfAll_le_iff {least bound : Nat} {ds : List DimId} :
    depthOfAll n least ds ≤ bound ↔
      least ≤ bound ∧ ∀ d ∈ ds, ∀ depth ∈ n.depthOf? d, depth ≤ bound := by
  rw [depthOfAll, foldl_max_le_iff]
  refine and_congr_right fun _ => ⟨fun h d hd depth hdepth => ?_, fun h depth hdepth => ?_⟩
  · exact h depth (List.mem_filterMap.mpr ⟨d, hd, hdepth⟩)
  · obtain ⟨d, hd, hdepth⟩ := List.mem_filterMap.mp hdepth
    exact h d hd depth hdepth

/-! ## One condition -/

theorem mod_apply_eq_ok {v f r : Int} (h : BinOp.mod.apply v f = .ok r) : f ≠ 0 ∧ r = v % f := by
  unfold BinOp.apply at h
  simp only at h
  split at h
  · cases h
  · rename_i hf
    have hr := Scope.fitting_eq_ok.mp h
    rw [Word.mod?] at hr
    split at hr
    · cases hr
    · cases hr
      exact ⟨hf, rfl⟩

theorem truth_onStride {parent : DimId} {factor : String} {b : Bool}
    (h : s.truth (onStride n parent factor) = .ok b) :
    ∃ v f, s.int (n.expr (.dim parent)) = .ok v ∧ s.bindings.find? factor = some f ∧ f ≠ 0 ∧
      b = decide (v % f = 0) := by
  obtain ⟨x, hx, hb⟩ := bind_eq_ok.mp h
  obtain ⟨r, hr, hx⟩ := bind_eq_ok.mp hx
  obtain ⟨z, hz, hx⟩ := bind_eq_ok.mp hx
  rw [Expr.fold_symbol (by simp) (by simp)] at hr
  obtain ⟨v, hv, hr⟩ := bind_eq_ok.mp hr
  obtain ⟨f, hf, hr⟩ := bind_eq_ok.mp hr
  obtain ⟨hf0, rfl⟩ := mod_apply_eq_ok hr
  refine ⟨v, f, hv, Scope.known_eq_ok.mp hf, hf0, ?_⟩
  cases hz
  cases hx
  cases hb
  by_cases h0 : v % f = 0 <;> simp [ofTruth, CmpOp.holds, h0]

theorem ofCondition_eq_ok {loops : List DimId} {c : DimId} {g : Guard}
    (h : ofCondition p ⟨p.dims, loops⟩ c = .ok g) :
    g.level ≤ loops.length ∧
      ((∃ parent factor, (p.dims.get c).kind = .conditional parent (.stride factor) ∧
          g.predicate = onStride ⟨p.dims, loops⟩ parent (p.dims.get c).factorName) ∨
        (∃ parent e, (p.dims.get c).kind = .conditional parent (.predicate e) ∧
          g.predicate = Nest.expr ⟨p.dims, loops⟩ e) ∨
        ((p.dims.get c).condition? = none ∧ g.predicate = .and [])) := by
  unfold ofCondition at h
  rw [Dimension.condition?]
  simp only at h
  cases hd : Nest.depthOf? ⟨p.dims, loops⟩ c with
  | none =>
      simp only [hd] at h
      cases h
  | some depth =>
      have hle : depth ≤ loops.length := depthOf?_le hd
      cases hk : (p.dims.get c).kind with
      | conditional parent condition =>
          cases condition with
          | stride factor =>
              simp only [hd, hk] at h
              cases h
              exact ⟨hle, Or.inl ⟨parent, factor, rfl, rfl⟩⟩
          | predicate e =>
              simp only [hd, hk] at h
              split at h
              · cases h
              · cases h
                exact ⟨depthOfAll_le_iff.mpr ⟨hle, fun d _ _ hd => depthOf?_le hd⟩,
                  Or.inr (Or.inl ⟨parent, e, rfl, rfl⟩)⟩
      | _ =>
          simp only [hd, hk] at h
          cases h
          exact ⟨hle, Or.inr (Or.inr ⟨rfl, rfl⟩)⟩

/-- A point at which the guard of a condition holds meets the condition. -/
theorem meets_of_ofCondition {loops : List DimId} {c : DimId} {g : Guard}
    (h : ofCondition p ⟨p.dims, loops⟩ c = .ok g) (hs : s.truth g.predicate = .ok true) :
    s.Meets ⟨p.dims, loops⟩ c := by
  rcases (ofCondition_eq_ok h).2 with
    ⟨parent, factor, hk, hg⟩ | ⟨parent, e, hk, hg⟩ | ⟨hk, _⟩
  · rw [hg] at hs
    obtain ⟨v, f, hv, hf, hf0, hd⟩ := truth_onStride hs
    simp only [Scope.Meets, hk]
    exact ⟨v, f, hv, hf, hf0, of_decide_eq_true hd.symm⟩
  · rw [hg] at hs
    simp only [Scope.Meets, hk]
    exact hs
  · exact Scope.meets_of_condition?_eq_none hk

/-- At a point that meets a condition, the guard of the condition is not decided against it. -/
theorem ne_false_of_ofCondition {loops : List DimId} {c : DimId} {g : Guard}
    (h : ofCondition p ⟨p.dims, loops⟩ c = .ok g) (hm : s.Meets ⟨p.dims, loops⟩ c) :
    s.truth g.predicate ≠ .ok false := by
  intro hs
  rcases (ofCondition_eq_ok h).2 with
    ⟨parent, factor, hk, hg⟩ | ⟨parent, e, hk, hg⟩ | ⟨_, hg⟩
  · rw [hg] at hs
    obtain ⟨v, f, hv, hf, _, hd⟩ := truth_onStride hs
    simp only [Scope.Meets, hk] at hm
    obtain ⟨v', f', hv', hf', _, hdvd⟩ := hm
    cases hv.symm.trans hv'
    cases hf.symm.trans hf'
    exact of_decide_eq_false hd.symm hdvd
  · simp only [Scope.Meets, hk] at hm
    rw [hg, hm] at hs
    cases hs
  · rw [hg, Scope.truth_and] at hs
    cases hs

/-! ## All conditions of a cluster -/

theorem mem_combine {gs : List Guard} {g : Guard} :
    g ∈ combine gs ↔ ∃ a ∈ gs, g = conjunction a.level (gs.filter fun b => b.level == a.level) := by
  rw [combine]
  rw [List.mem_map]
  constructor
  · rintro ⟨level, hl, rfl⟩
    obtain ⟨a, ha, rfl⟩ := List.mem_map.mp (SortedSet.mem_ofList.mp hl)
    exact ⟨a, ha, rfl⟩
  · rintro ⟨a, ha, rfl⟩
    exact ⟨a.level, SortedSet.mem_ofList.mpr (List.mem_map_of_mem ha), rfl⟩

theorem truth_conjunction (s : Scope) (level : Nat) (gs : List Guard) :
    s.truth (conjunction level gs).predicate = s.allHold (gs.map predicate) :=
  Scope.truth_all s _

variable {c : Cluster} {gs : List Guard}

theorem level_le_of_ofCluster (h : ofCluster p c = .ok gs) {g : Guard} (hg : g ∈ gs) :
    g.level ≤ c.signature.loops.length := by
  obtain ⟨own, hown, h⟩ := bind_eq_ok.mp h
  cases h
  obtain ⟨a, ha, rfl⟩ := mem_combine.mp hg
  obtain ⟨d, _, hd⟩ := exists_of_forall₂_right (mapM_eq_ok.mp hown) ha
  exact (ofCondition_eq_ok hd).1

/-- A point at which every guard of a cluster holds meets the cluster's conditions. -/
theorem meets_of_ofCluster (h : ofCluster p c = .ok gs)
    (hs : ∀ g ∈ gs, s.truth g.predicate = .ok true) :
    ∀ d ∈ c.signature.conditions, s.Meets ⟨p.dims, c.signature.loops⟩ d := by
  intro d hd
  obtain ⟨own, hown, h⟩ := bind_eq_ok.mp h
  cases h
  obtain ⟨a, ha, had⟩ := exists_of_forall₂_left (mapM_eq_ok.mp hown) hd
  have hall := hs _ (mem_combine.mpr ⟨a, ha, rfl⟩)
  rw [truth_conjunction, Scope.allHold_eq_true] at hall
  refine meets_of_ofCondition had (hall _ (List.mem_map_of_mem (List.mem_filter.mpr ⟨ha, ?_⟩)))
  exact beq_self_eq_true _

/-- At a point that meets the conditions of a cluster, no guard of the cluster is decided against
it. -/
theorem ne_false_of_ofCluster (h : ofCluster p c = .ok gs)
    (hm : ∀ d ∈ c.signature.conditions, s.Meets ⟨p.dims, c.signature.loops⟩ d) :
    ∀ g ∈ gs, s.truth g.predicate ≠ .ok false := by
  intro g hg hfalse
  obtain ⟨own, hown, h⟩ := bind_eq_ok.mp h
  cases h
  obtain ⟨a, _, rfl⟩ := mem_combine.mp hg
  rw [truth_conjunction] at hfalse
  obtain ⟨e, he, hfalse⟩ := Scope.exists_of_allHold_eq_false hfalse
  obtain ⟨b, hb, rfl⟩ := List.mem_map.mp he
  obtain ⟨d, hd, hbd⟩ := exists_of_forall₂_right (mapM_eq_ok.mp hown) (List.mem_filter.mp hb).1
  exact ne_false_of_ofCondition hbd (hm d hd) hfalse

end Guard

end LoopNest
