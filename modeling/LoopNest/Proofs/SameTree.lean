import LoopNest.Nest
import LoopNest.Proofs.Evaluation
/-!
# Equal trees stay equal

Trees are compared as they are written, and an operation on trees that looks at no more than that
takes equal trees to equal ones.  Folding does so (`Expr.same_fold`): it asks which operands are
constants, and of two equal trees both are one constant or neither is (`Expr.int_cases_of_same`).
Hence a nest turns equal trees into equal trees (`Nest.same_expr`).
-/

namespace LoopNest

/-! ## Folding -/

namespace Expr

variable {a a' b b' : Expr}

theorem sameAll_iff : ∀ {es fs : List Expr},
    sameAll es fs = true ↔ List.Forall₂ (fun e f => e.same f = true) es fs
  | [], [] => by simp [sameAll]
  | [], _ :: _ => by simp [sameAll]
  | _ :: _, [] => by simp [sameAll]
  | e :: es, f :: fs => by
      rw [sameAll, Bool.and_eq_true, List.forall₂_cons, sameAll_iff]

/-- Of two equal trees both are one constant, or neither is a constant. -/
theorem int_cases_of_same (h : a.same a' = true) :
    (∃ k, a = .int k ∧ a' = .int k) ∨ ((∀ k, a ≠ .int k) ∧ ∀ k, a' ≠ .int k) := by
  cases a <;> cases a' <;> simp [same] at h ⊢
  exact h.symm

theorem constant?_eq_none (op : BinOp) (h : (∀ k, a ≠ .int k) ∨ ∀ k, b ≠ .int k) :
    constant? op a b = none := by
  unfold constant?
  split
  · exact absurd rfl (h.elim (fun h => h _) fun h => absurd rfl (h _))
  · rfl

theorem flipped?_eq_none (op : BinOp) (h : ∀ k, b ≠ .int k) : flipped? op b = none := by
  unfold flipped?
  split
  · exact absurd rfl (h _)
  · rfl

theorem same_binary {op : BinOp} (ha : a.same a' = true) (hb : b.same b' = true) :
    (binary op a b).same (binary op a' b') = true := by
  simp only [same, ha, hb, beq_self_eq_true, Bool.and_self]

theorem same_int (k : Int) : (int k).same (int k) = true := by
  simp [same]

/-- A neutral operand of one tree is one of an equal tree. -/
theorem same_dropNeutral (op : BinOp) (ha : a.same a' = true) (hb : b.same b' = true) :
    (dropNeutral op a b).same (dropNeutral op a' b') = true := by
  have hbin := @same_binary a a' b b' op ha hb
  rcases int_cases_of_same ha with ⟨k, rfl, rfl⟩ | ⟨hna, hna'⟩ <;>
    rcases int_cases_of_same hb with ⟨l, rfl, rfl⟩ | ⟨hnb, hnb'⟩
  · unfold dropNeutral
    split <;> assumption
  -- Which operand is dropped hangs on the constants among the two, which are known here.
  all_goals
    unfold dropNeutral
    split <;> split <;> simp_all

/-- Equal operands fold to equal trees. -/
theorem same_fold (op : BinOp) (ha : a.same a' = true) (hb : b.same b' = true) :
    (fold op a b).same (fold op a' b') = true := by
  rcases int_cases_of_same ha with ⟨k, rfl, rfl⟩ | ⟨hna, hna'⟩
  · rcases int_cases_of_same hb with ⟨l, rfl, rfl⟩ | ⟨hnb, hnb'⟩
    · exact fold_induction (P := fun e => e.same e = true) same_int
        (fun _ _ _ => same_binary) (same_int k) (same_int l)
    · rw [fold, fold, constant?_eq_none op (Or.inr hnb), constant?_eq_none op (Or.inr hnb'),
        flipped?_eq_none op hnb, flipped?_eq_none op hnb']
      exact same_dropNeutral op ha hb
  · rw [fold, fold, constant?_eq_none op (Or.inl hna), constant?_eq_none op (Or.inl hna')]
    rcases int_cases_of_same hb with ⟨l, rfl, rfl⟩ | ⟨hnb, hnb'⟩
    · cases flipped? op (int l) with
      | none => exact same_dropNeutral op ha hb
      | some flipped =>
          simp only [foldUnsigned, constant?_eq_none _ (Or.inl hna),
            constant?_eq_none _ (Or.inl hna'), Option.getD_none]
          exact same_dropNeutral _ ha (same_int _)
    · rw [flipped?_eq_none op hnb, flipped?_eq_none op hnb']
      exact same_dropNeutral op ha hb

theorem same_negated (h : a.same a' = true) : (negated a).same (negated a') = true := by
  rcases int_cases_of_same h with ⟨k, rfl, rfl⟩ | ⟨hna, hna'⟩
  · rw [negated]
    split
    · exact same_int k
    · exact same_int (-k)
  · cases a <;> cases a' <;> first
      | exact absurd rfl (hna _)
      | exact absurd rfl (hna' _)
      | exact h

theorem conjuncts_of_same (h : a.same a' = true) :
    List.Forall₂ (fun e f => e.same f = true) a.conjuncts a'.conjuncts := by
  cases a <;> cases a' <;> first
    | exact sameAll_iff.mp h
    | exact .cons h .nil
    | cases h

theorem same_all {es fs : List Expr} (h : List.Forall₂ (fun e f => e.same f = true) es fs) :
    (all es).same (all fs) = true := by
  have hflat : List.Forall₂ (fun e f => e.same f = true) (es.flatMap conjuncts)
      (fs.flatMap conjuncts) := List.rel_flatMap h fun _ _ => conjuncts_of_same
  unfold all
  generalize es.flatMap conjuncts = as, fs.flatMap conjuncts = bs at hflat
  match as, bs, hflat with
  | [], [], h => exact sameAll_iff.mpr h
  | [_], [_], .cons h .nil => exact h
  | _ :: _ :: _, _ :: _ :: _, h => exact sameAll_iff.mpr h

end Expr

theorem Index.sameAll_iff : ∀ {is js : List Index},
    sameAll is js = true ↔ List.Forall₂ (fun i j => i.same j = true) is js
  | [], [] => by simp [sameAll]
  | [], _ :: _ => by simp [sameAll]
  | _ :: _, [] => by simp [sameAll]
  | i :: is, j :: js => by
      rw [sameAll, Bool.and_eq_true, List.forall₂_cons, sameAll_iff]

/-! ## In terms of loop variables -/

namespace Nest

theorem same_valueAlong (n : Nest) : ∀ ds : List DimId,
    (n.valueAlong ds).same (n.valueAlong ds) = true
  | [] => Expr.same_int 0
  | d :: above => by
      have hfactor : (Expr.symbol (n.dims.get d).factorName).same
          (.symbol (n.dims.get d).factorName) = true := by simp [Expr.same]
      rw [valueAlong]
      split
      · exact Expr.same_fold _ (same_valueAlong n above) hfactor
      · exact same_valueAlong n above
      · exact same_valueAlong n above
      · simp [Expr.same]

theorem same_displaced (n : Nest) (d : DimId) {e f : Expr} (h : e.same f = true) :
    (n.displaced d e).same (n.displaced d f) = true := by
  unfold displaced
  split
  · exact Expr.same_fold _ (Expr.same_fold _ (same_valueAlong n _) h) (Expr.same_int _)
  · exact Expr.same_fold _ (same_valueAlong n _) h

mutual

/-- Equal trees are equal in terms of loop variables. -/
theorem same_expr (n : Nest) : ∀ e f : Expr, e.same f = true →
    (n.expr e).same (n.expr f) = true
  | .int _, f, h => by
      cases f with
      | int _ => exact h
      | _ => simp [Expr.same] at h
  | .float _, f, h => by
      cases f with
      | float _ => exact h
      | _ => simp [Expr.same] at h
  | .symbol _, f, h => by
      cases f with
      | symbol _ => exact h
      | _ => simp [Expr.same] at h
  | .dim d, f, h => by
      cases f with
      | dim d' =>
          obtain rfl : d = d' := by simpa [Expr.same] using h
          exact same_displaced n d (Expr.same_int 0)
      | _ => simp [Expr.same] at h
  | .access t is, f, h => by
      cases f with
      | access u js =>
          simp only [Expr.same, Bool.and_eq_true] at h
          simp only [expr, Expr.same, Bool.and_eq_true]
          exact ⟨h.1, Expr.sameAll_iff.mpr (same_indices n is js (Index.sameAll_iff.mp h.2))⟩
      | _ => simp [Expr.same] at h
  | .element t es, f, h => by
      cases f with
      | element u fs =>
          simp only [Expr.same, Bool.and_eq_true] at h
          simp only [expr, Expr.same, Bool.and_eq_true]
          exact ⟨h.1, Expr.sameAll_iff.mpr (same_exprs n es fs (Expr.sameAll_iff.mp h.2))⟩
      | _ => simp [Expr.same] at h
  | .neg e, f, h => by
      cases f with
      | neg f => exact Expr.same_negated (same_expr n e f (by simpa [Expr.same] using h))
      | _ => simp [Expr.same] at h
  | .binary op a b, f, h => by
      cases f with
      | binary op' a' b' =>
          simp only [Expr.same, Bool.and_eq_true, beq_iff_eq] at h
          obtain ⟨⟨rfl, ha⟩, hb⟩ := h
          exact Expr.same_fold op (same_expr n a a' ha) (same_expr n b b' hb)
      | _ => simp [Expr.same] at h
  | .compare op a b, f, h => by
      cases f with
      | compare op' a' b' =>
          simp only [Expr.same, Bool.and_eq_true] at h
          simp only [expr, Expr.same, Bool.and_eq_true]
          exact ⟨⟨h.1.1, same_expr n a a' h.1.2⟩, same_expr n b b' h.2⟩
      | _ => simp [Expr.same] at h
  | .and es, f, h => by
      cases f with
      | and fs => exact Expr.same_all (same_exprs n es fs (Expr.sameAll_iff.mp h))
      | _ => simp [Expr.same] at h
  | .call g es, f, h => by
      cases f with
      | call g' fs =>
          simp only [Expr.same, Bool.and_eq_true] at h
          simp only [expr, Expr.same, Bool.and_eq_true]
          exact ⟨h.1, Expr.sameAll_iff.mpr (same_exprs n es fs (Expr.sameAll_iff.mp h.2))⟩
      | _ => simp [Expr.same] at h

theorem same_index (n : Nest) : ∀ i j : Index, i.same j = true →
    (n.index i).same (n.index j) = true
  | .fixed d k, j, h => by
      cases j with
      | fixed d' k' =>
          simp only [Index.same, Bool.and_eq_true, beq_iff_eq] at h
          obtain ⟨rfl, rfl⟩ := h
          exact same_displaced n d (Expr.same_int k)
      | symbolic _ _ => simp [Index.same] at h
  | .symbolic d e, j, h => by
      cases j with
      | fixed _ _ => simp [Index.same] at h
      | symbolic d' e' =>
          simp only [Index.same, Bool.and_eq_true, beq_iff_eq] at h
          obtain ⟨rfl, he⟩ := h
          exact same_displaced n d (same_expr n e e' he)

theorem same_exprs (n : Nest) : ∀ es fs : List Expr,
    List.Forall₂ (fun e f => e.same f = true) es fs →
      List.Forall₂ (fun e f => e.same f = true) (n.exprs es) (n.exprs fs)
  | [], [], .nil => .nil
  | e :: es, f :: fs, .cons h hs => .cons (same_expr n e f h) (same_exprs n es fs hs)

theorem same_indices (n : Nest) : ∀ is js : List Index,
    List.Forall₂ (fun i j => i.same j = true) is js →
      List.Forall₂ (fun e f => e.same f = true) (n.indices is) (n.indices js)
  | [], [], .nil => .nil
  | i :: is, j :: js, .cons h hs => .cons (same_index n i j h) (same_indices n is js hs)

end

end Nest

end LoopNest
