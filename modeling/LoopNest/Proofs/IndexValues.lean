import LoopNest.Proofs.Addressing
/-!
# What an index evaluates to

Inside a nest an index with a constant displacement has one of two outcomes: the number of its
dimension, displaced and wrapped if the index goes through a buffer, or an overflow
(`index_evaluates`).  The number hangs on the loop variable alone; it is carried up the chain of
parents, one lemma for each way in which a dimension has its value (`DimTable.number_cases`).

A dimension's meaning wraps at every buffer of the chain, while its number passes buffers by
(`DimTable.meaning`, `DimTable.number`): the index wraps once, at its own dimension.  The two agree
where no other dimension of the chain is a buffer.  A condition over a buffer, or a buffer over a
buffer, is constructible, and there an index points past the slots (`not_index_meant`).
-/

namespace LoopNest

/-! ## Numbers -/

/-- A condition that admits points by a stride. -/
def Dimension.strides (d : Dimension) : Bool :=
  match d.condition? with
  | some (.stride _) => true
  | _ => false

theorem Dimension.strides_iff {d : Dimension} :
    d.strides = true ↔ ∃ p factor, d.kind = .conditional p (.stride factor) := by
  unfold strides condition?
  cases d.kind with
  | conditional p condition => cases condition <;> simp
  | _ => simp

namespace DimTable

/-- The value of the first dimension of a chain where the loop over its root is at `v`, if a buffer
of `m` slots makes `slot m z` of its parent's value `z`. -/
def valueAlong (t : DimTable) (b : Bindings) (slot : Nat → Int → Int) (v : Int) :
    List DimId → Int
  | [] => v
  | d :: above =>
    match (t.get d).kind with
    | .stepping _ m => slot m (t.valueAlong b slot v above)
    | .conditional _ (.stride _) =>
      (t.valueAlong b slot v above).fdiv ((b.find? (t.get d).factorName).getD 1)
    | .conditional _ (.predicate _) => t.valueAlong b slot v above
    | _ => v

/-- What a dimension stands for: buffers wrap onto their slots, and strides number their points. -/
def meaning (t : DimTable) (b : Bindings) (v : Int) (d : DimId) : Int :=
  t.valueAlong b (fun m z => z % m) v (t.chain d)

/-- What a dimension would stand for if no buffer wrapped. -/
def number (t : DimTable) (b : Bindings) (v : Int) (d : DimId) : Int :=
  t.valueAlong b (fun _ z => z) v (t.chain d)

/-- What a displaced dimension stands for: a buffer displaces before it wraps. -/
def displacedMeaning (t : DimTable) (b : Bindings) (v : Int) (d : DimId) (k : Int) : Int :=
  match (t.get d).kind with
  | .stepping parent m => (t.meaning b v parent + k) % m
  | _ => t.meaning b v d + k

/-- Each stride above a dimension, its own included, has a positive value. -/
def StridesAdvance (t : DimTable) (b : Bindings) (d : DimId) : Prop :=
  ∀ a ∈ t.chain d, (t.get a).strides = true → ∃ f ∈ b.find? (t.get a).factorName, 0 < f

instance (t : DimTable) (b : Bindings) (d : DimId) : Decidable (t.StridesAdvance b d) := by
  unfold StridesAdvance
  infer_instance

variable {t : DimTable} {b : Bindings} {v : Int} {d p : DimId}

theorem valueAlong_congr (slot slot' : Nat → Int → Int) : ∀ {ds : List DimId},
    (∀ a ∈ ds, (t.get a).isStepping = false) →
      t.valueAlong b slot v ds = t.valueAlong b slot' v ds
  | [], _ => rfl
  | d :: above, h => by
      have hd := h d List.mem_cons_self
      have ih := valueAlong_congr slot slot' fun a ha =>
        h a (List.mem_cons_of_mem _ ha)
      rw [Dimension.isStepping, Dimension.modulo?] at hd
      unfold valueAlong
      cases hk : (t.get d).kind with
      | stepping _ _ =>
          rw [hk] at hd
          cases hd
      | conditional _ condition => cases condition <;> simp only [ih]
      | _ => rfl

theorem StridesAdvance.of_parent? (h : t.StridesAdvance b d) (hp : t.parent? d = some p) :
    t.StridesAdvance b p := fun a ha =>
  h a (chain_of_parent hp ▸ List.mem_cons_of_mem _ ha)

/-- The number of a dimension is that of its parent, the quotient of that by a stride, or the
loop variable. -/
theorem number_cases (t : DimTable) (d : DimId) :
    ((t.get d).ridesOnParent = false ∧ ∀ b v, t.number b v d = v) ∨
      (∃ p factor, (t.get d).kind = .conditional p (.stride factor) ∧ t.parent? d = some p ∧
        ∀ b v, t.number b v d =
          (t.number b v p).fdiv ((b.find? (t.get d).factorName).getD 1)) ∨
      ∃ p, ((∃ m, (t.get d).kind = .stepping p m) ∨
          ∃ e, (t.get d).kind = .conditional p (.predicate e)) ∧ t.parent? d = some p ∧
        ∀ b v, t.number b v d = t.number b v p := by
  unfold number
  cases hk : (t.get d).kind with
  | stepping p m =>
      have hp : t.parent? d = some p := parent?_of_kind hk
      refine Or.inr (Or.inr ⟨p, Or.inl ⟨m, rfl⟩, hp, fun b v => ?_⟩)
      rw [chain_of_parent hp, valueAlong]
      simp only [hk]
  | conditional p condition =>
      have hp : t.parent? d = some p := parent?_of_kind hk
      cases condition with
      | stride factor =>
          refine Or.inr (Or.inl ⟨p, factor, rfl, hp, fun b v => ?_⟩)
          rw [chain_of_parent hp, valueAlong]
          simp only [hk]
      | predicate e =>
          refine Or.inr (Or.inr ⟨p, Or.inr ⟨e, rfl⟩, hp, fun b v => ?_⟩)
          rw [chain_of_parent hp, valueAlong]
          simp only [hk]
  | space _ | time _ | sub _ _ _ _ =>
      refine Or.inl ⟨?_, fun b v => ?_⟩
      · rw [Dimension.ridesOnParent, Dimension.isConditional, Dimension.condition?,
          Dimension.isStepping, Dimension.modulo?, hk]
        rfl
      · obtain ⟨above, hchain⟩ := chain_eq_cons t d
        rw [hchain, valueAlong]
        simp only [hk]

/-- Where no buffer stands above a dimension, its displaced number, wrapped if it is a buffer
itself, is what it stands for. -/
theorem wrapped_number (h : ∀ a ∈ (t.chain d).tail, (t.get a).isStepping = false) (k : Int) :
    wrapped (t.get d).modulo? (t.number b v d + k) = t.displacedMeaning b v d k := by
  unfold displacedMeaning Dimension.modulo?
  cases hk : (t.get d).kind with
  | stepping p m =>
      have hp : t.parent? d = some p := parent?_of_kind hk
      rw [chain_of_parent hp] at h
      have hparent : t.number b v d = t.meaning b v p := by
        rw [number, chain_of_parent hp, valueAlong]
        simp only [hk]
        exact valueAlong_congr _ _ h
      simp only [hparent, wrapped]
  | space _ | time _ | sub _ _ _ _ | conditional _ _ =>
      have hown : t.number b v d = t.meaning b v d := by
        refine valueAlong_congr _ _ fun a ha => ?_
        obtain ⟨above, hchain⟩ := chain_eq_cons t d
        rw [hchain] at h ha
        rcases List.mem_cons.mp ha with rfl | ha
        · rw [Dimension.isStepping, Dimension.modulo?, hk]
          rfl
        · exact h a ha
      simp only [hown, wrapped]

end DimTable

/-! ## Sums with a constant -/

section Sum

variable {s : Scope} {a : Expr}

theorem Expr.add_int_zero (ha : ∀ j, a ≠ .int j) : a + .int 0 = a := by
  have hfold : a + .int 0 = Expr.fold .add a (.int 0) := rfl
  rw [hfold, Expr.fold, Expr.constant?_eq_none _ (Or.inl ha)]
  rfl

theorem Expr.add_int_cases (ha : ∀ j, a ≠ .int j) (k : Int) :
    (k = 0 ∧ a + .int k = a) ∨ a + .int k = .binary .add a (.int k) ∨
      a + .int k = .binary .sub a (.int (-k)) := by
  rcases eq_or_ne k 0 with rfl | hzero
  · exact Or.inl ⟨rfl, Expr.add_int_zero ha⟩
  have hfold : a + .int k = Expr.fold .add a (.int k) := rfl
  have hconstant : ∀ op b, Expr.constant? op a b = none := fun op b =>
    Expr.constant?_eq_none op (Or.inl ha)
  have hdrop : ∀ op ∈ [BinOp.add, BinOp.sub], ∀ j : Int, j ≠ 0 →
      Expr.dropNeutral op a (.int j) = .binary op a (.int j) := by
    intro op hop j hj
    unfold Expr.dropNeutral
    split <;> simp_all
  rw [hfold, Expr.fold, hconstant]
  by_cases hneg : k < 0
  · cases hn : Word.neg? k with
    | some n =>
        obtain rfl : -k = n := (Word.checked_eq_some_iff.mp hn).2
        refine Or.inr (Or.inr ?_)
        simp only [Expr.flipped?, if_pos hneg, BinOp.flip?, hn, Option.bind_eq_bind,
          Option.bind_some, Option.pure_def, Expr.foldUnsigned, hconstant, Option.getD_none]
        exact hdrop .sub (by simp) _ (by omega)
    | none =>
        refine Or.inr (Or.inl ?_)
        simp only [Expr.flipped?, if_pos hneg, BinOp.flip?, hn, Option.bind_eq_bind,
          Option.bind_some, Option.bind_none]
        exact hdrop .add (by simp) _ (by omega)
  · simp only [Expr.flipped?, if_neg hneg]
    exact Or.inr (Or.inl (hdrop .add (by simp) k hzero))

theorem int_add_int (ha : ∀ j, a ≠ .int j) {z : Int} (hz : s.int a = .ok z) (hfits : Word.Fits z)
    (k : Int) : s.int (a + .int k) = fitting (Word.add? z k) := by
  rcases Expr.add_int_cases ha k with ⟨rfl, h⟩ | h | h
  · rw [h, hz, Word.add?, Int.add_zero, Word.checked_of_fits hfits]
    rfl
  · rw [h]
    show (s.int a).bind (fun z => fitting (Word.add? z k)) = _
    rw [hz]
    rfl
  · rw [h]
    show (s.int a).bind (fun z => fitting (Word.checked (z - -k))) = _
    rw [hz, Word.add?, ← Int.sub_neg]
    rfl

theorem eq_add_of_int_add_int (ha : ∀ j, a ≠ .int j) {k x : Int}
    (h : s.int (a + .int k) = .ok x) : ∃ z, s.int a = .ok z ∧ x = z + k := by
  rcases Expr.add_int_cases ha k with ⟨rfl, heq⟩ | heq | heq
  · rw [heq] at h
    exact ⟨x, h, (Int.add_zero x).symm⟩
  · rw [heq] at h
    obtain ⟨z, hz, h⟩ := bind_eq_ok.mp h
    have hx := Word.checked_eq_some_iff.mp (Scope.fitting_eq_ok.mp h)
    exact ⟨z, hz, hx.2.symm⟩
  · rw [heq] at h
    obtain ⟨z, hz, h⟩ := bind_eq_ok.mp h
    have hx := Word.checked_eq_some_iff.mp (Scope.fitting_eq_ok.mp h)
    exact ⟨z, hz, by omega⟩

end Sum

/-! ## Values in a nest -/

theorem Word.fits_fdiv {z f : Int} (hz : Fits z) (hf : 0 < f) : Fits (z.fdiv f) := by
  rw [Int.fdiv_eq_ediv_of_nonneg z (Int.le_of_lt hf)]
  unfold Fits at hz ⊢
  rcases Int.le_total 0 z with hsign | hsign
  · have hlow : 0 ≤ z / f := Int.ediv_nonneg hsign (Int.le_of_lt hf)
    have hhigh : z / f ≤ z := Int.ediv_le_self f hsign
    exact ⟨by unfold least; omega, by omega⟩
  · have hlow : z ≤ z / f := by
      refine Int.le_ediv_of_mul_le hf ?_
      calc z * f ≤ z * 1 := Int.mul_le_mul_of_nonpos_left hsign hf
        _ = z := Int.mul_one z
    have hhigh : z / f ≤ 0 := Int.ediv_le_of_le_mul hf (by omega)
    exact ⟨by omega, by unfold greatest; omega⟩

theorem floorDiv_apply_eq_ok {v f r : Int} (h : BinOp.floorDiv.apply v f = .ok r) :
    r = v.fdiv f := by
  rw [BinOp.apply_floorDiv v (BinOp.ne_zero_of_floorDiv_apply h)] at h
  exact (Word.checked_eq_some_iff.mp (Scope.fitting_eq_ok.mp h)).2.symm

namespace Nest

variable {n : Nest} {s : Scope} {d l : DimId} {v : Int}

theorem value_of_not_rides (h : (n.dims.get d).ridesOnParent = false) (hl : n.loopFor? d = some l) :
    n.value d = .dim l := by
  rw [value_eq_dim h, hl, Option.getD_some]

theorem value_of_stride {p : DimId} {factor : Option Int}
    (h : (n.dims.get d).kind = .conditional p (.stride factor)) :
    n.value d = .binary .floorDiv (n.value p) (.symbol (n.dims.get d).factorName) := by
  rw [value, DimTable.chain_of_parent (DimTable.parent?_of_kind h), valueAlong]
  simp only [h]
  exact Expr.fold_symbol (by simp) (by simp) _ _

theorem loopFor?_of_parent? {p : DimId} (hp : n.dims.parent? d = some p) :
    n.loopFor? p = n.loopFor? d :=
  loopFor?_eq (DimTable.root_eq_of_parent? hp)

theorem value_ne_int (n : Nest) (d : DimId) (hl : n.loopFor? d = some l) :
    ∀ k, n.value d ≠ .int k := by
  intro k
  rcases n.dims.number_cases d with ⟨hown, _⟩ | ⟨p, factor, hk, _, _⟩ | ⟨p, hk, hp, _⟩
  · rw [value_of_not_rides hown hl]
    exact Expr.noConfusion
  · rw [value_of_stride hk]
    exact Expr.noConfusion
  · have hlt := DimTable.parent_lt hp
    rw [(value_of_parent hk).2.2]
    exact value_ne_int n p ((loopFor?_of_parent? hp).trans hl) k
termination_by d.index

theorem eq_number_of_int_value (n : Nest) (d : DimId) (hl : n.loopFor? d = some l)
    (hv : s.point.find? l = some v) {z : Int} (h : s.int (n.value d) = .ok z) :
    z = n.dims.number s.bindings v d := by
  rcases n.dims.number_cases d with ⟨hown, hnumber⟩ | ⟨p, factor, hk, hp, hnumber⟩ |
    ⟨p, hk, hp, hnumber⟩
  · rw [value_of_not_rides hown hl] at h
    rw [hnumber]
    exact Option.some.inj ((Scope.known_eq_ok.mp h).symm.trans hv)
  · have hlt := DimTable.parent_lt hp
    rw [value_of_stride hk] at h
    obtain ⟨y, hy, h⟩ := bind_eq_ok.mp h
    obtain ⟨f, hf, h⟩ := bind_eq_ok.mp h
    rw [hnumber, Scope.known_eq_ok.mp hf, Option.getD_some,
      ← eq_number_of_int_value n p ((loopFor?_of_parent? hp).trans hl) hv hy]
    exact floorDiv_apply_eq_ok h
  · have hlt := DimTable.parent_lt hp
    rw [(value_of_parent hk).2.2] at h
    rw [hnumber]
    exact eq_number_of_int_value n p ((loopFor?_of_parent? hp).trans hl) hv h
termination_by d.index

/-- An index, if it has a value, is the displaced number of its dimension, wrapped if that is a
buffer. -/
theorem eq_wrapped_of_int_index (hl : n.loopFor? d = some l) (hv : s.point.find? l = some v)
    {k x : Int} (h : s.int (n.index (.fixed d k)) = .ok x) :
    x = wrapped (n.dims.get d).modulo? (n.dims.number s.bindings v d + k) := by
  rw [int_index] at h
  obtain ⟨y, hy, rfl⟩ := map_eq_ok.mp h
  obtain ⟨z, hz, rfl⟩ := eq_add_of_int_add_int (n.value_ne_int d hl) hy
  rw [eq_number_of_int_value n d hl hv hz]
  rfl

theorem exists_int_value (n : Nest) (d : DimId) (hl : n.loopFor? d = some l)
    (hv : s.point.find? l = some v) (hfits : Word.Fits v)
    (hadvance : n.dims.StridesAdvance s.bindings d) :
    ∃ z, s.int (n.value d) = .ok z ∧ Word.Fits z := by
  rcases n.dims.number_cases d with ⟨hown, _⟩ | ⟨p, factor, hk, hp, _⟩ | ⟨p, hk, hp, _⟩
  · rw [value_of_not_rides hown hl]
    exact ⟨v, Scope.known_eq_ok.mpr hv, hfits⟩
  · have hlt := DimTable.parent_lt hp
    obtain ⟨y, hy, hyfits⟩ := exists_int_value n p ((loopFor?_of_parent? hp).trans hl) hv hfits
      (hadvance.of_parent? hp)
    obtain ⟨f, hf, hpos⟩ := hadvance d (DimTable.mem_chain_self _ d)
      (Dimension.strides_iff.mpr ⟨p, factor, hk⟩)
    have hquotient := Word.fits_fdiv hyfits hpos
    rw [value_of_stride hk]
    refine ⟨y.fdiv f, bind_eq_ok.mpr ⟨y, hy, bind_eq_ok.mpr ⟨f, Scope.known_eq_ok.mpr hf, ?_⟩⟩,
      hquotient⟩
    rw [BinOp.apply_floorDiv y (by omega), Word.checked_of_fits hquotient]
    rfl
  · have hlt := DimTable.parent_lt hp
    rw [(value_of_parent hk).2.2]
    exact exists_int_value n p ((loopFor?_of_parent? hp).trans hl) hv hfits
      (hadvance.of_parent? hp)
termination_by d.index

end Nest

/-! ## Indices -/

/-- What an index with a constant displacement evaluates to where the loop over its root is at
`v`. -/
structure Nest.Indexes (n : Nest) (s : Scope) (v : Int) (d : DimId) (k : Int) : Prop where
  /-- The displaced number, wrapped once, unless that is no word. -/
  result : s.int (n.index (.fixed d k)) =
    (fitting (Word.add? (n.dims.number s.bindings v d) k)).map
      (wrapped (n.dims.get d).modulo?)
  /-- Without a buffer above the dimension the index is what it stands for. -/
  meant : (∀ a ∈ (n.dims.chain d).tail, (n.dims.get a).isStepping = false) →
    ∀ x, s.int (n.index (.fixed d k)) = .ok x → x = n.dims.displacedMeaning s.bindings v d k

/-- An index evaluates to the displaced number of its dimension, wrapped if that is a buffer's, or
overflows. -/
theorem index_evaluates {n : Nest} {s : Scope} {d l : DimId} {v : Int}
    (hloop : n.loopFor? d = some l) (hpoint : s.point.find? l = some v) (hfits : Word.Fits v)
    (hadvance : n.dims.StridesAdvance s.bindings d) (k : Int) : n.Indexes s v d k := by
  obtain ⟨z, hz, hzfits⟩ := n.exists_int_value d hloop hpoint hfits hadvance
  obtain rfl := n.eq_number_of_int_value d hloop hpoint hz
  have hplace : s.int (n.place (.fixed d k)) =
      fitting (Word.add? (n.dims.number s.bindings v d) k) :=
    int_add_int (n.value_ne_int d hloop) hz hzfits k
  have hresult := Nest.int_index (n := n) s (.fixed d k)
  rw [hplace] at hresult
  refine ⟨hresult, fun hbare x hx => ?_⟩
  rw [Nest.eq_wrapped_of_int_index hloop hpoint hx]
  exact DimTable.wrapped_number hbare k

/-- Every third point of time, kept in a buffer of two slots. -/
def ringDims : DimTable :=
  (do
    let (t, time) ← DimTable.empty.time "time" (some 9)
    let (t, third) ← t.conditional "third" time (some 3) none
    let (t, _) ← t.stepping "slot" third 2
    return t : Except ModelError DimTable).toOption.getD .empty

/-- At the time before the first, the third of time is the one before the first as well, and the
next but one has the other slot. -/
theorem index_evaluates_ring :
    Nest.Indexes ⟨ringDims, [⟨0⟩]⟩ ⟨ringDims, [("third_factor", 3)], [(⟨0⟩, -1)]⟩ (-1) ⟨2⟩ 2 ∧
      Scope.int ⟨ringDims, [("third_factor", 3)], [(⟨0⟩, -1)]⟩
        (Nest.index ⟨ringDims, [⟨0⟩]⟩ (.fixed ⟨2⟩ 2)) = .ok 1 := by
  exact ⟨index_evaluates (n := ⟨ringDims, [⟨0⟩]⟩) (l := ⟨0⟩) (by decide +kernel)
    (by decide +kernel) (by decide) (by decide +kernel) 2, by decide +kernel⟩

/-- Each point of time is written through a condition over a buffer of two slots. -/
def slotted : Program where
  dims := (do
    let (t, time) ← DimTable.empty.time "time" (some 4)
    let (t, slot) ← t.stepping "t" time 2
    let (t, _) ← t.conditional "c" slot none (some (.compare .ge (.dim time) (.int 0)))
    return t : Except ModelError DimTable).toOption.getD .empty
  scalars := []
  equations := [⟨⟨"u", [.fixed ⟨2⟩ 0]⟩, .int 1, [], []⟩]

/-- An index through a condition over a buffer is not what it stands for, and points past the
slots. -/
theorem not_index_meant :
    slotted.dims.displacedMeaning [] 2 ⟨2⟩ 0 = 0 ∧
      Scope.int ⟨slotted.dims, [], [(⟨0⟩, 2)]⟩
        (Nest.index ⟨slotted.dims, [⟨0⟩]⟩ (.fixed ⟨2⟩ 0)) = .ok 2 ∧
      ∃ tree, (slotted.schedule default).result = .ok tree ∧
        tree.events slotted.dims [] = .ok
          [⟨0, [("time", 0)], "u", [0]⟩, ⟨0, [("time", 1)], "u", [1]⟩,
            ⟨0, [("time", 2)], "u", [2]⟩, ⟨0, [("time", 3)], "u", [3]⟩] :=
  ⟨by decide +kernel, by decide +kernel, _, rfl, by decide +kernel⟩

end LoopNest
