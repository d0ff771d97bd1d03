import LoopNest.Proofs.Guards
import LoopNest.Proofs.Element
import LoopNest.Proofs.SameTree
/-!
# What an index addresses

The analysis compares displacements along a root, and takes two indices at distance zero to point
to one place.  A nest turns the same indices into expressions over its loops: through strides, and
wrapped onto the slots of a buffer.  The two agree on the place before it is wrapped
(`Nest.same_place`): the value of a dimension hangs only on its root and on the nearest stride above
it (`Nest.value_congr`), which are what the analysis looks at, and displacements that it takes for
equal stay equal trees.

Wrapping is where the agreement ends.  Indices that wrap alike address one element
(`addresses_agree_of_zero`), and nothing keeps a tensor from being indexed through a buffer here and
past it there (`not_addresses_agree`).
-/

namespace LoopNest

/-! ## Strides along a chain -/

namespace DimTable

variable {t : DimTable} {d p : DimId}

theorem stride?_of_parent (h : t.parent? d = some p)
    (hd : ∀ f, (t.get d).condition? ≠ some (.stride f)) : t.stride? d = t.stride? p := by
  rw [stride?, chain_of_parent h, List.find?_cons_of_neg, ← stride?]
  split
  · exact absurd (by assumption) (hd _)
  · exact Bool.false_ne_true

theorem stride?_self {f : Option Int} (hd : (t.get d).condition? = some (.stride f)) :
    t.stride? d = some d := by
  obtain ⟨above, h⟩ := chain_eq_cons t d
  rw [stride?, h, List.find?_cons_of_pos]
  rw [hd]

theorem stride?_of_not_rides (t : DimTable) (d : DimId)
    (hd : (t.get d).ridesOnParent = false) : t.stride? d = none := by
  refine List.find?_eq_none.mpr fun a ha => ?_
  have hrides := not_rides_of_derives (List.contains_iff_mem.mpr ha) hd
  split
  · rename_i hstride
    rw [Dimension.ridesOnParent, Dimension.isConditional, hstride] at hrides
    cases hrides
  · exact Bool.false_ne_true

end DimTable

/-! ## Values in a nest -/

namespace Nest

variable {n : Nest} {d e : DimId}

theorem value_of_parent {p : DimId} (h : (∃ m, (n.dims.get d).kind = .stepping p m) ∨
    ∃ e, (n.dims.get d).kind = .conditional p (.predicate e)) :
    n.dims.parent? d = some p ∧ n.dims.stride? d = n.dims.stride? p ∧ n.value d = n.value p := by
  have hparent : n.dims.parent? d = some p := by
    rcases h with ⟨m, h⟩ | ⟨e, h⟩ <;> exact DimTable.parent?_of_kind h
  refine ⟨hparent, DimTable.stride?_of_parent hparent ?_, ?_⟩
  · intro f hf
    rw [Dimension.condition?] at hf
    rcases h with ⟨m, h⟩ | ⟨e, h⟩ <;> rw [h] at hf <;> cases hf
  · rw [value, DimTable.chain_of_parent hparent, valueAlong]
    rcases h with ⟨m, h⟩ | ⟨e, h⟩ <;> simp only [h] <;> rfl

theorem value_eq_dim (h : (n.dims.get d).ridesOnParent = false) :
    n.value d = .dim ((n.loopFor? d).getD d) := by
  obtain ⟨above, hchain⟩ := DimTable.chain_eq_cons n.dims d
  rw [Dimension.ridesOnParent, Dimension.isConditional, Dimension.condition?,
    Dimension.isStepping, Dimension.modulo?] at h
  rw [value, hchain, valueAlong]
  cases hk : (n.dims.get d).kind with
  | conditional _ _ | stepping _ _ => simp [hk] at h
  | space _ | time _ | sub _ _ _ _ => rfl

/-- The value of a dimension is that of its parent, unless it begins a stride or stands under
none. -/
theorem value_cases (n : Nest) (d : DimId) :
    n.dims.stride? d = some d ∨
      (∃ p, n.dims.parent? d = some p ∧ n.dims.stride? d = n.dims.stride? p ∧
        n.value d = n.value p) ∨
      (n.dims.stride? d = none ∧ n.value d = .dim ((n.loopFor? d).getD d)) := by
  cases hk : (n.dims.get d).kind with
  | conditional p condition =>
      cases condition with
      | stride f =>
          refine Or.inl (DimTable.stride?_self (f := f) ?_)
          rw [Dimension.condition?, hk]
      | predicate e => exact Or.inr (Or.inl ⟨p, value_of_parent (Or.inr ⟨e, hk⟩)⟩)
  | stepping p m => exact Or.inr (Or.inl ⟨p, value_of_parent (Or.inl ⟨m, hk⟩)⟩)
  | space _ | time _ | sub _ _ _ _ =>
      have hrides : (n.dims.get d).ridesOnParent = false := by
        rw [Dimension.ridesOnParent, Dimension.isConditional, Dimension.condition?,
          Dimension.isStepping, Dimension.modulo?, hk]
        rfl
      exact Or.inr (Or.inr ⟨DimTable.stride?_of_not_rides _ _ hrides, value_eq_dim hrides⟩)

theorem loopFor?_eq (h : n.dims.root d = n.dims.root e) : n.loopFor? d = n.loopFor? e := by
  rw [loopFor?, loopFor?, h]

theorem exists_loopFor? (h : n.dims.root d ∈ n.loops.map n.dims.root) :
    ∃ l, n.loopFor? d = some l := by
  obtain ⟨l, hl, hroot⟩ := List.mem_map.mp h
  refine Option.isSome_iff_exists.mp ?_
  rw [loopFor?, List.find?_isSome]
  exact ⟨l, hl, beq_iff_eq.mpr hroot⟩

/-- Under a stride, a dimension has the value of the points that the stride numbers. -/
theorem value_of_stride?_eq_some (n : Nest) (d : DimId) {a : DimId}
    (h : n.dims.stride? d = some a) : n.value d = n.value a := by
  rcases value_cases n d with hself | ⟨p, hp, hs, hv⟩ | ⟨hnone, _⟩
  · cases hself.symm.trans h
    rfl
  · have hlt := DimTable.parent_lt hp
    rw [hv]
    exact value_of_stride?_eq_some n p (hs.symm.trans h)
  · cases hnone.symm.trans h
termination_by d.index

theorem value_of_stride?_eq_none (n : Nest) (d : DimId) {l : DimId}
    (h : n.dims.stride? d = none) (hl : n.loopFor? d = some l) : n.value d = .dim l := by
  rcases value_cases n d with hself | ⟨p, hp, hs, hv⟩ | ⟨_, hv⟩
  · cases hself.symm.trans h
  · have hlt := DimTable.parent_lt hp
    have hroot : n.dims.root p = n.dims.root d := by
      refine DimTable.root_eq_of_mem_chain ?_
      rw [DimTable.chain_of_parent hp]
      exact List.mem_cons_of_mem _ (DimTable.mem_chain_self _ _)
    rw [hv]
    exact value_of_stride?_eq_none n p (hs.symm.trans h) ((loopFor?_eq hroot).trans hl)
  · rw [hv, hl, Option.getD_some]
termination_by d.index

/-- The value of a dimension hangs on its root and on the stride above it. -/
theorem value_congr (hroot : n.dims.root d = n.dims.root e)
    (hstride : n.dims.stride? d = n.dims.stride? e)
    (hloop : n.dims.root d ∈ n.loops.map n.dims.root) : n.value d = n.value e := by
  cases hs : n.dims.stride? d with
  | some a =>
      rw [value_of_stride?_eq_some n d hs, value_of_stride?_eq_some n e (hstride ▸ hs)]
  | none =>
      obtain ⟨l, hl⟩ := exists_loopFor? hloop
      rw [value_of_stride?_eq_none n d hs hl,
        value_of_stride?_eq_none n e (hstride ▸ hs) ((loopFor?_eq hroot).symm.trans hl)]

end Nest

/-! ## Places -/

/-- The slot of a place, if there is a buffer to wrap it onto. -/
def wrapped : Option Nat → Int → Int
  | some m, z => z % m
  | none, z => z

/-- The numbers of slots of the buffers that an access goes through, by position. -/
def Access.buffers (t : DimTable) (a : Access) : List (Option Nat) :=
  a.indices.map fun i => (t.get i.dim).modulo?

namespace Nest

variable {n : Nest}

/-- The displacement of an index in terms of loop variables. -/
def shift (n : Nest) : Index → Expr
  | .fixed _ k => .int k
  | .symbolic _ e => n.expr e

/-- Where an index points, before any wrapping. -/
def place (n : Nest) (i : Index) : Expr := n.value i.dim + n.shift i

/-- What the analysis takes for one place is one place in the nest. -/
theorem same_place {i j : Index} (hroot : n.dims.root i.dim = n.dims.root j.dim)
    (hzero : i.difference? n.dims j = some 0)
    (hloop : n.dims.root i.dim ∈ n.loops.map n.dims.root) :
    (n.place i).same (n.place j) = true := by
  rw [Index.difference?] at hzero
  split at hzero
  · rename_i hstride
    rw [place, place, value_congr hroot hstride hloop]
    refine Expr.same_fold _ (same_valueAlong n _) ?_
    cases i with
    | fixed _ k =>
        cases j with
        | fixed _ l =>
            obtain rfl : k = l := by
              have := (Word.checked_eq_some_iff.mp hzero).2
              omega
            exact Expr.same_int k
        | symbolic _ _ => cases hzero
    | symbolic _ e =>
        cases j with
        | fixed _ _ => cases hzero
        | symbolic _ f =>
            simp only [Index.shiftDifference?] at hzero
            split at hzero
            · exact same_expr n e f (by assumption)
            · cases hzero
  · cases hzero

theorem int_fold_mod {s : Scope} {a : Expr} {m : Nat} (hm : 0 < m) :
    s.int (Expr.fold .mod a (.int m)) = (s.int a).map (· % (m : Int)) := by
  have hpos : (0 : Int) < m := Int.natCast_pos.mpr hm
  by_cases hint : ∃ k, a = .int k
  · obtain ⟨k, rfl⟩ := hint
    have hfold : Expr.fold .mod (.int k) (.int m) = .int (k % m) := by
      simp only [Expr.fold, Expr.constant?, BinOp.constant?, if_pos hpos, Word.mod?]
      rw [if_neg (by omega)]
      rfl
    rw [hfold]
    rfl
  · have hfold : Expr.fold .mod a (.int m) = .binary .mod a (.int m) := by
      have hflip : Expr.flipped? .mod (.int m) = none := by
        simp only [Expr.flipped?]
        rw [if_neg (by omega)]
      rw [Expr.fold, Expr.constant?_eq_none _ (Or.inl fun k hk => hint ⟨k, hk⟩), hflip]
      rfl
    have happly : ∀ z : Int, BinOp.mod.apply z m = .ok (z % m) := by
      intro z
      simp only [BinOp.apply, Word.mod?]
      rw [if_neg (by omega), if_neg (by omega)]
      rfl
    rw [hfold]
    show (s.int a).bind (fun z => BinOp.mod.apply z m) = _
    cases s.int a with
    | error e => rfl
    | ok z => exact happly z

/-- An index is its place, wrapped if it goes through a buffer. -/
theorem int_index (s : Scope) (i : Index) :
    s.int (n.index i) = (s.int (n.place i)).map (wrapped (n.dims.get i.dim).modulo?) := by
  have hindex : n.index i = n.displaced i.dim (n.shift i) := by cases i <;> rfl
  rw [hindex, displaced, Dimension.modulo?]
  cases hk : (n.dims.get i.dim).kind with
  | stepping p m =>
      simp only
      rw [place, (value_of_parent (Or.inl ⟨m, hk⟩)).2.2]
      refine int_fold_mod (DimTable.modulo_pos (t := n.dims) (d := i.dim) ?_)
      rw [Dimension.modulo?, hk]
  | _ =>
      simp only
      rw [place]
      cases s.int (n.value i.dim + n.shift i) <;> rfl

end Nest

/-! ## Indices at distance zero -/

namespace Nest

variable {n : Nest} {s : Scope}

theorem same_places : ∀ {is js : List Index},
    is.map (fun i => n.dims.root i.dim) = js.map (fun j => n.dims.root j.dim) →
      List.Forall₂ (fun i j => i.difference? n.dims j = some 0) is js →
        (∀ i ∈ is, n.dims.root i.dim ∈ n.loops.map n.dims.root) →
          List.Forall₂ (fun i j => (n.place i).same (n.place j) = true) is js
  | _, _, _, .nil, _ => .nil
  | i :: is, j :: js, hroots, .cons hzero hrest, hloops => by
      rw [List.map_cons, List.map_cons, List.cons.injEq] at hroots
      exact .cons (same_place hroots.1 hzero (hloops i List.mem_cons_self))
        (same_places hroots.2 hrest fun k hk => hloops k (List.mem_cons_of_mem _ hk))

/-- Two lists of indices with equal places are those places, each wrapped onto its own buffers. -/
theorem exists_places : ∀ {is js : List Index} {xs ys : List Int},
    List.Forall₂ (fun i j => (n.place i).same (n.place j) = true) is js →
      (n.indices is).mapM s.int = .ok xs → (n.indices js).mapM s.int = .ok ys →
        ∃ zs, xs = List.zipWith wrapped (is.map fun i => (n.dims.get i.dim).modulo?) zs ∧
          ys = List.zipWith wrapped (js.map fun j => (n.dims.get j.dim).modulo?) zs
  | [], _, xs, ys, .nil, hx, hy => by
      cases hx
      cases hy
      exact ⟨[], rfl, rfl⟩
  | i :: is, j :: js, xs, ys, .cons hij hrest, hx, hy => by
      rw [indices] at hx hy
      rcases mapM_eq_ok.mp hx with _ | ⟨hxi, hxs⟩
      rcases mapM_eq_ok.mp hy with _ | ⟨hyj, hys⟩
      obtain ⟨z, hz, rfl⟩ := map_eq_ok.mp ((int_index s i).symm.trans hxi)
      obtain ⟨w, hw, rfl⟩ := map_eq_ok.mp ((int_index s j).symm.trans hyj)
      cases ((Scope.int_of_same s _ _ hij z).mp hz).symm.trans hw
      obtain ⟨zs, rfl, rfl⟩ := exists_places hrest (mapM_eq_ok.mpr hxs) (mapM_eq_ok.mpr hys)
      exact ⟨z :: zs, rfl, rfl⟩

end Nest

/-- Accesses along the same roots, at distance zero in every position, point to one place in any
nest over those roots.  Each wraps it onto its own buffers, so the two are one element where they
go through buffers of as many slots. -/
theorem addresses_agree_of_zero {n : Nest} {a b : Access} {s : Scope} {xs ys : List Int}
    (hroots : a.roots n.dims = b.roots n.dims)
    (hzero : List.Forall₂ (fun i j => i.difference? n.dims j = some 0) a.indices b.indices)
    (hloops : ∀ r ∈ a.roots n.dims, r ∈ n.loops.map n.dims.root)
    (hx : (n.indices a.indices).mapM s.int = .ok xs)
    (hy : (n.indices b.indices).mapM s.int = .ok ys) :
    (∃ zs, xs = List.zipWith wrapped (a.buffers n.dims) zs ∧
      ys = List.zipWith wrapped (b.buffers n.dims) zs) ∧
    (a.buffers n.dims = b.buffers n.dims → xs = ys) := by
  have hplaces := Nest.same_places hroots hzero fun i hi => hloops _ (List.mem_map_of_mem hi)
  obtain ⟨zs, hxs, hys⟩ := Nest.exists_places hplaces hx hy
  refine ⟨⟨zs, hxs, hys⟩, fun hbuffers => ?_⟩
  rw [Access.buffers, Access.buffers] at hbuffers
  rw [hxs, hys, hbuffers]

/-- Time with two buffers of two slots, and a range of space with a part that is passed through by
a stride and then by a predicate. -/
def mixedDims : DimTable :=
  (do
    let (t, time) ← DimTable.empty.time "time" (some 3)
    let (t, x) ← t.space "x" (some 8)
    let (t, _) ← t.stepping "t" time 2
    let (t, _) ← t.stepping "tau" time 2
    let (t, xi) ← t.sub "xi" x .middle 1 1
    let (t, c) ← t.conditional "c" xi (some 2) none
    let (t, _) ← t.conditional "odd" c none (some (.compare .gt (.dim x) (.symbol "k")))
    return t : Except ModelError DimTable).toOption.getD .empty

/-- Inside loops over `time` and `xi`. -/
def mixedNest : Nest := ⟨mixedDims, [⟨0⟩, ⟨4⟩]⟩

theorem addresses_agree_of_zero_mixed :
    ∃ (a b : Access) (s : Scope) (xs ys : List Int),
      a = ⟨"u", [.fixed ⟨2⟩ 1, .fixed ⟨4⟩ (-1), .symbolic ⟨5⟩ (.symbol "k")]⟩ ∧
      b = ⟨"u", [.fixed ⟨3⟩ 1, .fixed ⟨1⟩ (-1), .symbolic ⟨6⟩ (.symbol "k")]⟩ ∧
      (mixedNest.indices a.indices).mapM s.int = .ok xs ∧
      (mixedNest.indices b.indices).mapM s.int = .ok ys ∧ xs = [0, 4, 5] ∧ xs = ys := by
  have facts : ∃ (a b : Access) (s : Scope) (xs ys : List Int),
      a = ⟨"u", [.fixed ⟨2⟩ 1, .fixed ⟨4⟩ (-1), .symbolic ⟨5⟩ (.symbol "k")]⟩ ∧
      b = ⟨"u", [.fixed ⟨3⟩ 1, .fixed ⟨1⟩ (-1), .symbolic ⟨6⟩ (.symbol "k")]⟩ ∧
      (mixedNest.indices a.indices).mapM s.int = .ok xs ∧
      (mixedNest.indices b.indices).mapM s.int = .ok ys ∧ xs = [0, 4, 5] ∧
      a.roots mixedNest.dims = b.roots mixedNest.dims ∧
      List.Forall₂ (fun i j => i.difference? mixedNest.dims j = some 0) a.indices b.indices ∧
      (∀ r ∈ a.roots mixedNest.dims, r ∈ mixedNest.loops.map mixedNest.dims.root) ∧
      a.buffers mixedNest.dims = b.buffers mixedNest.dims :=
    ⟨_, _, ⟨mixedDims, [("c_factor", 2), ("k", 3)], [(⟨0⟩, 1), (⟨4⟩, 5)]⟩, _, _, rfl, rfl, rfl, rfl,
      by decide +kernel⟩
  obtain ⟨a, b, s, xs, ys, ha, hb, hx, hy, hxs, hroots, hzero, hloops, hbuffers⟩ := facts
  exact ⟨a, b, s, xs, ys, ha, hb, hx, hy, hxs,
    (addresses_agree_of_zero hroots hzero hloops hx hy).2 hbuffers⟩

/-- One point of time after another is written, through a buffer of two slots and past it. -/
def pastBuffer : Program where
  dims := (do
    let (t, time) ← DimTable.empty.time "time" (some 3)
    let (t, _) ← t.stepping "t" time 2
    return t : Except ModelError DimTable).toOption.getD .empty
  scalars := []
  equations := [⟨⟨"u", [.fixed ⟨1⟩ 0]⟩, .int 1, [], []⟩, ⟨⟨"u", [.fixed ⟨0⟩ 0]⟩, .int 2, [], []⟩]

/-- Two writes to one tensor at distance zero, of which one goes through a buffer and one does not,
address different elements. -/
theorem not_addresses_agree :
    ∃ tree es a b, (pastBuffer.schedule default).result = .ok tree ∧
      pastBuffer.lower.result = .ok es ∧ es.map Lowered.write = [a, b] ∧ a.tensor = b.tensor ∧
      a.roots pastBuffer.dims = [⟨0⟩] ∧ b.roots pastBuffer.dims = [⟨0⟩] ∧
      List.Forall₂ (fun i j => i.difference? pastBuffer.dims j = some 0) a.indices b.indices ∧
      (Nest.indices ⟨pastBuffer.dims, [⟨0⟩]⟩ a.indices).mapM
        (Scope.int ⟨pastBuffer.dims, [], [(⟨0⟩, 2)]⟩) = .ok [0] ∧
      (Nest.indices ⟨pastBuffer.dims, [⟨0⟩]⟩ b.indices).mapM
        (Scope.int ⟨pastBuffer.dims, [], [(⟨0⟩, 2)]⟩) = .ok [2] ∧
      tree.events pastBuffer.dims [] = .ok
        [⟨0, [("time", 0)], "u", [0]⟩, ⟨1, [("time", 0)], "u", [0]⟩,
          ⟨0, [("time", 1)], "u", [1]⟩, ⟨1, [("time", 1)], "u", [1]⟩,
          ⟨0, [("time", 2)], "u", [0]⟩, ⟨1, [("time", 2)], "u", [2]⟩] :=
  ⟨_, _, _, _, rfl, rfl, rfl, rfl, by decide +kernel, by decide +kernel, by decide +kernel, rfl,
    rfl, by decide +kernel⟩

end LoopNest
