import LoopNest.Proofs.Execution
import LoopNest.Proofs.Guards
import LoopNest.Proofs.Settled
/-!
# Elements that instances touch

An instance touches one element per access of its equation: along each index, the value of the
loop over the index's root, displaced.  Wrapping onto a buffer is left out, so that points of time
that share a slot stay apart.

Displacements that are not constants take their worth from outside (`elementBy?`).  A worth of
nothing leaves the constants alone, which `element?` knows.

Where two accesses have their first index along a root in one place, instances that touch one
element through them point to one place along it (`exists_meeting`).  In a regular program the
accesses are then as far apart along each root as their instances are (`distance?_of_element?`).  So
where two instances part at a loop, having agreed on all loops outside, that loop carries the
dependence (`Passes.carrier_of_element?`).
-/

namespace LoopNest

/-- A place in a tensor, one coordinate per index. -/
structure Element where
  tensor : String
  coordinates : List Int
deriving DecidableEq, Repr

/-- The roots that an access indexes, by position. -/
def Access.roots (t : DimTable) (a : Access) : List DimId := a.indices.map fun i => t.root i.dim

/-- The displacements of an access that are known. -/
def Access.shifts (a : Access) : List Int := a.indices.filterMap Index.fixed?

/-- How far an index is displaced, with what a symbolic displacement is worth. -/
def Index.shift? (worth : Expr → Option Int) : Index → Option Int
  | .fixed _ k => some k
  | .symbolic _ e => worth e

/-- Both accesses index a root, and the first index along it stands in one place in both. -/
structure Access.Aligned (t : DimTable) (root : DimId) (a b : Access) : Prop where
  first : root ∈ a.roots t
  second : root ∈ b.roots t
  place : (a.roots t).idxOf root = (b.roots t).idxOf root

instance (t : DimTable) (root : DimId) (a b : Access) : Decidable (a.Aligned t root b) :=
  decidable_of_iff
    (root ∈ a.roots t ∧ root ∈ b.roots t ∧ (a.roots t).idxOf root = (b.roots t).idxOf root)
    ⟨fun ⟨h₁, h₂, h₃⟩ => ⟨h₁, h₂, h₃⟩, fun ⟨h₁, h₂, h₃⟩ => ⟨h₁, h₂, h₃⟩⟩

namespace Lowered

/-- The value of the loop over a root, among the values of all loops of an equation. -/
def valueAt? (t : DimTable) (e : Lowered) (vs : List Int) (root : DimId) : Option Int :=
  vs[(e.roots t).idxOf root]?

/-- Where an index points, if its displacement is known. -/
def coordinate? (t : DimTable) (e : Lowered) (vs : List Int) (i : Index) : Option Int := do
  let v ← e.valueAt? t vs (t.root i.dim)
  let k ← i.fixed?
  return v + k

/-- The element that an access of an equation touches. -/
def element? (t : DimTable) (e : Lowered) (vs : List Int) (a : Access) : Option Element := do
  let coordinates ← a.indices.mapM (e.coordinate? t vs)
  return ⟨a.tensor, coordinates⟩

/-- Where an index points, with what symbolic displacements are worth. -/
def coordinateBy? (worth : Expr → Option Int) (t : DimTable) (e : Lowered) (vs : List Int)
    (i : Index) : Option Int := do
  let v ← e.valueAt? t vs (t.root i.dim)
  let k ← i.shift? worth
  return v + k

/-- The element that an access of an equation touches, with what symbolic displacements are
worth. -/
def elementBy? (worth : Expr → Option Int) (t : DimTable) (e : Lowered) (vs : List Int)
    (a : Access) : Option Element := do
  let coordinates ← a.indices.mapM (e.coordinateBy? worth t vs)
  return ⟨a.tensor, coordinates⟩

/-- Displacements are constants, no index goes through a stride, accesses to one tensor index the
same roots in the same positions, and equations write along all of their loops. -/
structure Regular (t : DimTable) (es : List Lowered) : Prop where
  affine : ∀ e ∈ es, ∀ a ∈ e.accesses t, ∀ i ∈ a.indices, i.fixed?.isSome = true
  unstrided : ∀ e ∈ es, ∀ a ∈ e.accesses t, ∀ i ∈ a.indices, t.stride? i.dim = none
  aligned : ∀ e ∈ es, ∀ a ∈ e.accesses t, ∀ f ∈ es, ∀ b ∈ f.accesses t, a.tensor = b.tensor →
    a.roots t = b.roots t
  covered : ∀ e ∈ es, ∀ r ∈ e.roots t, r ∈ e.write.roots t

instance (t : DimTable) (es : List Lowered) : Decidable (Regular t es) :=
  decidable_of_iff
    ((∀ e ∈ es, ∀ a ∈ e.accesses t, ∀ i ∈ a.indices, i.fixed?.isSome = true) ∧
      (∀ e ∈ es, ∀ a ∈ e.accesses t, ∀ i ∈ a.indices, t.stride? i.dim = none) ∧
      (∀ e ∈ es, ∀ a ∈ e.accesses t, ∀ f ∈ es, ∀ b ∈ f.accesses t, a.tensor = b.tensor →
        a.roots t = b.roots t) ∧
      ∀ e ∈ es, ∀ r ∈ e.roots t, r ∈ e.write.roots t)
    ⟨fun ⟨h₁, h₂, h₃, h₄⟩ => ⟨h₁, h₂, h₃, h₄⟩, fun ⟨h₁, h₂, h₃, h₄⟩ => ⟨h₁, h₂, h₃, h₄⟩⟩

end Lowered

namespace Instance

/-- The instance touches the element through one of some accesses of its equation. -/
def Touches (t : DimTable) (es : List Lowered) (through : Lowered → List Access) (x : Instance)
    (el : Element) : Prop :=
  ∃ e ∈ es, e.index = x.equation ∧ ∃ a ∈ through e, e.element? t x.values a = some el

instance (t : DimTable) (es : List Lowered) (through : Lowered → List Access) (x : Instance)
    (el : Element) : Decidable (x.Touches t es through el) :=
  inferInstanceAs
    (Decidable (∃ e ∈ es, e.index = x.equation ∧
      ∃ a ∈ through e, e.element? t x.values a = some el))

/-- The instance writes the element. -/
abbrev Writes (t : DimTable) (es : List Lowered) (x : Instance) (el : Element) : Prop :=
  x.Touches t es (fun e => [e.write]) el

/-- The instance reads the element, on the right-hand side or in a predicate of its conditions. -/
abbrev Reads (t : DimTable) (es : List Lowered) (x : Instance) (el : Element) : Prop :=
  x.Touches t es (Lowered.reads t) el

end Instance

namespace Lowered

variable {t : DimTable} {es : List Lowered} {a b : Lowered} {us vs : List Int}

theorem elementBy?_none : a.elementBy? (fun _ => none) t us = a.element? t us := by
  have hshift : Index.shift? (fun _ => none) = Index.fixed? := by
    funext i
    cases i <;> rfl
  have hcoordinate : a.coordinateBy? (fun _ => none) t us = a.coordinate? t us := by
    funext i
    rw [coordinateBy?, hshift]
    rfl
  funext x
  rw [elementBy?, hcoordinate]
  rfl

theorem element?_eq_some {x : Access} {el : Element} (h : a.element? t us x = some el) :
    el.tensor = x.tensor ∧ x.indices.mapM (a.coordinate? t us) = some el.coordinates := by
  obtain ⟨coordinates, hc, h⟩ := Option.bind_eq_some_iff.mp h
  cases h
  exact ⟨rfl, hc⟩

/-! ## Accesses that meet -/

section Meeting

variable {worth worth' : Expr → Option Int} {first second : Access} {el : Element} {r : DimId}

theorem coordinate_of_elementBy? {x : Access} (h : a.elementBy? worth t us x = some el) {n : Nat}
    {i : Index} (hi : x.indices[n]? = some i) :
    ∃ v k, a.valueAt? t us (t.root i.dim) = some v ∧ i.shift? worth = some k ∧
      el.coordinates[n]? = some (v + k) := by
  obtain ⟨cs, hcs, h⟩ := Option.bind_eq_some_iff.mp h
  cases h
  obtain ⟨hlen, hall⟩ := List.forall₂_iff_get.mp (mapM_eq_some.mp hcs)
  obtain ⟨hn, rfl⟩ := List.getElem?_eq_some_iff.mp hi
  have hc := hall n hn (hlen ▸ hn)
  obtain ⟨v, hv, hc⟩ := Option.bind_eq_some_iff.mp hc
  obtain ⟨k, hk, hc⟩ := Option.bind_eq_some_iff.mp hc
  refine ⟨v, k, hv, hk, ?_⟩
  rw [List.getElem?_eq_getElem (hlen ▸ hn)]
  exact hc.symm

theorem exists_along {x : Access} (hr : r ∈ x.roots t) :
    ∃ i, x.along? t r = some i ∧ x.indices[(x.roots t).idxOf r]? = some i ∧
      t.root i.dim = r := by
  have hplace : x.along? t r = x.indices[(x.roots t).idxOf r]? := by
    rw [Access.along?, List.find?_eq_getElem?_findIdx, Access.roots, List.idxOf, List.findIdx_map]
    rfl
  have hlt : (x.roots t).idxOf r < x.indices.length := by
    have := List.idxOf_lt_length_of_mem hr
    rwa [Access.roots, List.length_map] at this
  refine ⟨x.indices[(x.roots t).idxOf r], ?_, List.getElem?_eq_getElem hlt, ?_⟩
  · rw [hplace, List.getElem?_eq_getElem hlt]
  · have := List.find?_some (hplace.trans (List.getElem?_eq_getElem hlt))
    exact beq_iff_eq.mp this

/-- Where the first indices along a root stand in one place, instances that touch one element point
to one place along it. -/
theorem exists_meeting (h : first.Aligned t r second)
    (hx : a.elementBy? worth t us first = some el)
    (hy : b.elementBy? worth' t vs second = some el) :
    ∃ i j v w k l, first.along? t r = some i ∧ second.along? t r = some j ∧
      a.valueAt? t us r = some v ∧ b.valueAt? t vs r = some w ∧
        i.shift? worth = some k ∧ j.shift? worth' = some l ∧ v + k = w + l := by
  obtain ⟨i, hi, hin, hir⟩ := exists_along h.first
  obtain ⟨j, hj, hjn, hjr⟩ := exists_along h.second
  obtain ⟨v, k, hv, hk, hvk⟩ := coordinate_of_elementBy? hx hin
  obtain ⟨w, l, hw, hl, hwl⟩ := coordinate_of_elementBy? hy hjn
  rw [h.place] at hvk
  exact ⟨i, j, v, w, k, l, hi, hj, hir ▸ hv, hjr ▸ hw, hk, hl,
    Option.some.inj (hvk.symm.trans hwl)⟩

theorem eq_sub_of_shiftDifference? (hworth : ∀ e f : Expr, (e == f) = true → worth e = worth f)
    {i j : Index} {d k l : Int} (h : i.shiftDifference? j = some d)
    (hi : i.shift? worth = some k) (hj : j.shift? worth = some l) : d = k - l := by
  cases i with
  | fixed _ _ =>
      cases j with
      | fixed _ _ =>
          cases hi
          cases hj
          exact (Word.checked_eq_some_iff.mp h).2.symm
      | symbolic _ _ => cases h
  | symbolic _ e =>
      cases j with
      | fixed _ _ => cases h
      | symbolic _ f =>
          simp only [Index.shiftDifference?] at h
          split at h
          · rename_i hef
            cases h
            cases hi.symm.trans ((hworth e f hef).trans hj)
            exact (Int.sub_self k).symm
          · cases h

/-- Accesses at a known distance along a root, whose first indices along it stand in one place, are
as far apart as instances that touch one element through them. -/
theorem eq_sub_of_distance? (hworth : ∀ e f : Expr, (e == f) = true → worth e = worth f)
    (h : first.Aligned t r second)
    (hx : a.elementBy? worth t us first = some el)
    (hy : b.elementBy? worth t vs second = some el) {unindexed : Option Int} {d : Int}
    (hd : first.distance? t unindexed r second = some d) :
    ∃ v w, a.valueAt? t us r = some v ∧ b.valueAt? t vs r = some w ∧ d = w - v := by
  obtain ⟨i, j, v, w, k, l, hi, hj, hv, hw, hk, hl, heq⟩ := exists_meeting h hx hy
  refine ⟨v, w, hv, hw, ?_⟩
  rw [Access.distance?, hi, hj] at hd
  simp only [Index.difference?] at hd
  split at hd
  · have := eq_sub_of_shiftDifference? hworth hd hk hl
    omega
  · cases hd

theorem valueAt?_eq_of_elementBy? {x : Access} (hu : a.elementBy? worth t us x = some el)
    (hv : a.elementBy? worth t vs x = some el) (hr : r ∈ x.roots t) :
    a.valueAt? t us r = a.valueAt? t vs r := by
  obtain ⟨i, j, v, w, k, l, hi, hj, hv, hw, hk, hl, heq⟩ := exists_meeting ⟨hr, hr, rfl⟩ hu hv
  obtain rfl : i = j := Option.some.inj (hi.symm.trans hj)
  obtain rfl : k = l := Option.some.inj (hk.symm.trans hl)
  obtain rfl : v = w := by omega
  exact hv.trans hw.symm

theorem valueAt?_eq_of_element? {x : Access} (hu : a.element? t us x = some el)
    (hv : a.element? t vs x = some el) (hr : r ∈ x.roots t) :
    a.valueAt? t us r = a.valueAt? t vs r := by
  rw [← elementBy?_none] at hu hv
  exact valueAt?_eq_of_elementBy? hu hv hr

end Meeting

/-! ## Distances in a regular program -/

/-- Accesses that touch one element are as far apart along a root as their instances are. -/
theorem Regular.distance?_of_element? (h : Regular t es) (ha : a ∈ es) (hb : b ∈ es)
    {first second : Access} (hf : first ∈ a.accesses t) (hs : second ∈ b.accesses t)
    {el : Element} (hx : a.element? t us first = some el) (hy : b.element? t vs second = some el)
    {r : DimId} (hr : r ∈ first.roots t) (unindexed : Option Int) :
    ∃ v w k l, a.valueAt? t us r = some v ∧ b.valueAt? t vs r = some w ∧
      k ∈ first.shifts ∧ l ∈ second.shifts ∧ k - l = w - v ∧
        first.distance? t unindexed r second = Word.checked (w - v) := by
  have htensor := (element?_eq_some hx).1.symm.trans (element?_eq_some hy).1
  have hroots := h.aligned a ha first hf b hb second hs htensor
  rw [← elementBy?_none] at hx hy
  obtain ⟨i, j, v, w, k, l, hi, hj, hv, hw, hk, hl, heq⟩ :=
    exists_meeting ⟨hr, hroots ▸ hr, by rw [hroots]⟩ hx hy
  have hif := List.mem_of_find?_eq_some hi
  have hjs := List.mem_of_find?_eq_some hj
  have hd : k - l = w - v := by omega
  have hfixed : i.fixed? = some k ∧ j.fixed? = some l ∧
      i.shiftDifference? j = Word.checked (k - l) := by
    cases i with
    | symbolic _ _ => cases hk
    | fixed _ _ =>
        cases j with
        | symbolic _ _ => cases hl
        | fixed _ _ =>
            cases hk
            cases hl
            exact ⟨rfl, rfl, rfl⟩
  refine ⟨v, w, k, l, hv, hw, List.mem_filterMap.mpr ⟨i, hif, hfixed.1⟩,
    List.mem_filterMap.mpr ⟨j, hjs, hfixed.2.1⟩, hd, ?_⟩
  rw [Access.distance?, hi, hj, ← hd]
  simp only [Index.difference?, h.unstrided a ha first hf i hif, h.unstrided b hb second hs j hjs,
    if_true, hfixed.2.2]

/-! ## Where two instances part -/

theorem commonRoots_of_prefix {outer : List DimId} {root : DimId}
    (ha : ∃ inner, a.roots t = outer ++ root :: inner)
    (hb : ∃ inner, b.roots t = outer ++ root :: inner) :
    ∃ inner, commonRoots t a b = outer ++ root :: inner := by
  obtain ⟨inner, hi⟩ := ha
  obtain ⟨inner', hi'⟩ := hb
  have hall : ∀ r ∈ outer ++ [root], (b.roots t).contains r = true := by
    intro r hr
    rw [List.contains_iff_mem, hi', List.append_cons]
    exact List.mem_append_left _ hr
  refine ⟨inner.filter fun r => (b.roots t).contains r, ?_⟩
  rw [commonRoots, hi, List.append_cons, List.filter_append, List.filter_eq_self.mpr hall,
    List.append_assoc]
  rfl

/-- The loops of an equation begin with those over some roots and then one more, and the values
with some values and one more. -/
structure Passes (t : DimTable) (e : Lowered) (outer : List DimId) (root : DimId)
    (us : List Int) (v : Int) (values : List Int) : Prop where
  length : us.length = outer.length
  roots : ∃ inner, e.roots t = outer ++ root :: inner
  values : ∃ rest, values = us ++ v :: rest

namespace Passes

variable {outer : List DimId} {root : DimId} {v w : Int} {xs ys : List Int}

theorem valueAt?_outer (h : a.Passes t outer root us v xs) {r : DimId} (hr : r ∈ outer) :
    a.valueAt? t xs r = us[outer.idxOf r]? := by
  obtain ⟨inner, hi⟩ := h.roots
  obtain ⟨rest, rfl⟩ := h.values
  have hlt : outer.idxOf r < us.length := h.length ▸ List.idxOf_lt_length_of_mem hr
  rw [valueAt?, hi, List.idxOf_append, if_pos hr, List.getElem?_append_left hlt]

theorem valueAt?_root (h : a.Passes t outer root us v xs) (hn : (a.roots t).Nodup) :
    a.valueAt? t xs root = some v := by
  obtain ⟨inner, hi⟩ := h.roots
  obtain ⟨rest, rfl⟩ := h.values
  have hnew : root ∉ outer := by
    rw [hi] at hn
    intro hm
    exact (List.nodup_append.mp hn).2.2 root hm root List.mem_cons_self rfl
  rw [valueAt?, hi, List.idxOf_append, if_neg hnew, List.idxOf_cons_self, Nat.zero_add, ← h.length,
    List.getElem?_append_right (Nat.le_refl _), Nat.sub_self, List.getElem?_cons_zero]

/-- Along a loop outside, accesses that touch one element are at distance zero where their distance
is known. -/
theorem distance?_outer (h : a.Passes t outer root us v xs) (h' : b.Passes t outer root us w ys)
    {worth : Expr → Option Int} (hworth : ∀ e f : Expr, (e == f) = true → worth e = worth f)
    {first second : Access} {el : Element} (hx : a.elementBy? worth t xs first = some el)
    (hy : b.elementBy? worth t ys second = some el) {r : DimId} (hr : r ∈ outer)
    (hplace : first.Aligned t r second) (unindexed : Option Int) :
    first.distance? t unindexed r second = some 0 ∨ first.distance? t unindexed r second = none := by
  cases hd : first.distance? t unindexed r second with
  | none => exact Or.inr rfl
  | some d =>
      obtain ⟨v', w', hv', hw', rfl⟩ := eq_sub_of_distance? hworth hplace hx hy hd
      rw [h.valueAt?_outer hr, ← h'.valueAt?_outer hr, hw'] at hv'
      cases hv'
      exact Or.inl (congrArg some (Int.sub_self _))

theorem mem_roots (h : a.Passes t outer root us v xs) : ∀ r ∈ outer ++ [root], r ∈ a.roots t := by
  obtain ⟨inner, hi⟩ := h.roots
  intro r hr
  rw [hi, List.append_cons]
  exact List.mem_append_left _ hr

theorem commonRoots_eq (h : a.Passes t outer root us v xs) (h' : b.Passes t outer root us w ys) :
    ∃ inner, commonRoots t a b = outer ++ root :: inner :=
  commonRoots_of_prefix h.roots h'.roots

/-- Two instances that touch one element and part at a loop, having agreed on all loops outside,
are a dependence carried by that loop. -/
theorem carrier_of_element? (h : a.Passes t outer root us v xs) (h' : b.Passes t outer root us w ys)
    (hreg : Regular t es) (ha : a ∈ es) (hb : b ∈ es) (hna : (a.roots t).Nodup)
    (hnb : (b.roots t).Nodup) {p : AccessPair} (hf : p.first ∈ a.accesses t)
    (hs : p.second ∈ b.accesses t) {el : Element} (hx : a.element? t xs p.first = some el)
    (hy : b.element? t ys p.second = some el) (hin : ∀ r ∈ outer ++ [root], r ∈ p.first.roots t)
    (hvw : v ≠ w) (unindexed : Option Int) (inner : List DimId) :
    ∃ k ∈ p.first.shifts, ∃ l ∈ p.second.shifts, k - l = w - v ∧
      p.carrier t unindexed (outer ++ root :: inner) =
        if Word.Fits (w - v) then p.carrierAt t root (w - v) else .ok (.unknown root) := by
  have hpre : ∀ r ∈ outer, p.first.distance? t unindexed r p.second = some 0 := by
    intro r hr
    obtain ⟨x, y, _, _, hx, hy, _, _, _, hd⟩ := hreg.distance?_of_element? ha hb hf hs hx hy
      (hin r (List.mem_append_left _ hr)) unindexed
    rw [h.valueAt?_outer hr] at hx
    rw [h'.valueAt?_outer hr, hx] at hy
    cases hy
    rw [hd, Int.sub_self]
    rfl
  obtain ⟨x, y, k, l, hx, hy, hk, hl, hkl, hd⟩ := hreg.distance?_of_element? ha hb hf hs hx hy
    (hin root (List.mem_append_right _ (List.mem_singleton.mpr rfl))) unindexed
  cases (h.valueAt?_root hna).symm.trans hx
  cases (h'.valueAt?_root hnb).symm.trans hy
  refine ⟨k, hk, l, hl, hkl, ?_⟩
  rw [AccessPair.carrier_append _ hpre]
  by_cases hfits : Word.Fits (w - v)
  · rw [if_pos hfits]
    exact AccessPair.carrier_of_ne inner (by omega) (hd.trans (Word.checked_of_fits hfits))
  · rw [if_neg hfits]
    exact AccessPair.carrier_of_unknown inner (hd.trans (if_neg hfits))

end Passes

end Lowered

end LoopNest
