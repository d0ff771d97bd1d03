import LoopNest.Level
/-!
# What edges demand of a loop

A demand collects the directions of edges along one root, so it is decided by which edges there
are (`Demand.forward_ofEdges` and its companions) and the demand of two groups of equations
together is put together from the demands of each and of the edges between them
(`Demand.among_append`).  `Fusible g members root` says that one loop over `root` may hold all the
equations `members`; it is what clusters and loops are checked for as they grow.
-/

namespace LoopNest

namespace Edge

variable {e : Edge} {as bs : List Nat}

theorem isWithin_append :
    e.isWithin (as ++ bs) = true ↔
      e.isWithin as = true ∨ e.isWithin bs = true ∨ e.connects as bs = true := by
  simp only [isWithin, connects, Bool.and_eq_true, Bool.or_eq_true, List.contains_iff_mem,
    List.mem_append]
  constructor
  · rintro ⟨ha | ha, hb | hb⟩
    · exact Or.inl ⟨ha, hb⟩
    · exact Or.inr (Or.inr (Or.inl ⟨ha, hb⟩))
    · exact Or.inr (Or.inr (Or.inr ⟨ha, hb⟩))
    · exact Or.inr (Or.inl ⟨ha, hb⟩)
  · rintro (⟨ha, hb⟩ | ⟨ha, hb⟩ | ⟨ha, hb⟩ | ⟨ha, hb⟩)
    · exact ⟨Or.inl ha, Or.inl hb⟩
    · exact ⟨Or.inr ha, Or.inr hb⟩
    · exact ⟨Or.inl ha, Or.inr hb⟩
    · exact ⟨Or.inr ha, Or.inl hb⟩

theorem isSelf_of_isWithin_singleton {i : Nat} (h : e.isWithin [i] = true) : e.isSelf = true := by
  simp only [isWithin, Bool.and_eq_true, List.contains_iff_mem, List.mem_singleton] at h
  simp [isSelf, h.1, h.2]

end Edge

theorem Carrier.exists_direction {c : Carrier} {root : DimId} (h : c.root? = some root) :
    ∃ d, c.direction? = some d := by
  cases c with
  | independent => cases h
  | carried r d => exact ⟨d, rfl⟩
  | unknown r => exact ⟨.forward, rfl⟩

namespace Demand

variable {root : DimId}

/-! ## Demands by their edges -/

theorem part_ofEdges (part : Demand → Bool) (hnone : part none = false)
    (hmerge : ∀ a b, part (a.merge b) = (part a || part b)) (edges : List Edge) :
    part (ofEdges root edges) = true ↔
      ∃ e ∈ edges, e.carrier.root? = some root ∧ part (ofCarrier e.carrier) = true := by
  have fold : ∀ (xs : List Edge) (d : Demand),
      part (xs.foldl (fun demand e => demand.merge (ofCarrier e.carrier)) d) = true ↔
        part d = true ∨ ∃ e ∈ xs, part (ofCarrier e.carrier) = true := by
    intro xs
    induction xs with
    | nil => simp
    | cons x xs ih =>
        intro d
        rw [List.foldl_cons, ih, hmerge, Bool.or_eq_true, or_assoc]
        simp
  rw [ofEdges]
  rw [fold, hnone]
  simp [and_assoc]

theorem forward_ofEdges {edges : List Edge} :
    (ofEdges root edges).forward = true ↔
      ∃ e ∈ edges, e.carrier.root? = some root ∧ e.carrier.direction? = some .forward := by
  rw [part_ofEdges forward rfl (fun _ _ => rfl)]
  simp [ofCarrier]

theorem backward_ofEdges {edges : List Edge} :
    (ofEdges root edges).backward = true ↔
      ∃ e ∈ edges, e.carrier.root? = some root ∧ e.carrier.direction? = some .backward := by
  rw [part_ofEdges backward rfl (fun _ _ => rfl)]
  simp [ofCarrier]

theorem unknown_ofEdges {edges : List Edge} :
    (ofEdges root edges).unknown = true ↔
      ∃ e ∈ edges, e.carrier.root? = some root ∧ e.carrier.isUnknown = true := by
  rw [part_ofEdges unknown rfl (fun _ _ => rfl)]
  simp [ofCarrier]

theorem eq_of_parts {a b : Demand} (hf : a.forward = true ↔ b.forward = true)
    (hb : a.backward = true ↔ b.backward = true) (hu : a.unknown = true ↔ b.unknown = true) :
    a = b := by
  cases a
  cases b
  simp only [← Bool.eq_iff_iff] at hf hb hu
  simp [hf, hb, hu]

theorem ofEdges_congr {xs ys : List Edge}
    (h : ∀ e, e.carrier.root? = some root → (e ∈ xs ↔ e ∈ ys)) :
    ofEdges root xs = ofEdges root ys := by
  have key : ∀ Q : Edge → Prop, (∃ e ∈ xs, e.carrier.root? = some root ∧ Q e) ↔
      ∃ e ∈ ys, e.carrier.root? = some root ∧ Q e := fun Q =>
    exists_congr fun e =>
      ⟨fun ⟨hm, hr, hq⟩ => ⟨(h e hr).mp hm, hr, hq⟩, fun ⟨hm, hr, hq⟩ => ⟨(h e hr).mpr hm, hr, hq⟩⟩
  apply eq_of_parts
  · rw [forward_ofEdges, forward_ofEdges]
    exact key _
  · rw [backward_ofEdges, backward_ofEdges]
    exact key _
  · rw [unknown_ofEdges, unknown_ofEdges]
    exact key _

theorem ofEdges_filter_root (edges : List Edge) :
    ofEdges root (edges.filter fun e => e.carrier.root? == some root) = ofEdges root edges :=
  ofEdges_congr fun e hr => by simp [hr]

theorem ofEdges_append (xs ys : List Edge) :
    ofEdges root (xs ++ ys) = (ofEdges root xs).merge (ofEdges root ys) := by
  apply eq_of_parts
  · simp only [merge, Bool.or_eq_true, forward_ofEdges, List.mem_append, or_and_right, exists_or]
  · simp only [merge, Bool.or_eq_true, backward_ofEdges, List.mem_append, or_and_right, exists_or]
  · simp only [merge, Bool.or_eq_true, unknown_ofEdges, List.mem_append, or_and_right, exists_or]

theorem isMade_ofEdges {edges : List Edge} :
    (ofEdges root edges).isMade = true ↔ ∃ e ∈ edges, e.carrier.root? = some root := by
  rw [isMade, Bool.or_eq_true, forward_ofEdges, backward_ofEdges]
  constructor
  · rintro (⟨e, he, hr, _⟩ | ⟨e, he, hr, _⟩) <;> exact ⟨e, he, hr⟩
  · rintro ⟨e, he, hr⟩
    obtain ⟨d, hd⟩ := Carrier.exists_direction hr
    cases d with
    | forward => exact Or.inl ⟨e, he, hr, hd⟩
    | backward => exact Or.inr ⟨e, he, hr, hd⟩

theorem isSatisfiable_ofEdges_eq_false {edges : List Edge} :
    (ofEdges root edges).isSatisfiable = false ↔
      (∃ e ∈ edges, e.carrier.root? = some root ∧ e.carrier.direction? = some .forward) ∧
        ∃ e ∈ edges, e.carrier.root? = some root ∧ e.carrier.direction? = some .backward := by
  rw [isSatisfiable, Bool.not_eq_false', Bool.and_eq_true, forward_ofEdges, backward_ofEdges]

theorem isSatisfiable_ofEdges {edges : List Edge}
    (h : ∀ x ∈ edges, ∀ y ∈ edges, x.carrier.root? = some root → y.carrier.root? = some root →
      x.carrier.direction? = y.carrier.direction?) :
    (ofEdges root edges).isSatisfiable = true := by
  rw [← Bool.not_eq_false, isSatisfiable_ofEdges_eq_false]
  rintro ⟨⟨x, hx, hxr, hxd⟩, ⟨y, hy, hyr, hyd⟩⟩
  have := h x hx y hy hxr hyr
  rw [hxd, hyd] at this
  cases this

theorem direction?_ofEdges {edges : List Edge} (hs : (ofEdges root edges).isSatisfiable = true)
    {e : Edge} (he : e ∈ edges) (hr : e.carrier.root? = some root) :
    (ofEdges root edges).direction? = e.carrier.direction? := by
  obtain ⟨d, hd⟩ := Carrier.exists_direction hr
  rw [isSatisfiable, Bool.not_eq_true', Bool.and_eq_false_iff] at hs
  rw [hd]
  cases d with
  | forward =>
      have hf := forward_ofEdges.mpr ⟨e, he, hr, hd⟩
      have hb := hs.resolve_left (by simp [hf])
      simp [direction?, hf, hb]
  | backward =>
      have hb := backward_ofEdges.mpr ⟨e, he, hr, hd⟩
      have hf := hs.resolve_right (by simp [hb])
      simp [direction?, hf, hb]

/-! ## Demands among equations -/

variable {g : DependenceGraph} {as bs : List Nat}

theorem among_append :
    among g (as ++ bs) root =
      ((among g as root).merge (among g bs root)).merge (ofEdges root (g.between as bs)) := by
  unfold among
  rw [← ofEdges_append, ← ofEdges_append]
  refine ofEdges_congr ?_
  intro e _
  simp only [DependenceGraph.within, DependenceGraph.between, List.mem_append, List.mem_filter,
    Edge.isWithin_append, and_or_left, or_assoc]

theorem mem_within {members : List Nat} {e : Edge} :
    e ∈ g.within members ↔ e ∈ g.edges ∧ e.isWithin members = true :=
  List.mem_filter

end Demand

/-! ## Fusible equations -/

/-- One loop over `root` may hold all of `members`: the distance between two of them is known,
and one direction suits all. -/
structure Fusible (g : DependenceGraph) (members : List Nat) (root : DimId) : Prop where
  known : ∀ e ∈ g.edges, e.isSelf = false → e.carrier = .unknown root →
    e.isWithin members = false
  satisfiable : (Demand.among g members root).isSatisfiable = true

namespace Fusible

variable {g : DependenceGraph} {root : DimId} {as bs : List Nat}

/-- Two groups are fusible together if each is, the edges between them are known, and one
direction suits all. -/
theorem append (ha : Fusible g as root) (hb : Fusible g bs root)
    (hbetween : ∀ e ∈ g.between as bs, e.carrier ≠ .unknown root)
    (hs : (Demand.among g (as ++ bs) root).isSatisfiable = true) :
    Fusible g (as ++ bs) root := by
  refine ⟨fun e he hself hc => ?_, hs⟩
  rw [Bool.eq_false_iff, Ne, Edge.isWithin_append]
  rintro (hw | hw | hw)
  · exact absurd hw (by simp [ha.known e he hself hc])
  · exact absurd hw (by simp [hb.known e he hself hc])
  · exact hbetween e (List.mem_filter.mpr ⟨he, hw⟩) hc

theorem known_singleton (g : DependenceGraph) (root : DimId) (i : Nat) :
    ∀ e ∈ g.edges, e.isSelf = false → e.carrier = .unknown root → e.isWithin [i] = false := by
  intro e _ hself _
  rw [Bool.eq_false_iff]
  intro hw
  exact absurd (Edge.isSelf_of_isWithin_singleton hw) (by simp [hself])

/-- Inside fusible equations an edge along the root has the direction of the whole. -/
theorem direction?_eq (h : Fusible g as root) {e : Edge} (he : e ∈ g.edges)
    (hw : e.isWithin as = true) (hr : e.carrier.root? = some root) :
    (Demand.among g as root).direction? = e.carrier.direction? :=
  Demand.direction?_ofEdges h.satisfiable (Demand.mem_within.mpr ⟨he, hw⟩) hr

end Fusible

/-! ## Levels -/

namespace Level

variable {level : Level} {demand : Demand} {vectorize : Bool}

theorem judge_of_timeLike (h : level.timeLike = true) :
    (level.judge demand vectorize).1 = .forward ∧
      (level.judge demand vectorize).2.sequential = true ∧
      (level.judge demand vectorize).2.parallel = false := by
  simp [judge, h]

theorem judge_of_isMade (h : level.timeLike = false) (hm : demand.isMade = true) :
    (level.judge demand vectorize).1 = demand.direction?.getD .forward ∧
      (level.judge demand vectorize).2.sequential = true ∧
      (level.judge demand vectorize).2.parallel = false := by
  simp [judge, h, hm]

theorem judge_of_not_isMade (h : level.timeLike = false) (hm : demand.isMade = false) :
    (level.judge demand vectorize).1 = .forward := by
  simp [judge, h, hm]

end Level

end LoopNest
