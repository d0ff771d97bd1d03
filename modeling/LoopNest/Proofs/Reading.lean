import LoopNest.Proofs.Conflict
import LoopNest.Proofs.EdgeOrder
/-!
# Statements that conflict on a tensor

Two equations conflict on a tensor if one writes it and the other writes or reads it, on the
right-hand side or in a predicate of its conditions, at any depth of the displacements of an access
too.  `Expr.Occurs` says what it is for an expression to be inside another, and the walk that
gathers the reads misses none (`Expr.reads_iff`).  So every conflict leaves an edge, and the
statements of conflicting equations stand in the order of declaration (`precedes_of_collision`).

Displacements of the written access are the one place that no walk visits: what they read is free
to move (`not_precedes_of_readsToWrite_scatter`).
-/

namespace LoopNest

open Lowered

/-! ## Expressions inside expressions -/

namespace Expr

/-- The expressions right inside an expression. -/
def parts : Expr → List Expr
  | .access _ is => is.filterMap Index.symbolic?
  | .element _ es | .and es | .call _ es => es
  | .neg e => [e]
  | .binary _ a b | .compare _ a b => [a, b]
  | .int _ | .float _ | .symbol _ | .dim _ => []

/-- The first expression is the second or stands somewhere inside it. -/
inductive Occurs (f : Expr) : Expr → Prop where
  | here : Occurs f f
  | inside {e part : Expr} : part ∈ e.parts → Occurs f part → Occurs f e

/-- The tensor is read somewhere in the expression, displacements of accesses included. -/
def Reads (e : Expr) (tensor : String) : Prop := ∃ is, Occurs (.access tensor is) e

/-- What stands inside a folded conjunction stands inside one of the terms, unless it is the
conjunction. -/
theorem occurs_all {es : List Expr} {f : Expr} (h : Occurs f (Expr.all es)) :
    (∃ terms, f = .and terms) ∨ ∃ e ∈ es, Occurs f e := by
  have hterms : ∀ e ∈ es.flatMap conjuncts, Occurs f e → ∃ e ∈ es, Occurs f e := by
    intro e he hf
    obtain ⟨g, hg, he⟩ := List.mem_flatMap.mp he
    refine ⟨g, hg, ?_⟩
    unfold conjuncts at he
    split at he
    · exact .inside he hf
    · exact List.mem_singleton.mp he ▸ hf
  unfold Expr.all at h
  split at h
  · rename_i e heq
    exact Or.inr (hterms e (heq ▸ List.mem_cons_self) h)
  · rcases h with _ | ⟨hp, hf⟩
    · exact Or.inl ⟨_, rfl⟩
    · exact Or.inr (hterms _ hp hf)

theorem nodesOf_displacements (is : List Index) :
    Index.nodesOf is = (is.filterMap Index.symbolic?).flatMap nodes := by
  induction is with
  | nil => rfl
  | cons i is ih =>
      rw [Index.nodesOf, ih]
      cases i <;> rfl

theorem nodes_eq_cons (e : Expr) : e.nodes = e :: e.parts.flatMap nodes := by
  cases e with
  | access tensor is => rw [nodes, parts, nodesOf_displacements]
  | element tensor es | and es | call f es => rw [nodes, parts, nodesOf_eq_flatMap]
  | neg e => rw [nodes, parts, List.flatMap_singleton]
  | binary op a b | compare op a b =>
      rw [nodes, parts, List.flatMap_cons, List.flatMap_singleton]
  | int _ | float _ | symbol _ | dim _ => rfl

theorem mem_nodes_of_occurs {e f : Expr} (h : Occurs f e) : f ∈ e.nodes := by
  induction h with
  | here => exact mem_nodes_self f
  | inside hp _ ih =>
      rw [nodes_eq_cons]
      exact List.mem_cons_of_mem _ (List.mem_flatMap.mpr ⟨_, hp, ih⟩)

theorem sizeOf_lt_of_mem_parts {e part : Expr} (h : part ∈ e.parts) : sizeOf part < sizeOf e := by
  cases e with
  | access tensor is =>
      obtain ⟨i, hi, hs⟩ := List.mem_filterMap.mp h
      have hlt := List.sizeOf_lt_of_mem hi
      cases i with
      | fixed d k => cases hs
      | symbolic d shift =>
          cases hs
          simp only [Index.symbolic.sizeOf_spec] at hlt
          simp only [access.sizeOf_spec]
          omega
  | element tensor es | and es | call f es =>
      have hlt := List.sizeOf_lt_of_mem (show part ∈ es from h)
      simp only [element.sizeOf_spec, and.sizeOf_spec, call.sizeOf_spec]
      omega
  | neg a =>
      rw [List.mem_singleton.mp h, neg.sizeOf_spec]
      omega
  | binary op a b | compare op a b =>
      simp only [binary.sizeOf_spec, compare.sizeOf_spec]
      rcases List.mem_cons.mp h with rfl | h
      · omega
      · rw [List.mem_singleton.mp h]
        omega
  | int _ | float _ | symbol _ | dim _ => cases h

theorem mem_nodes_iff (e : Expr) {f : Expr} : f ∈ e.nodes ↔ Occurs f e := by
  refine ⟨fun h => ?_, mem_nodes_of_occurs⟩
  rw [nodes_eq_cons] at h
  rcases List.mem_cons.mp h with rfl | h
  · exact .here
  · obtain ⟨part, hp, hf⟩ := List.mem_flatMap.mp h
    exact .inside hp ((mem_nodes_iff part).mp hf)
termination_by sizeOf e
decreasing_by exact sizeOf_lt_of_mem_parts hp

/-- A tensor is read in an expression if an access to it is gathered. -/
theorem reads_iff {e : Expr} {tensor : String} :
    e.Reads tensor ↔ ∃ a ∈ e.accesses, a.tensor = tensor := by
  constructor
  · rintro ⟨is, h⟩
    exact ⟨⟨tensor, is⟩, List.mem_filterMap.mpr ⟨_, (mem_nodes_iff e).mpr h, rfl⟩, rfl⟩
  · rintro ⟨a, ha, rfl⟩
    obtain ⟨node, hn, ha⟩ := List.mem_filterMap.mp ha
    cases node with
    | access tensor is =>
        cases ha
        exact ⟨is, (mem_nodes_iff e).mp hn⟩
    | _ => cases ha

instance (e : Expr) (tensor : String) : Decidable (e.Reads tensor) :=
  decidable_of_iff _ reads_iff.symm

end Expr

/-! ## Equations that read a tensor -/

namespace Lowered

/-- The equation reads the tensor on its right-hand side or in a predicate of its conditions. -/
def Reads (t : DimTable) (e : Lowered) (tensor : String) : Prop :=
  e.equation.rhs.Reads tensor ∨
    ∃ c ∈ e.conditions, ∃ predicate ∈ (t.get c).predicate?, predicate.Reads tensor

/-- A displacement of the written access reads the tensor. -/
def ReadsToWrite (e : Lowered) (tensor : String) : Prop :=
  ∃ i ∈ e.write.indices, ∃ shift ∈ i.symbolic?, shift.Reads tensor

instance (e : Lowered) (tensor : String) : Decidable (e.ReadsToWrite tensor) :=
  inferInstanceAs (Decidable (∃ i ∈ e.write.indices, ∃ shift ∈ i.symbolic?, shift.Reads tensor))

theorem reads_iff {t : DimTable} {e : Lowered} {tensor : String} :
    e.Reads t tensor ↔ ∃ a ∈ e.reads t, a.tensor = tensor := by
  constructor
  · rintro (h | ⟨c, hc, predicate, hp, h⟩)
    · obtain ⟨a, ha, ht⟩ := Expr.reads_iff.mp h
      exact ⟨a, List.mem_append_left _ ha, ht⟩
    · obtain ⟨a, ha, ht⟩ := Expr.reads_iff.mp h
      refine ⟨a, List.mem_append_right _ (List.mem_flatMap.mpr ⟨c, hc, ?_⟩), ht⟩
      rw [hp]
      exact ha
  · rintro ⟨a, ha, ht⟩
    rcases List.mem_append.mp ha with ha | ha
    · exact Or.inl (Expr.reads_iff.mpr ⟨a, ha, ht⟩)
    · obtain ⟨c, hc, ha⟩ := List.mem_flatMap.mp ha
      cases hp : (t.get c).predicate? with
      | none =>
          rw [hp] at ha
          cases ha
      | some predicate =>
          rw [hp] at ha
          exact Or.inr ⟨c, hc, predicate, hp, Expr.reads_iff.mpr ⟨a, ha, ht⟩⟩

/-- One of the equations writes a tensor that the other writes or reads. -/
def Collides (t : DimTable) (a b : Lowered) : Prop :=
  a.write.tensor = b.write.tensor ∨ b.Reads t a.write.tensor ∨ a.Reads t b.write.tensor

instance (t : DimTable) (e : Lowered) (tensor : String) : Decidable (e.Reads t tensor) :=
  inferInstanceAs (Decidable (e.equation.rhs.Reads tensor ∨
    ∃ c ∈ e.conditions, ∃ predicate ∈ (t.get c).predicate?, predicate.Reads tensor))

theorem Collides.exists_compares {t : DimTable} {a b : Lowered} (h : a.Collides t b)
    (hab : a.index < b.index) : ∃ q, Compares t a b q := by
  rcases h with ht | h | h
  · obtain ⟨_, hq⟩ := Lowered.exists_compares hab (write_mem_accesses t a)
      (write_mem_accesses t b) ht (Or.inl rfl)
    exact ⟨_, hq⟩
  · obtain ⟨read, hr, ht⟩ := reads_iff.mp h
    obtain ⟨_, hq⟩ := Lowered.exists_compares hab (write_mem_accesses t a)
      (mem_accesses_of_mem_reads hr) ht.symm (Or.inl rfl)
    exact ⟨_, hq⟩
  · obtain ⟨read, hr, ht⟩ := reads_iff.mp h
    obtain ⟨_, hq⟩ := Lowered.exists_compares hab (mem_accesses_of_mem_reads hr)
      (write_mem_accesses t b) ht (Or.inr rfl)
    exact ⟨_, hq⟩

end Lowered

/-! ## The order of their statements -/

theorem Plan.Sound.precedes_of_collides {p : Plan} {program : Program} (h : p.Sound program)
    {a b : Lowered} (ha : a ∈ p.equations) (hb : b ∈ p.equations) (hab : a.index < b.index)
    (hc : a.Collides p.dims b) :
    Precedes (p.tree.statements.map Statement.equation) a.index b.index := by
  obtain ⟨q, hq⟩ := hc.exists_compares hab
  obtain ⟨hsource, hsink, _⟩ := hq.spec
  obtain ⟨c, _, hedge⟩ := hq.exists_edge h.graph h.numbered ha hb
  have hne : a ≠ b := fun heq => Nat.lt_irrefl _ (heq ▸ hab)
  have hordered :=
    (h.honours (hedge (Or.inl hne))).ordered (hq.isSelf_toEdge (Nat.ne_of_lt hab) c)
  rwa [show (q.toEdge c).source = a.index from hsource,
    show (q.toEdge c).sink = b.index from hsink] at hordered

/-- Statements of equations that collide stand in the order of declaration. -/
theorem precedes_of_collision {program : Program} {options : Options} {tree : ScheduleTree}
    {es : List Lowered} (hschedule : (program.schedule options).result = .ok tree)
    (hlower : program.lower.result = .ok es) {a b : Lowered} (ha : a ∈ es) (hb : b ∈ es)
    (hab : a.index < b.index) (hc : a.Collides program.dims b) :
    Precedes (tree.statements.map Statement.equation) a.index b.index := by
  obtain ⟨p, hp, _, rfl, rfl⟩ := Program.exists_plan_of_schedule hschedule hlower
  rw [← hp.dims] at hc
  exact hp.precedes_of_collides ha hb hab hc

/-- One equation along `x`, one along `y` that writes the tensor `idx`, and a third. -/
def indirect (target : Access) (source : Expr) : Program where
  dims := (do
    let (t, _) ← DimTable.empty.space "x" (some 2)
    let (t, _) ← t.space "y" (some 2)
    return t : Except ModelError DimTable).toOption.getD .empty
  scalars := []
  equations :=
    [⟨⟨"p", [.fixed ⟨0⟩ 0]⟩, .int 0, [], []⟩, ⟨⟨"idx", [.fixed ⟨1⟩ 0]⟩, .int 1, [], []⟩,
      ⟨target, source, [], []⟩]

/-- The third equation reads `v` at points that `idx` displaces. -/
def gather : Program :=
  indirect ⟨"u", [.fixed ⟨0⟩ 0]⟩ (.access "v" [.symbolic ⟨0⟩ (.access "idx" [.fixed ⟨0⟩ 0])])

/-- The third equation writes `u` at points that `idx` displaces. -/
def scatter : Program :=
  indirect ⟨"u", [.symbolic ⟨0⟩ (.access "idx" [.fixed ⟨0⟩ 0])]⟩ (.int 2)

theorem precedes_of_collision_gather :
    ∃ tree es, (gather.schedule default).result = .ok tree ∧ gather.lower.result = .ok es ∧
      ∃ a ∈ es, ∃ b ∈ es, a.index = 1 ∧ b.index = 2 ∧ b.Reads gather.dims a.write.tensor ∧
        Precedes (tree.statements.map Statement.equation) 1 2 := by
  have facts : ∃ tree es, (gather.schedule default).result = .ok tree ∧
      gather.lower.result = .ok es ∧ ∃ a ∈ es, ∃ b ∈ es, a.index = 1 ∧ b.index = 2 ∧
        b.Reads gather.dims a.write.tensor :=
    ⟨_, _, rfl, rfl, by decide +kernel⟩
  obtain ⟨tree, es, ht, hl, a, ha, b, hb, ha1, hb2, hreads⟩ := facts
  have hab : a.index < b.index := by
    rw [ha1, hb2]
    exact Nat.lt_succ_self 1
  have hp := precedes_of_collision ht hl ha hb hab (Or.inr (Or.inl hreads))
  rw [ha1, hb2] at hp
  exact ⟨tree, es, ht, hl, a, ha, b, hb, ha1, hb2, hreads, hp⟩

/-- What a displacement of the written access reads does not keep its place. -/
theorem not_precedes_of_readsToWrite_scatter :
    ∃ tree es, (scatter.schedule default).result = .ok tree ∧ scatter.lower.result = .ok es ∧
      ∃ a ∈ es, ∃ b ∈ es, a.index < b.index ∧ b.ReadsToWrite a.write.tensor ∧
        ¬Precedes (tree.statements.map Statement.equation) a.index b.index := by
  have facts : ∃ tree es, (scatter.schedule default).result = .ok tree ∧
      scatter.lower.result = .ok es ∧
      tree.statements.map Statement.equation = [0, 2, 1] ∧
      ∃ a ∈ es, ∃ b ∈ es, a.index = 1 ∧ b.index = 2 ∧ b.ReadsToWrite a.write.tensor :=
    ⟨_, _, rfl, rfl, rfl, by decide +kernel⟩
  obtain ⟨tree, es, ht, hl, horder, a, ha, b, hb, ha1, hb2, hreads⟩ := facts
  refine ⟨tree, es, ht, hl, a, ha, b, hb, ?_, hreads, ?_⟩
  · rw [ha1, hb2]
    exact Nat.lt_succ_self 1
  · intro hp
    rw [horder, ha1, hb2] at hp
    exact absurd (hp.2.2 2 1 rfl rfl) (by decide)

end LoopNest
