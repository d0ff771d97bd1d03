import LoopNest.Proofs.Checked.Dependence
import LoopNest.Proofs.Clustering
/-!
# Clusters with checked lookups

Equations are ordered by their places, and a round of the ordering that finds none to come next
counts as a miss.  There is none (`order_eq`): edges between equations point from an earlier to a
later one, so whatever waits longest waits for nothing (`Cluster.Arranged.next?_isSome`).
-/

namespace LoopNest.Checked

open Lowered Cluster

variable {t : DimTable} {es : List Lowered} {g : DependenceGraph}

/-- The equation at a place. -/
def equation (es : List Lowered) (i : Nat) : Except Missing Lowered := look (.equation i) es[i]?

theorem equation_eq (hn : Numbered es) {e : Lowered} (he : e ∈ es) :
    equation es e.index = .ok e := by
  rw [equation, hn.getElem?_index he, look_some]

/-! ## The order of equations -/

/-- The place of the equation that comes next. -/
def pick (g : DependenceGraph) (es : List Lowered) (waiting placed : List Nat) :
    Except Missing Nat := do
  let ready ← (waiting.filter (isReady g placed)).mapM (equation es)
  let last ← placed.getLast?.mapM (equation es)
  return (← look .ready (prefer (last.map Lowered.signature) ready)).index

def arrange (g : DependenceGraph) (es : List Lowered) :
    Nat → List Nat → List Nat → Except Missing (List Nat)
  | 0, _, placed => return placed
  | n + 1, waiting, placed => do
    let i ← pick g es waiting placed
    arrange g es n (waiting.filter (· != i)) (placed ++ [i])

/-- The places of the equations in an order that respects the edges between them. -/
def order (g : DependenceGraph) (es : List Lowered) : Except Missing (List Nat) := do
  (g.edges.filter fun edge => !edge.isSelf).forM fun edge => do
    let _ ← equation es edge.source
    let _ ← equation es edge.sink
  arrange g es es.length (List.range es.length) []

theorem pick_eq (hn : Numbered es) {waiting placed : List Lowered} {e : Lowered}
    (h : Arranged g es waiting placed) (hnext : next? g waiting placed = some e) :
    pick g es (waiting.map index) (placed.map index) = .ok e.index := by
  have hmem : ∀ a ∈ placed ++ waiting, a ∈ es := fun a ha => h.perm.mem_iff.mp ha
  have hready : ((waiting.map index).filter (isReady g (placed.map index))).mapM (equation es) =
      .ok (waiting.filter fun a => isReady g (placed.map index) a.index) := by
    rw [List.filter_map, mapM_eq_ok, List.forall₂_map_left_iff]
    refine List.forall₂_same.mpr fun a ha => equation_eq hn ?_
    exact hmem a (List.mem_append_right _ (List.mem_filter.mp ha).1)
  have hlast : (placed.map index).getLast?.mapM (equation es) = .ok placed.getLast? := by
    rw [List.getLast?_map]
    cases hl : placed.getLast? with
    | none => rfl
    | some a =>
        have ha : a ∈ es := hmem a (List.mem_append_left _ (List.mem_of_getLast? hl))
        rw [Option.map_some, Option.mapM_some, equation_eq hn ha]
        rfl
  have hprefer : prefer (placed.getLast?.map Lowered.signature)
      (waiting.filter fun a => isReady g (placed.map index) a.index) = some e := hnext
  rw [pick, hready, ok_bind, hlast, ok_bind, hprefer]
  rfl

theorem arrange_eq (hn : Numbered es) (hf : Forward es.length g) :
    ∀ {n : Nat} {waiting placed : List Lowered}, Arranged g es waiting placed →
      waiting.length = n → arrange g es n (waiting.map index) (placed.map index) =
        .ok ((Cluster.arrange g n waiting placed).map index)
  | 0, _, _, _, _ => rfl
  | n + 1, waiting, placed, h, hl => by
      have hw : waiting ≠ [] := List.ne_nil_of_length_eq_add_one hl
      obtain ⟨e, hnext⟩ := Option.isSome_iff_exists.mp (h.next?_isSome hn hf hw)
      have hnodup := h.index_nodup hn
      rw [List.map_append] at hnodup
      have hlen := (Arranged.filter_perm (List.nodup_append.mp hnodup).2.1
        (next?_eq_some hnext).1).length_eq
      rw [List.length_cons, hl] at hlen
      have hrest := arrange_eq hn hf (h.place hn hnext) (Nat.succ.inj hlen)
      rw [List.map_append, List.map_singleton] at hrest
      rw [arrange, pick_eq hn h hnext, ok_bind, List.filter_map, Cluster.arrange, hnext]
      exact hrest

/-- Every round of the ordering finds an equation that may come next. -/
theorem order_eq (hn : Numbered es) (hf : Forward es.length g)
    (hsink : ∀ edge ∈ g.edges, edge.sink < es.length) :
    order g es = .ok ((Cluster.order g es).map index) := by
  have hat : ∀ i, i < es.length → ∃ e, equation es i = .ok e := fun i hi => by
    obtain ⟨e, he, rfl⟩ := hn.exists_of_lt hi
    exact ⟨e, equation_eq hn he⟩
  have hedges : ((g.edges.filter fun edge => !edge.isSelf).forM fun edge => do
      let _ ← equation es edge.source
      let _ ← equation es edge.sink) = (.ok () : Except Missing Unit) := by
    refine forM_eq_ok.mpr fun edge hm => ?_
    obtain ⟨he, -⟩ := List.mem_filter.mp hm
    obtain ⟨a, ha⟩ := hat _ (hf.issued edge he)
    obtain ⟨b, hb⟩ := hat _ (hsink edge he)
    rw [ha, ok_bind, hb]
    rfl
  have hstart : Arranged g es es [] :=
    ⟨List.Perm.refl _, hn.pairwise, by simp, List.Pairwise.nil⟩
  rw [order, hedges, ok_bind, ← hn]
  exact arrange_eq hn hf hstart rfl

/-! ## Merging -/

/-- What keeps an equation out of a cluster along one loop, if anything. -/
def obstacleAlong? (t : DimTable) (g : DependenceGraph) (c : Cluster) (next : Nat) (loop : DimId) :
    Except Missing (Option Note) := do
  let top ← root t loop
  if ← isTimeLike t top then return none
  else
    let named ← name t top
    if (g.between c.equations [next]).any fun e => e.carrier == .unknown top then
      return some (.unknownDistance next named c.equations)
    else if !(Demand.among g (c.equations ++ [next]) top).isSatisfiable then
      return some (.inconsistentDirection named (← look .first c.equations.head?) next)
    else return none

theorem obstacleAlong?_eq {c : Cluster} (hne : c.equations ≠ []) {next : Nat} {loop : DimId}
    (h : t.contains loop = true) :
    obstacleAlong? t g c next loop = .ok (Cluster.obstacleAlong? t g c next loop) := by
  have hroot := DimTable.contains_root h
  obtain ⟨i, is, heqs⟩ := List.exists_cons_of_ne_nil hne
  rw [obstacleAlong?, root_eq h, ok_bind, isTimeLike_eq hroot, ok_bind, Cluster.obstacleAlong?]
  simp only [name_eq hroot, ok_bind, heqs, List.head?_cons, look_some, List.headD_cons]
  split
  · rfl
  · split
    · rfl
    · split <;> rfl

def obstacle? (t : DimTable) (g : DependenceGraph) (c : Cluster) (next : Nat) :
    Except Missing (Option Note) :=
  c.signature.loops.findSomeM? (obstacleAlong? t g c next)

theorem obstacle?_eq {c : Cluster} (hne : c.equations ≠ [])
    (h : ∀ l ∈ c.signature.loops, t.contains l = true) (next : Nat) :
    obstacle? t g c next = .ok (Cluster.obstacle? t g c next) :=
  findSomeM?_eq_ok fun l hl => obstacleAlong?_eq hne (h l hl)

/-- The next equation joins the last cluster or begins a new one. -/
def add (t : DimTable) (g : DependenceGraph) (es : List Lowered) (s : Grouping) (i : Nat) :
    Except Missing Grouping := do
  let e ← equation es i
  match s.last with
  | none => return ⟨s.done, some (single e), s.notes⟩
  | some c =>
    if c.signature = e.signature then
      match ← obstacle? t g c i with
      | none => return ⟨s.done, some ⟨c.equations ++ [i], c.signature⟩, s.notes⟩
      | some note => return ⟨s.done ++ [c], some (single e), s.notes ++ [note]⟩
    else return ⟨s.done ++ [c], some (single e), s.notes⟩

/-- The last cluster is not empty, and its loops are over issued dimensions. -/
def LastIssued (t : DimTable) (s : Grouping) : Prop :=
  ∀ c ∈ s.last, c.equations ≠ [] ∧ ∀ l ∈ c.signature.loops, t.contains l = true

theorem lastIssued_add {s : Grouping} (h : LastIssued t s) {e : Lowered} (he : e.IssuedBy t) :
    LastIssued t (Grouping.add t g s e) := by
  have hsingle : ∀ c ∈ some (single e), c.equations ≠ [] ∧
      ∀ l ∈ c.signature.loops, t.contains l = true := by
    rintro c ⟨⟩
    exact ⟨List.cons_ne_nil _ _, he.loops⟩
  intro c hc
  unfold Grouping.add at hc
  split at hc
  · exact hsingle c hc
  · rename_i last hlast
    split at hc
    · split at hc
      · cases hc
        exact ⟨by simp, (h last hlast).2⟩
      · exact hsingle c hc
    · exact hsingle c hc

theorem add_eq (hn : Numbered es) {s : Grouping} (h : LastIssued t s) {e : Lowered} (he : e ∈ es) :
    add t g es s e.index = .ok (Grouping.add t g s e) := by
  rw [add, equation_eq hn he, ok_bind, Grouping.add]
  cases hlast : s.last with
  | none => rfl
  | some c =>
      obtain ⟨hne, hloops⟩ := h c hlast
      dsimp only
      split
      · rw [obstacle?_eq hne hloops, ok_bind]
        cases Cluster.obstacle? t g c e.index <;> rfl
      · rfl

/-- Clusters in order of execution. -/
def build (t : DimTable) (g : DependenceGraph) (options : Options) (es : List Lowered) :
    Except Missing (List Cluster) := do
  if options.fusion then
    let s ← (← order g es).foldlM (add t g es) ⟨[], none, []⟩
    return s.clusters
  else return es.map single

theorem build_eq (hg : Lowered.graph t es = .ok g) (hn : Numbered es)
    (h : ∀ e ∈ es, e.IssuedBy t) (options : Options) :
    build t g options es = .ok (Cluster.build t g options es) := by
  have hf := forward_of_graph hg hn
  have hsink : ∀ edge ∈ g.edges, edge.sink < es.length := fun edge he =>
    (source_lt_length hg hn he).2
  have hmem : ∀ e ∈ Cluster.order g es, e ∈ es := fun e he => (order_perm hn hf).mem_iff.mp he
  rw [build, Cluster.build]
  split
  · have hgroup : ((Cluster.order g es).map index).foldlM (add t g es) ⟨[], none, []⟩ =
        .ok (group t g (Cluster.order g es)) := by
      rw [List.foldlM_map]
      refine foldlM_eq_ok (P := LastIssued t) (fun e he s hs => ?_) (fun c hc => by cases hc)
      exact ⟨add_eq hn hs (hmem e he), lastIssued_add hs (h e (hmem e he))⟩
    rw [order_eq hn hf hsink, ok_bind, hgroup]
    rfl
  · rfl

end LoopNest.Checked
