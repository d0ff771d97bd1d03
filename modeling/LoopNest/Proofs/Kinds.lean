import LoopNest.Proofs.Checked.Lowering
import LoopNest.Proofs.Rearranging
/-!
# What names have no part in

Dimensions have names for people to read.  What a table tells of an identity, apart from texts and
parameters, it tells by the kinds of its dimensions alone: chains, roots, loops, conditions and
known sizes are the same in tables that list the same kinds (`DimTable.SameKinds`).  So equations
are lowered alike under both, whatever the dimensions are called (`Lowered.ofEquation_eq_ok_iff`).
Programs that differ in the order of subdomain pairs besides have the same lowered equations too,
unless one of them has a chain of pairs (`Program.Rearranged.lower_eq_ok_iff`).
-/

namespace LoopNest

/-! ## Tables -/

namespace DimTable

/-- The tables list the same kinds of dimensions, under whatever names. -/
def SameKinds (t u : DimTable) : Prop :=
  t.entries.map Dimension.kind = u.entries.map Dimension.kind

namespace SameKinds

variable {t u : DimTable} (h : t.SameKinds u)

include h

theorem size : t.size = u.size := by
  have hlength := congrArg List.length h
  rwa [List.length_map, List.length_map] at hlength

theorem contains (d : DimId) : t.contains d = u.contains d := by
  rw [DimTable.contains, DimTable.contains, h.size]

theorem check (d : DimId) : t.check d = u.check d := by
  rw [DimTable.check, DimTable.check, h.contains, h.size]

theorem kind (d : DimId) : (t.get d).kind = (u.get d).kind := by
  have hkind : ∀ t : DimTable, (t.get d).kind =
      (t.entries.map Dimension.kind)[d.index]?.getD (default : Dimension).kind := by
    intro t
    rw [get, Dimension.lookup, List.getElem?_map]
    cases t.entries[d.index]? <;> rfl
  rw [hkind t, hkind u, h]

theorem condition? (d : DimId) : (t.get d).condition? = (u.get d).condition? := by
  rw [Dimension.condition?, Dimension.condition?, h.kind]

theorem isConditional (d : DimId) : (t.get d).isConditional = (u.get d).isConditional := by
  rw [Dimension.isConditional, Dimension.isConditional, h.condition?]

theorem ridesOnParent (d : DimId) : (t.get d).ridesOnParent = (u.get d).ridesOnParent := by
  have hstepping : (t.get d).isStepping = (u.get d).isStepping := by
    rw [Dimension.isStepping, Dimension.isStepping, Dimension.modulo?, Dimension.modulo?, h.kind]
  rw [Dimension.ridesOnParent, Dimension.ridesOnParent, h.isConditional, hstepping]

theorem parent? (d : DimId) : t.parent? d = u.parent? d := by
  have hparent : ∀ t : DimTable, t.parent? d =
      (t.entries.map Dimension.kind)[d.index]?.bind DimKind.parent? := by
    intro t
    rw [DimTable.parent?, Dimension.parentIn?, List.getElem?_map, Option.bind_map]
    rfl
  rw [hparent t, hparent u, h]

theorem chain (d : DimId) : t.chain d = u.chain d := by
  have hchain : ∀ (n : Nat) (d : DimId),
      Dimension.chainOf t.entries n d = Dimension.chainOf u.entries n d := by
    intro n
    induction n with
    | zero =>
        intro d
        rfl
    | succ n ih =>
        intro d
        have hparent : Dimension.parentIn? t.entries d = Dimension.parentIn? u.entries d :=
          h.parent? d
        rw [Dimension.chainOf, Dimension.chainOf, hparent, funext ih]
  exact hchain _ d

theorem root (d : DimId) : t.root d = u.root d := by
  rw [DimTable.root, DimTable.root, h.chain]

theorem derives (d a : DimId) : t.derives d a = u.derives d a := by
  rw [DimTable.derives, DimTable.derives, h.chain]

theorem loopOf (d : DimId) : t.loopOf d = u.loopOf d := by
  rw [DimTable.loopOf, DimTable.loopOf, h.chain]
  simp only [h.ridesOnParent]

theorem isTimeLike (d : DimId) : t.isTimeLike d = u.isTimeLike d := by
  rw [DimTable.isTimeLike, DimTable.isTimeLike, h.root, Dimension.isTime, Dimension.isTime, h.kind]

theorem conditionsOf (d : DimId) : t.conditionsOf d = u.conditionsOf d := by
  rw [DimTable.conditionsOf, DimTable.conditionsOf, h.chain]
  simp only [h.ridesOnParent, h.isConditional]

theorem knownSize (d : DimId) : t.knownSize d = u.knownSize d := by
  have halong : ∀ ds : List DimId,
      Dimension.sizeAlong (ds.map t.get) = Dimension.sizeAlong (ds.map u.get) := by
    intro ds
    induction ds with
    | nil => rfl
    | cons d above ih =>
        rw [List.map_cons, List.map_cons, Dimension.sizeAlong, Dimension.sizeAlong, h.kind, ih]
  have hchain : Dimension.chainIn t.entries d = Dimension.chainIn u.entries d := h.chain d
  rw [DimTable.knownSize, DimTable.knownSize, Dimension.sizeIn, Dimension.sizeIn,
    Dimension.lineageIn, Dimension.lineageIn, hchain]
  exact halong _

theorem checkMapping {pair : DimId × DimId} (hp : Equation.checkMapping t pair = .ok ()) :
    Equation.checkMapping u pair = .ok () := by
  rw [Equation.checkMapping_eq_ok] at hp ⊢
  rwa [h.contains, h.contains, h.derives, h.ridesOnParent] at hp

end SameKinds

end DimTable

/-! ## Lowering -/

namespace Equation

/-- The equation with its subdomain pairs in another order. -/
def Rearranged (eq eq' : Equation) : Prop :=
  ∃ pairs : List (DimId × DimId), pairs.Perm eq.subdomain ∧ eq' = { eq with subdomain := pairs }

/-- The subdomain is as it must be, and the order of its pairs does not show. -/
structure Unordered (t : DimTable) (eq : Equation) : Prop where
  mappings : eq.checkMappings t = .ok ()
  distinct : (eq.subdomain.map Prod.fst).Nodup
  unchained : ¬ eq.Chained

end Equation

namespace Lowered

open DimTable

variable {t u : DimTable} {i : Nat}

theorem addLoop_eq_ok_iff (h : t.SameKinds u) {loops loops' : List DimId} {d : DimId} :
    (addLoop t i loops d).result = .ok loops' ↔ (addLoop u i loops d).result = .ok loops' := by
  rw [addLoop, addLoop]
  simp only [h.loopOf, h.root, h.derives]
  cases loops.find? fun l => u.root l == u.root (u.loopOf d) with
  | none => exact Iff.rfl
  | some existing =>
      dsimp only
      split
      · exact Iff.rfl
      · split
        · exact Iff.rfl
        · constructor <;> intro hok <;> cases hok

theorem addLoops_eq_ok_iff (h : t.SameKinds u) {ds loops loops' : List DimId} :
    (addLoops t i loops ds).result = .ok loops' ↔ (addLoops u i loops ds).result = .ok loops' := by
  induction ds generalizing loops with
  | nil => exact Iff.rfl
  | cons d ds ih =>
      rw [addLoops, addLoops, Logged.result_bind, Logged.result_bind]
      exact bind_eq_ok_congr (fun mid => addLoop_eq_ok_iff h) fun mid => ih

/-- Under tables of the same kinds, equations that are restricted alike are lowered alike. -/
theorem ofEquation_eq_ok_iff (h : t.SameKinds u) {eq eq' r : Equation} (hr : eq.restrict t = .ok r)
    (hr' : eq'.restrict u = .ok r) {e : Lowered} :
    (ofEquation t i eq).result = .ok e ↔ (ofEquation u i eq').result = .ok e := by
  have htime : timeFirst t = timeFirst u := by
    funext loops
    rw [timeFirst, timeFirst, funext h.isTimeLike]
  have hmet : conditionsMet t = conditionsMet u := by
    funext ds
    rw [conditionsMet, conditionsMet, funext h.conditionsOf]
  rw [result_ofEquation hr, result_ofEquation hr', map_eq_ok, map_eq_ok, htime, hmet]
  exact exists_congr fun loops => and_congr_left fun _ => addLoops_eq_ok_iff h

theorem ofEquations_eq_ok_iff (h : t.SameKinds u) {eqs eqs' : List Equation}
    (hall : ∀ eq ∈ eqs, eq.Unordered t) (heqs : List.Forall₂ Equation.Rearranged eqs eqs') {i : Nat}
    {es : List Lowered} :
    (ofEquations t i eqs).result = .ok es ↔ (ofEquations u i eqs').result = .ok es := by
  induction heqs generalizing i es with
  | nil => exact Iff.rfl
  | @cons eq _ _ _ heq _ ih =>
      obtain ⟨pairs, hperm, rfl⟩ := heq
      obtain ⟨⟨hcheck, hdistinct, hchain⟩, hrest⟩ := List.forall_mem_cons.mp hall
      have hr : eq.restrict t = .ok eq.restricted := by
        rw [Equation.restrict, hcheck]
        rfl
      have hother := (Equation.restrict_perm_iff hcheck hdistinct).mpr hchain pairs hperm
      have hr' : { eq with subdomain := pairs }.restrict u = .ok eq.restricted := by
        obtain ⟨_, hcheck', hrestricted⟩ := bind_eq_ok.mp (hother.trans hr)
        refine bind_eq_ok.mpr ⟨(), forM_eq_ok.mpr fun pair hp => ?_, hrestricted⟩
        exact h.checkMapping (forM_eq_ok.mp hcheck' pair hp)
      rw [ofEquations, ofEquations, Logged.result_bind, Logged.result_bind]
      refine bind_eq_ok_congr (fun e => ofEquation_eq_ok_iff h hr hr') fun e => ?_
      rw [Logged.result_bind, Logged.result_bind]
      exact bind_eq_ok_congr (fun es => ih hrest) fun es => Iff.rfl

end Lowered

/-! ## Programs -/

namespace Program

open Lowered

theorem lower_eq_ok_iff {p : Program} {es : List Lowered} (hcheck : p.check = .ok ()) :
    p.lower.result = .ok es ↔ (ofEquations p.dims 0 p.equations).result = .ok es := by
  refine ⟨lower_eq_ok, fun h => ?_⟩
  rw [lower, Logged.result_bind, Logged.result_ofExcept, hcheck]
  show (_ >>= _ : Logged AnalysisError (List Lowered)).result = _
  rw [Logged.result_bind, h]
  rfl

/-- Programs that differ in names of dimensions and in the order of subdomain pairs only. -/
structure Rearranged (p q : Program) : Prop where
  kinds : p.dims.SameKinds q.dims
  scalars : p.scalars = q.scalars
  equations : List.Forall₂ Equation.Rearranged p.equations q.equations

theorem Rearranged.check {p q : Program} (h : p.Rearranged q) (hcheck : p.check = .ok ()) :
    q.check = .ok () := by
  refine forM_eq_ok.mpr fun eq' heq' => ?_
  obtain ⟨eq, heq, pairs, hperm, rfl⟩ := exists_of_forall₂_right h.equations heq'
  obtain ⟨_, hdims, hmappings⟩ := bind_eq_ok.mp (forM_eq_ok.mp hcheck eq heq)
  refine bind_eq_ok.mpr ⟨(), forM_eq_ok.mpr fun d hd => ?_, forM_eq_ok.mpr fun pair hp => ?_⟩
  · rw [← h.kinds.check]
    exact forM_eq_ok.mp hdims d hd
  · exact h.kinds.checkMapping (forM_eq_ok.mp hmappings pair (hperm.mem_iff.mp hp))

/-- Rearranged programs have the same lowered equations, if no equation has a chain of pairs. -/
theorem Rearranged.lower_eq_ok_iff {p q : Program} (h : p.Rearranged q) (hcheck : p.check = .ok ())
    (hdistinct : ∀ eq ∈ p.equations, (eq.subdomain.map Prod.fst).Nodup)
    (hchain : ∀ eq ∈ p.equations, ¬ eq.Chained) {es : List Lowered} :
    p.lower.result = .ok es ↔ q.lower.result = .ok es := by
  rw [Program.lower_eq_ok_iff hcheck, Program.lower_eq_ok_iff (h.check hcheck)]
  refine ofEquations_eq_ok_iff h.kinds (fun eq heq => ?_) h.equations
  exact ⟨(contains_of_check hcheck heq).2, hdistinct eq heq, hchain eq heq⟩

end Program

end LoopNest
