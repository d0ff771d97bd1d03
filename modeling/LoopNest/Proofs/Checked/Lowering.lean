import LoopNest.Proofs.Checked.Dimensions
import LoopNest.Proofs.Failure
import LoopNest.Proofs.Substitution
/-!
# Lowering with checked lookups

Lowering begins with the check of the program, and the check is all it takes: whatever equations
come in, the checked run has no miss (`lower_eq`).  A lowered equation runs along dimensions that
the table has issued, and so have its loops and its conditions been (`lower_issuedBy`), as the part
that a pair of a subdomain puts in is checked before it is put in.
-/

namespace LoopNest

open Lowered

/-! ## What a check makes sure of -/

theorem Equation.contains_of_checkMapping {t : DimTable} {pair : DimId × DimId}
    (h : Equation.checkMapping t pair = .ok ()) :
    t.contains pair.1 = true ∧ t.contains pair.2 = true := by
  obtain ⟨h₁, h₂, -⟩ := Equation.checkMapping_eq_ok.mp h
  exact ⟨h₁, h₂⟩

/-- The part of an equation that lowering looks at, and what it makes of it, are over dimensions
that the table has issued. -/
structure Lowered.IssuedBy (t : DimTable) (e : Lowered) : Prop where
  dims : ∀ d, e.equation.RunsAlong d → t.contains d = true
  loops : ∀ l ∈ e.loops, t.contains l = true
  conditions : ∀ c ∈ e.conditions, t.contains c = true

theorem Equation.contains_replacement {t : DimTable} {eq : Equation}
    (h : eq.checkMappings t = .ok ()) {d : DimId} (hd : t.contains d = true) :
    t.contains (replacement eq.subdomain d) = true := by
  rcases replacement_cases eq.subdomain d with heq | ⟨pair, hp, heq⟩
  · rwa [heq]
  · rw [heq]
    exact (contains_of_checkMapping (forM_eq_ok.mp h pair hp)).2

theorem Lowered.ofEquation_issuedBy {t : DimTable} {i : Nat} {eq : Equation} {e : Lowered}
    (hdims : ∀ d, eq.RunsAlong d → t.contains d = true)
    (h : (ofEquation t i eq).result = .ok e) : e.IssuedBy t := by
  obtain ⟨hcheck, heq, hloops⟩ := ofEquation_eq_ok h
  have hall : ∀ d, e.equation.RunsAlong d → t.contains d = true := by
    intro d hd
    rw [heq] at hd
    obtain ⟨c, hc, rfl⟩ := Equation.runsAlong_restricted.mp hd
    exact Equation.contains_replacement hcheck (hdims c hc)
  refine ⟨hall, fun l hl => ?_, fun c hc => ?_⟩
  · obtain ⟨d, hd, rfl⟩ := hloops l hl
    exact DimTable.contains_loopOf (hall d (Equation.mem_dims_iff.mp hd))
  · obtain ⟨d, hd, hc⟩ := ((ofEquation_shaped h).2.gated c).mp hc
    exact DimTable.contains_of_mem_chain (hall d (Equation.mem_dims_iff.mp hd))
      ((List.takeWhile_prefix _).subset (List.mem_filter.mp hc).1)

theorem Program.contains_of_check {p : Program} (h : p.check = .ok ()) {eq : Equation}
    (heq : eq ∈ p.equations) :
    (∀ d, eq.RunsAlong d → p.dims.contains d = true) ∧ eq.checkMappings p.dims = .ok () := by
  obtain ⟨_, hdims, hmappings⟩ := bind_eq_ok.mp (forM_eq_ok.mp h eq heq)
  refine ⟨fun d hd => ?_, hmappings⟩
  exact DimTable.check_eq_ok.mp (forM_eq_ok.mp hdims d (Equation.mem_dims_iff.mpr hd))

theorem Program.check_of_lower {p : Program} {es : List Lowered} (h : p.lower.result = .ok es) :
    p.check = .ok () := by
  rw [lower, Logged.result_bind] at h
  obtain ⟨_, h, _⟩ := bind_eq_ok.mp h
  exact mapError_eq_ok.mp h

theorem Program.lower_issuedBy {p : Program} {es : List Lowered} (h : p.lower.result = .ok es)
    {e : Lowered} (he : e ∈ es) : e.IssuedBy p.dims := by
  obtain ⟨eq, heq, hof⟩ := exists_ofEquation h he
  exact ofEquation_issuedBy
    (contains_of_check (check_of_lower h) (List.mem_of_getElem? heq)).1 hof

namespace Checked

variable {t : DimTable} {ε : Type}

/-! ## Checks -/

def subdomainFault? (t : DimTable) (old new : DimId) : Except Missing (Option SubdomainFault) := do
  if old = new then return some .itself
  else if !(← derives t new old) then return some .notDerived
  else if (← entry t new).ridesOnParent then return some .notSubRange
  else return none

theorem subdomainFault?_eq {old new : DimId} (h : t.contains new = true) :
    subdomainFault? t old new = .ok (Equation.subdomainFault? t old new) := by
  rw [subdomainFault?, Equation.subdomainFault?, derives_eq h, ok_bind, entry_eq h]
  split
  · rfl
  · split
    · rfl
    · split
      · rename_i hrides
        simp only [ok_bind, hrides, if_true, pure_eq_ok]
      · rename_i hrides
        simp only [ok_bind, hrides, pure_eq_ok]
        rfl

/-- The two identities are found before anything is looked up by them. -/
def checkMapping (t : DimTable) (pair : DimId × DimId) : Except (Fault ModelError) Unit := do
  pass (t.check pair.1)
  pass (t.check pair.2)
  match ← subdomainFault? t pair.1 pair.2 with
  | some fault => throw (.failed (.badSubdomain (← name t pair.1) (← name t pair.2) fault))
  | none => return ()

theorem checkMapping_eq (t : DimTable) (pair : DimId × DimId) :
    checkMapping t pair = pass (Equation.checkMapping t pair) := by
  refine bind_eq_pass rfl fun _ h₁ => bind_eq_pass rfl fun _ h₂ => ?_
  have h₁ := DimTable.check_eq_ok.mp h₁
  have h₂ := DimTable.check_eq_ok.mp h₂
  rw [subdomainFault?_eq h₂, lift_ok, ok_bind]
  cases Equation.subdomainFault? t pair.1 pair.2 with
  | none => rfl
  | some fault =>
      simp only [name_eq h₁, name_eq h₂, lift_ok, ok_bind]
      rfl

def checkEquation (t : DimTable) (eq : Equation) : Except (Fault ModelError) Unit := do
  eq.dims.forM fun d => pass (t.check d)
  eq.subdomain.forM (checkMapping t)

theorem checkEquation_eq (t : DimTable) (eq : Equation) :
    checkEquation t eq = pass (Program.checkEquation t eq) :=
  bind_eq_pass (forM_eq_pass fun _ _ => rfl) fun _ _ =>
    forM_eq_pass fun pair _ => checkMapping_eq t pair

def check (p : Program) : Except (Fault ModelError) Unit :=
  p.equations.forM (checkEquation p.dims)

theorem check_eq (p : Program) : check p = pass p.check :=
  forM_eq_pass fun eq _ => checkEquation_eq p.dims eq

def restrict (t : DimTable) (eq : Equation) : Except (Fault ModelError) Equation := do
  eq.subdomain.forM (checkMapping t)
  return eq.restricted

theorem restrict_eq (t : DimTable) (eq : Equation) :
    restrict t eq = pass (eq.restrict t) :=
  bind_eq_pass (forM_eq_pass fun pair _ => checkMapping_eq t pair) fun _ _ => rfl

/-! ## Loops -/

def addLoop (t : DimTable) (equation : Nat) (loops : List DimId) (d : DimId) :
    Except (Fault AnalysisError) (List DimId) := do
  let loop ← loopOf t d
  let top ← root t loop
  match ← loopOver? t loops top with
  | none => return loops ++ [loop]
  | some existing =>
    if ← derives t existing loop then return loops
    else
      let rootName ← name t top
      let wide ← name t existing
      let narrow ← name t loop
      if ← derives t loop existing then
        return loops.map fun l => if l = existing then loop else l
      else throw (.failed (.conflictingSubdomains equation rootName wide narrow))

theorem addLoop_eq {i : Nat} {loops : List DimId} {d : DimId} (hd : t.contains d = true)
    (hloops : ∀ l ∈ loops, t.contains l = true) :
    addLoop t i loops d = pass (Lowered.addLoop t i loops d).result := by
  have hloop := DimTable.contains_loopOf hd
  rw [addLoop, Lowered.addLoop, loopOf_eq hd, lift_ok, ok_bind, root_eq hloop, lift_ok, ok_bind,
    loopOver?_eq hloops, lift_ok, ok_bind]
  cases hf : loops.find? fun l => t.root l == t.root (t.loopOf d) with
  | none => rfl
  | some existing =>
      have hexisting := hloops existing (List.mem_of_find?_eq_some hf)
      simp only [derives_eq hexisting, derives_eq hloop, name_eq (DimTable.contains_root hloop),
        name_eq hexisting, name_eq hloop, lift_ok, ok_bind]
      split
      · rfl
      · split <;> rfl

def addLoops (t : DimTable) (equation : Nat) : List DimId → List DimId →
    Except (Fault AnalysisError) (List DimId)
  | loops, [] => return loops
  | loops, d :: ds => do
    let loops ← addLoop t equation loops d
    addLoops t equation loops ds

theorem addLoops_eq {i : Nat} : ∀ {ds loops : List DimId}, (∀ d ∈ ds, t.contains d = true) →
    (∀ l ∈ loops, t.contains l = true) →
      addLoops t i loops ds = pass (Lowered.addLoops t i loops ds).result
  | [], _, _, _ => rfl
  | d :: ds, loops, hds, hloops => by
      obtain ⟨hd, hds⟩ := List.forall_mem_cons.mp hds
      rw [addLoops, Lowered.addLoops, Logged.result_bind]
      refine bind_eq_pass (addLoop_eq hd hloops) fun loops' h => addLoops_eq hds fun l hl => ?_
      rcases mem_addLoop h hl with hl | rfl
      · exact hloops l hl
      · exact DimTable.contains_loopOf hd

/-! ## Equations -/

def timeFirst (t : DimTable) (loops : List DimId) : Except Missing (List DimId) := do
  let front ← loops.filterM (isTimeLike t)
  let rest ← loops.filterM fun l => return !(← isTimeLike t l)
  return front ++ rest

theorem timeFirst_eq {loops : List DimId} (h : ∀ l ∈ loops, t.contains l = true) :
    timeFirst t loops = .ok (Lowered.timeFirst t loops) := by
  have hfront : loops.filterM (isTimeLike t) = .ok (loops.filter t.isTimeLike) :=
    filterM_eq_ok fun l hl => isTimeLike_eq (h l hl)
  have hrest : (loops.filterM fun l => return !(← isTimeLike t l)) =
      .ok (loops.filter fun l => !t.isTimeLike l) :=
    filterM_eq_ok fun l hl => by rw [isTimeLike_eq (h l hl)]; rfl
  rw [timeFirst, hfront, ok_bind, hrest]
  rfl

def conditionsMet (t : DimTable) (ds : List DimId) : Except Missing (List DimId) :=
  return SortedSet.ofList (← flatMapM (conditionsOf t) ds)

theorem conditionsMet_eq {ds : List DimId} (h : ∀ d ∈ ds, t.contains d = true) :
    conditionsMet t ds = .ok (Lowered.conditionsMet t ds) := by
  rw [conditionsMet, flatMapM_eq_ok fun d hd => conditionsOf_eq (h d hd)]
  rfl

def ofEquation (t : DimTable) (index : Nat) (eq : Equation) :
    Except (Fault AnalysisError) Lowered := do
  let eq ← (restrict t eq).mapError (Fault.rename .model)
  let loops ← addLoops t index [] eq.dims
  return ⟨index, eq, ⟨← timeFirst t loops, ← conditionsMet t eq.dims⟩⟩

theorem ofEquation_eq {i : Nat} {eq : Equation}
    (h : ∀ d, eq.RunsAlong d → t.contains d = true) :
    ofEquation t i eq = pass (Lowered.ofEquation t i eq).result := by
  rw [ofEquation, Lowered.ofEquation, Logged.result_bind]
  refine bind_eq_pass (by rw [restrict_eq, rename_pass]; rfl) fun r hr => ?_
  obtain ⟨_, hcheck, hr⟩ := bind_eq_ok.mp (mapError_eq_ok.mp hr)
  cases hr
  have hdims : ∀ d ∈ eq.restricted.dims, t.contains d = true := by
    intro d hd
    obtain ⟨c, hc, rfl⟩ := Equation.runsAlong_restricted.mp (Equation.mem_dims_iff.mp hd)
    exact Equation.contains_replacement hcheck (h c hc)
  rw [Logged.result_bind]
  refine bind_eq_pass (addLoops_eq hdims (by simp)) fun loops hloops => ?_
  have hall : ∀ l ∈ loops, t.contains l = true := by
    intro l hl
    obtain ⟨d, hd, rfl⟩ := (mem_addLoops hloops hl).resolve_left List.not_mem_nil
    exact DimTable.contains_loopOf (hdims d hd)
  rw [timeFirst_eq hall, lift_ok, ok_bind, conditionsMet_eq hdims]
  rfl

def ofEquations (t : DimTable) : Nat → List Equation → Except (Fault AnalysisError) (List Lowered)
  | _, [] => return []
  | i, eq :: eqs => do
    let e ← ofEquation t i eq
    let es ← ofEquations t (i + 1) eqs
    return e :: es

theorem ofEquations_eq : ∀ {i : Nat} {eqs : List Equation},
    (∀ eq ∈ eqs, ∀ d, eq.RunsAlong d → t.contains d = true) →
      ofEquations t i eqs = pass (Lowered.ofEquations t i eqs).result
  | _, [], _ => rfl
  | i, eq :: eqs, h => by
      obtain ⟨heq, heqs⟩ := List.forall_mem_cons.mp h
      rw [ofEquations, Lowered.ofEquations, Logged.result_bind]
      refine bind_eq_pass (ofEquation_eq heq) fun e _ => ?_
      rw [Logged.result_bind]
      exact bind_eq_pass (ofEquations_eq heqs) fun es _ => rfl

/-! ## Programs -/

def usedDims (t : DimTable) (es : List Lowered) : Except Missing (List DimId) :=
  flatMapM (fun e => do
    let gates ← flatMapM (predicateDims t) e.conditions
    flatMapM (chain t) (e.equation.dims ++ gates)) es

theorem usedDims_eq {es : List Lowered} (h : ∀ e ∈ es, e.IssuedBy t) :
    usedDims t es = .ok (Lowered.usedDims t es) := by
  refine flatMapM_eq_ok fun e he => ?_
  rw [flatMapM_eq_ok fun c hc => predicateDims_eq ((h e he).conditions c hc), ok_bind]
  refine flatMapM_eq_ok fun d hd => chain_eq ?_
  rcases List.mem_append.mp hd with hd | hd
  · exact (h e he).dims d (Equation.mem_dims_iff.mp hd)
  · obtain ⟨c, hc, hd⟩ := List.mem_flatMap.mp hd
    unfold DimTable.predicateDims at hd
    cases hp : (t.get c).predicate? with
    | none =>
        rw [hp] at hd
        cases hd
    | some predicate =>
        rw [hp] at hd
        exact DimTable.contains_of_predicate hp (Expr.mem_dims_iff.mp hd)

/-- What is not used is named to the reader. -/
def unusedDims (t : DimTable) (es : List Lowered) : Except Missing (List String) := do
  let used ← usedDims t es
  (t.ids.filter fun d => !used.contains d).mapM (name t)

theorem unusedDims_eq {es : List Lowered} (h : ∀ e ∈ es, e.IssuedBy t) :
    unusedDims t es = .ok ((Lowered.unusedDims t es).map t.name) := by
  rw [unusedDims, usedDims_eq h, ok_bind]
  exact mapM_eq_ok_map fun d hd => name_eq (DimTable.mem_ids_iff.mp (List.mem_filter.mp hd).1)

def lower (p : Program) : Except (Fault AnalysisError) (List Lowered) := do
  (check p).mapError (Fault.rename .model)
  let es ← ofEquations p.dims 0 p.equations
  let _ ← unusedDims p.dims es
  return es

/-- Lowering checks what it looks up. -/
theorem lower_eq (p : Program) : lower p = pass p.lower.result := by
  rw [lower, Program.lower, Logged.result_bind]
  refine bind_eq_pass (by rw [check_eq, rename_pass]; rfl) fun _ hcheck => ?_
  replace hcheck := mapError_eq_ok.mp hcheck
  have hdims : ∀ eq ∈ p.equations, ∀ d, eq.RunsAlong d → p.dims.contains d = true :=
    fun eq heq => (Program.contains_of_check hcheck heq).1
  rw [Logged.result_bind]
  refine bind_eq_pass (ofEquations_eq hdims) fun es hes => ?_
  have hissued : ∀ e ∈ es, e.IssuedBy p.dims := by
    intro e he
    obtain ⟨k, hk⟩ := List.getElem?_of_mem he
    obtain ⟨eq, heq, hof⟩ := getElem?_ofEquations hes hk
    exact Lowered.ofEquation_issuedBy (hdims eq (List.mem_of_getElem? heq)) hof
  rw [unusedDims_eq hissued]
  rfl

end Checked

end LoopNest
