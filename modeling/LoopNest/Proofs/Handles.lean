import LoopNest.Proofs.Checked.Programs
/-!
# What the check of a program leaves out

The check looks at the dimensions that an equation runs along and at those of its subdomain.  That
is all there is in an equation but for the displacements of its left-hand side, and these are looked
up when the equation is written, in the program or in a tree: a text is only made of issued
dimensions (`Checked.issuedBy_of_text`).  So a checked program is handled without a lookup in vain
exactly if its table has issued what those displacements mention (`Program.resolves_iff_of_check`).
-/

namespace LoopNest

namespace Checked

variable {t : DimTable}

/-! ## What has been written -/

theorem contains_of_name {d : DimId} {s : String} (h : name t d = .ok s) : t.contains d = true := by
  obtain ⟨e, he, -⟩ := bind_eq_ok.mp h
  unfold entry at he
  cases hget : t.get? d with
  | none =>
      rw [hget] at he
      cases he
  | some e => exact DimTable.contains_iff.mpr (List.getElem?_eq_some_iff.mp hget).1

mutual

/-- Only what the table has issued can be written. -/
theorem issuedBy_of_text : ∀ {e : Expr} {s : String}, text t e = .ok s → e.IssuedBy t
  | .int _, _, _ | .float _, _, _ | .and [], _, _ => Expr.issuedBy_of_atoms_eq_nil rfl
  | .symbol n, _, _ => Expr.issuedBy_symbol n
  | .dim _, _, h => Expr.issuedBy_dim.mpr (contains_of_name h)
  | .access _ _, _, h => by
      obtain ⟨_, his, -⟩ := bind_eq_ok.mp h
      exact Expr.issuedBy_access.mpr (issuedBy_of_indexTexts his)
  | .element _ _, _, h => by
      obtain ⟨_, hes, -⟩ := bind_eq_ok.mp h
      exact Expr.issuedBy_element.mpr (issuedBy_of_texts hes)
  | .neg _, _, h => by
      obtain ⟨_, he, -⟩ := bind_eq_ok.mp h
      exact Expr.issuedBy_neg.mpr (issuedBy_of_text he)
  | .binary _ _ _, _, h => by
      obtain ⟨_, ha, h⟩ := bind_eq_ok.mp h
      obtain ⟨_, hb, -⟩ := bind_eq_ok.mp h
      exact Expr.issuedBy_binary.mpr ⟨issuedBy_of_text ha, issuedBy_of_text hb⟩
  | .compare _ _ _, _, h => by
      obtain ⟨_, ha, h⟩ := bind_eq_ok.mp h
      obtain ⟨_, hb, -⟩ := bind_eq_ok.mp h
      exact Expr.issuedBy_compare.mpr ⟨issuedBy_of_text ha, issuedBy_of_text hb⟩
  | .and (_ :: _), _, h => by
      obtain ⟨_, hes, -⟩ := bind_eq_ok.mp h
      exact Expr.issuedBy_and.mpr (issuedBy_of_termTexts hes)
  | .call _ _, _, h => by
      obtain ⟨_, hes, -⟩ := bind_eq_ok.mp h
      exact Expr.issuedBy_call.mpr (issuedBy_of_texts hes)

theorem issuedBy_of_indexText : ∀ {i : Index} {s : String}, indexText t i = .ok s → i.IssuedBy t
  | .fixed _ _, _, h => by
      obtain ⟨_, hd, -⟩ := bind_eq_ok.mp h
      exact ⟨contains_of_name hd, fun shift hs => by cases hs⟩
  | .symbolic _ _, _, h => by
      obtain ⟨_, hd, h⟩ := bind_eq_ok.mp h
      obtain ⟨_, he, -⟩ := bind_eq_ok.mp h
      exact ⟨contains_of_name hd, fun shift hs => by cases hs; exact issuedBy_of_text he⟩

theorem issuedBy_of_texts : ∀ {es : List Expr} {ss : List String}, texts t es = .ok ss →
    ∀ e ∈ es, e.IssuedBy t
  | [], _, _ => fun _ he => absurd he List.not_mem_nil
  | _ :: _, _, h => by
      obtain ⟨_, he, h⟩ := bind_eq_ok.mp h
      obtain ⟨_, hes, -⟩ := bind_eq_ok.mp h
      exact List.forall_mem_cons.mpr ⟨issuedBy_of_text he, issuedBy_of_texts hes⟩

theorem issuedBy_of_termTexts : ∀ {es : List Expr} {ss : List String}, termTexts t es = .ok ss →
    ∀ e ∈ es, e.IssuedBy t
  | [], _, _ => fun _ he => absurd he List.not_mem_nil
  | _ :: _, _, h => by
      obtain ⟨_, he, h⟩ := bind_eq_ok.mp h
      obtain ⟨_, hes, -⟩ := bind_eq_ok.mp h
      exact List.forall_mem_cons.mpr ⟨issuedBy_of_text he, issuedBy_of_termTexts hes⟩

theorem issuedBy_of_indexTexts : ∀ {is : List Index} {ss : List String},
    indexTexts t is = .ok ss → ∀ i ∈ is, i.IssuedBy t
  | [], _, _ => fun _ hi => absurd hi List.not_mem_nil
  | _ :: _, _, h => by
      obtain ⟨_, hi, h⟩ := bind_eq_ok.mp h
      obtain ⟨_, his, -⟩ := bind_eq_ok.mp h
      exact List.forall_mem_cons.mpr ⟨issuedBy_of_indexText hi, issuedBy_of_indexTexts his⟩

end

theorem issuedBy_of_programText {p : Program} {s : String} (h : programText p = .ok s) :
    ∀ eq ∈ p.equations, eq.lhs.toExpr.IssuedBy p.dims := by
  obtain ⟨_, -, h⟩ := bind_eq_ok.mp h
  obtain ⟨_, hlines, -⟩ := bind_eq_ok.mp h
  intro eq heq
  obtain ⟨i, hi⟩ := List.getElem?_of_mem heq
  have hmem : (eq, i) ∈ p.equations.zipIdx := List.mem_zipIdx_iff_getElem?.mpr hi
  obtain ⟨_, -, hline⟩ := exists_of_forall₂_left (mapM_eq_ok.mp hlines) hmem
  obtain ⟨_, hlhs, -⟩ := bind_eq_ok.mp hline
  exact issuedBy_of_text hlhs

end Checked

/-! ## Checked programs -/

/-- The table has issued what the displacements of the access mention. -/
def Access.ShiftsIssuedBy (t : DimTable) (a : Access) : Prop :=
  ∀ i ∈ a.indices, ∀ shift ∈ i.symbolic?, shift.IssuedBy t

theorem Access.toExpr_issuedBy_iff {t : DimTable} {a : Access} :
    a.toExpr.IssuedBy t ↔ a.IndexedBy t ∧ a.ShiftsIssuedBy t := by
  rw [toExpr, Expr.issuedBy_access]
  simp only [Index.IssuedBy, forall_and]
  rfl

/-- Of all that an equation mentions the check leaves out the displacements of the left-hand side,
and the program is handled without a lookup in vain exactly if the table has issued these too. -/
theorem Program.resolves_iff_of_check {p : Program} (h : p.check = .ok ()) :
    (∀ eq ∈ p.equations, (∀ d, eq.RunsAlong d → p.dims.contains d = true) ∧
      (∀ pair ∈ eq.subdomain, p.dims.contains pair.1 = true ∧ p.dims.contains pair.2 = true) ∧
      (eq.IssuedBy p.dims ↔ eq.lhs.ShiftsIssuedBy p.dims)) ∧
    (p.Resolves ↔ ∀ eq ∈ p.equations, eq.lhs.ShiftsIssuedBy p.dims) := by
  have hparts : ∀ eq ∈ p.equations, (∀ d, eq.RunsAlong d → p.dims.contains d = true) ∧
      (∀ pair ∈ eq.subdomain, p.dims.contains pair.1 = true ∧ p.dims.contains pair.2 = true) ∧
      (eq.IssuedBy p.dims ↔ eq.lhs.ShiftsIssuedBy p.dims) := by
    intro eq heq
    obtain ⟨hdims, hmappings⟩ := contains_of_check h heq
    have hpairs : ∀ pair ∈ eq.subdomain,
        p.dims.contains pair.1 = true ∧ p.dims.contains pair.2 = true :=
      fun pair hp => Equation.contains_of_checkMapping (forM_eq_ok.mp hmappings pair hp)
    refine ⟨hdims, hpairs, fun hissued => ?_, fun hshifts => ?_⟩
    · exact (Access.toExpr_issuedBy_iff.mp hissued.lhs).2
    · refine ⟨Access.toExpr_issuedBy_iff.mpr ⟨fun i hi => hdims _ (Or.inl ?_), hshifts⟩,
        fun d hd => hdims d (Or.inr (Or.inl hd)), hpairs, fun d hd => hdims d (Or.inr (Or.inr hd))⟩
      exact List.mem_map.mpr ⟨i, hi, rfl⟩
  refine ⟨hparts, fun hres eq heq => ?_, fun hshifts => resolves_of_issued fun eq heq => ?_⟩
  · exact (Access.toExpr_issuedBy_iff.mp (Checked.issuedBy_of_programText hres.text eq heq)).2
  · exact (hparts eq heq).2.2.mpr (hshifts eq heq)

/-- A write over a part of its range, displaced by an element along another range. -/
def scattered : Program where
  dims := (do
    let (t, x) ← DimTable.empty.space "x" (some 2)
    let (t, _) ← t.subMiddle "xi" x 0 1
    let (t, _) ← t.space "y" (some 2)
    return t : Except ModelError DimTable).toOption.getD .empty
  scalars := []
  equations := [⟨⟨"u", [.symbolic ⟨0⟩ (.access "w" [.fixed ⟨2⟩ 1])]⟩,
    .access "v" [.fixed ⟨2⟩ 0, .symbolic ⟨0⟩ (.access "u" [.fixed ⟨0⟩ 0])], [(⟨0⟩, ⟨1⟩)], []⟩]

theorem resolves_iff_of_check_scattered : scattered.check = .ok () ∧ scattered.Resolves := by
  have hcheck : scattered.check = .ok () := by decide +kernel
  refine ⟨hcheck, (Program.resolves_iff_of_check hcheck).2.mpr fun eq heq i hi shift hs => ?_⟩
  cases List.mem_singleton.mp heq
  cases List.mem_singleton.mp hi
  cases hs
  have htext : Checked.text scattered.dims (.access "w" [.fixed ⟨2⟩ 1]) = .ok "w[y + 1]" := by
    decide +kernel
  exact Checked.issuedBy_of_text htext

/-- One range, and a write whose displacement mentions an identity that was never issued. -/
def stray : Program where
  dims := (do
    let (t, _) ← DimTable.empty.space "x" (some 2)
    return t : Except ModelError DimTable).toOption.getD .empty
  scalars := []
  equations := [⟨⟨"u", [.symbolic ⟨0⟩ (.dim ⟨1⟩)]⟩, .int 1, [], []⟩]

/-- A program passes the check although one of its equations mentions what the table has not issued;
it can neither be written nor be scheduled. -/
theorem not_resolves_stray :
    stray.check = .ok () ∧
    (∃ eq ∈ stray.equations, eq.Mentions ⟨1⟩ ∧ stray.dims.contains ⟨1⟩ = false) ∧
    Checked.programText stray = .error (.dimension ⟨1⟩) ∧
    Checked.schedule stray default = .error (.missing (.dimension ⟨1⟩)) ∧ ¬ stray.Resolves := by
  have htext : Checked.programText stray = .error (.dimension ⟨1⟩) := by decide +kernel
  have hschedule : (Checked.schedule stray default).map (fun _ => ()) =
      .error (.missing (.dimension ⟨1⟩)) := by
    decide +kernel
  refine ⟨by decide +kernel, ⟨_, List.mem_singleton.mpr rfl, Or.inl ?_, by decide +kernel⟩, htext,
    map_eq_error.mp hschedule, fun h => ?_⟩
  · exact Expr.mem_dims_iff.mp (by decide +kernel)
  · cases htext.symm.trans h.text

end LoopNest
