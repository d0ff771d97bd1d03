import LoopNest.Proofs.Conflict
/-!
# Why an analysis fails

A run fails where one of its stages does, with the failure of that stage.  Taken apart in this way,
an analysis fails for one of three reasons (`Lowered.graph_eq_error`): a buffer is too small, the
reads of one equation demand opposite directions, or two accesses that are compared are at a
distance that no order of execution allows.  The last is always a read ahead of the write in time
(`AccessPair.carrier_eq_error`).
-/

namespace LoopNest

/-! ## Runs that fail -/

section Run

variable {ε α β : Type}

theorem bind_eq_error {x : Except ε α} {f : α → Except ε β} {e : ε} :
    x.bind f = .error e ↔ x = .error e ∨ ∃ a, x = .ok a ∧ f a = .error e := by
  cases x with
  | error e => simp [Except.bind]
  | ok a => simp [Except.bind]

theorem map_eq_error {x : Except ε α} {f : α → β} {e : ε} :
    x.map f = .error e ↔ x = .error e := by
  cases x with
  | error e => simp [Except.map]
  | ok a => simp [Except.map]

theorem exists_of_mapM_eq_error {f : α → Except ε β} {e : ε} : ∀ {xs : List α},
    xs.mapM f = .error e → ∃ x ∈ xs, f x = .error e
  | [], h => by cases h
  | x :: xs, h => by
      rw [List.mapM_cons] at h
      rcases bind_eq_error.mp h with h | ⟨y, _, h⟩
      · exact ⟨x, List.mem_cons_self, h⟩
      · rcases bind_eq_error.mp h with h | ⟨ys, _, h⟩
        · obtain ⟨z, hz, h⟩ := exists_of_mapM_eq_error h
          exact ⟨z, List.mem_cons_of_mem _ hz, h⟩
        · cases h

theorem exists_of_foldlM_eq_error {f : β → α → Except ε β} {e : ε} : ∀ {xs : List α} {b : β},
    xs.foldlM f b = .error e → ∃ x ∈ xs, ∃ b, f b x = .error e
  | [], _, h => by cases h
  | x :: xs, b, h => by
      rw [List.foldlM_cons] at h
      rcases bind_eq_error.mp h with h | ⟨c, _, h⟩
      · exact ⟨x, List.mem_cons_self, b, h⟩
      · obtain ⟨y, hy, h⟩ := exists_of_foldlM_eq_error h
        exact ⟨y, List.mem_cons_of_mem _ hy, h⟩

theorem forM_eq_ok {f : α → Except ε Unit} : ∀ {xs : List α},
    xs.forM f = .ok () ↔ ∀ x ∈ xs, f x = .ok ()
  | [] => iff_of_true rfl fun _ hx => absurd hx List.not_mem_nil
  | x :: xs => by
      rw [List.forall_mem_cons, ← forM_eq_ok]
      show (f x).bind (fun _ => xs.forM f) = _ ↔ _
      rw [bind_eq_ok]
      exact ⟨fun ⟨_, hx, h⟩ => ⟨hx, h⟩, fun ⟨hx, h⟩ => ⟨(), hx, h⟩⟩

theorem exists_of_forM_eq_error {f : α → Except ε Unit} {e : ε} : ∀ {xs : List α},
    xs.forM f = .error e → ∃ x ∈ xs, f x = .error e
  | [], h => by cases h
  | x :: xs, h => by
      replace h : (f x).bind (fun _ => xs.forM f) = .error e := h
      rcases bind_eq_error.mp h with h | ⟨_, _, h⟩
      · exact ⟨x, List.mem_cons_self, h⟩
      · obtain ⟨y, hy, h⟩ := exists_of_forM_eq_error h
        exact ⟨y, List.mem_cons_of_mem _ hy, h⟩

end Run

variable {t : DimTable}

/-! ## Comparing two accesses -/

namespace AccessPair

variable {p : AccessPair} {unindexed : Option Int} {e : AnalysisError}

theorem carrierAt_eq_error {root : DimId} {d : Int} (h : p.carrierAt t root d = .error e) :
    t.isTimeLike root = true ∧ readsFuture p.kind d = true ∧
      e = .illegalDependence p.first.tensor (t.name root) p.writerAndReader.1 p.writerAndReader.2
        .readsFuture := by
  rw [carrierAt] at h
  split at h
  · split at h
    · rename_i htime hfuture
      cases h
      exact ⟨htime, hfuture, rfl⟩
    · cases h
  · cases h

/-- A comparison fails at the first root along which the accesses are apart, if that is a root of
time and the read is ahead of the write. -/
theorem carrier_eq_error : ∀ {roots : List DimId}, p.carrier t unindexed roots = .error e →
    ∃ root ∈ roots, ∃ d, p.first.distance? t unindexed root p.second = some d ∧ d ≠ 0 ∧
      p.carrierAt t root d = .error e
  | [], h => by cases h
  | root :: inner, h => by
      rw [carrier] at h
      split at h
      · cases h
      · rename_i d hd
        split at h
        · obtain ⟨r, hr, hfail⟩ := carrier_eq_error h
          exact ⟨r, List.mem_cons_of_mem _ hr, hfail⟩
        · rename_i hne
          exact ⟨root, List.mem_cons_self, d, hd, hne, h⟩

end AccessPair

/-! ## All equations -/

namespace Lowered

variable {es : List Lowered} {e : AnalysisError}

theorem addSelfCarrier_eq_error {a : Lowered} {done : List Carrier} {read : Access}
    (h : addSelfCarrier t a done read = .error e) :
    (a.selfPair read).carrier t none (a.roots t) = .error e ∨
      ∃ tensor dim i j, e = .illegalDependence tensor dim i j .oppositeDirections := by
  rcases bind_eq_error.mp h with h | ⟨c, _, h⟩
  · exact Or.inl h
  · cases hr : c.root? with
    | none =>
        simp only [hr] at h
        cases h
    | some root =>
        simp only [hr] at h
        split at h
        · cases h
          exact Or.inr ⟨_, _, _, _, rfl⟩
        · cases h

theorem checkBuffer_eq_error {uses : List BufferUse} {tensor : String} {d : DimId}
    (h : checkBuffer t uses tensor d = .error e) :
    ∃ needed, e = .bufferTooSmall tensor (t.name d) needed (((t.get d).modulo?).getD 1) := by
  rw [checkBuffer] at h
  split at h
  · cases h
    exact ⟨_, rfl⟩
  · cases h

theorem checkBuffers_eq_error (h : checkBuffers t es = .error e) :
    ∃ tensor d needed m, e = .bufferTooSmall tensor d needed m := by
  obtain ⟨_, _, h⟩ := exists_of_forM_eq_error h
  obtain ⟨_, _, h⟩ := exists_of_forM_eq_error h
  obtain ⟨_, rfl⟩ := checkBuffer_eq_error h
  exact ⟨_, _, _, _, rfl⟩

/-- The reasons for which an analysis fails. -/
theorem graph_eq_error (hn : Numbered es) (h : graph t es = .error e) :
    checkBuffers t es = .error e ∨
      (∃ tensor dim i j, e = .illegalDependence tensor dim i j .oppositeDirections) ∨
      ∃ a ∈ es, ∃ b ∈ es, ∃ p, Compares t a b p ∧
        p.carrier t p.unindexed (commonRoots t a b) = .error e := by
  rcases bind_eq_error.mp h with h | ⟨_, _, h⟩
  · exact Or.inl h
  · refine Or.inr ?_
    rcases bind_eq_error.mp h with h | ⟨_, _, h⟩
    · obtain ⟨a, ha, h⟩ := exists_of_mapM_eq_error h
      rcases bind_eq_error.mp h with h | ⟨_, _, h⟩
      · obtain ⟨read, hr, done, h⟩ := exists_of_foldlM_eq_error h
        rcases addSelfCarrier_eq_error h with h | h
        · refine Or.inr ⟨a, ha, a, ha, a.selfPair read, Or.inr ⟨rfl, read, hr, rfl⟩, ?_⟩
          rwa [commonRoots_self, show (a.selfPair read).unindexed = none from if_pos rfl]
        · exact Or.inl h
      · cases h
    · rcases bind_eq_error.mp h with h | ⟨_, _, h⟩
      · obtain ⟨⟨a, b⟩, hab, h⟩ := exists_of_mapM_eq_error h
        have : Std.Asymm fun x y : Lowered => x.index < y.index := ⟨fun _ _ => Nat.lt_asymm⟩
        obtain ⟨ha, hb, hlt⟩ := (mem_orderedPairs_iff hn.pairwise).mp hab
        obtain ⟨p, hp, h⟩ := exists_of_mapM_eq_error h
        obtain ⟨hsource, hsink⟩ := ends_of_mem_crossPairs hp
        refine Or.inr ⟨a, ha, b, hb, p, Or.inl ⟨hlt, hp⟩, ?_⟩
        rw [AccessPair.unindexed, hsource, hsink, if_neg (Nat.ne_of_lt hlt)]
        exact map_eq_error.mp h
      · cases h

end Lowered

theorem Program.analyze_eq_error {es : List Lowered} {e : AnalysisError} :
    (Lowered.analyze t es).result = .error e ↔ Lowered.graph t es = .error e := by
  simp only [Lowered.analyze, Logged.result_bind, Logged.result_ofExcept, Logged.result_note,
    Logged.result_pure]
  cases Lowered.graph t es <;> simp [Except.bind]

end LoopNest
