import LoopNest.DimTable.Basic
/-!
# Chains of parents and their roots

Whatever stands on the chain of a dimension has the same root, so the loop that visits a
dimension's points, and every part that may take its place, run along the dimension's own root.
What a table admits of its dimensions it admits after those created before (`fits_kind`).
-/

namespace LoopNest.Dimension

theorem parent?_or_isSub {e : Dimension} (h : e.ridesOnParent = false) :
    e.parent? = none ∨ e.isSub = true := by
  cases e with
  | mk name kind => cases kind with
    | space size => exact .inl rfl
    | time size => exact .inl rfl
    | stepping p modulo => cases h
    | sub p side left right => exact .inr rfl
    | conditional p condition => cases h

theorem kind_of_isSub {e : Dimension} {p : DimId} (h : e.isSub = true) (hp : e.parent? = some p) :
    ∃ side left right, e.kind = .sub p side left right := by
  cases e with
  | mk name kind => cases kind with
    | sub q side left right =>
        cases hp
        exact ⟨side, left, right, rfl⟩
    | _ => cases h

end LoopNest.Dimension

namespace LoopNest.DimTable

variable {t : DimTable}

theorem chain_eq_cons (t : DimTable) (d : DimId) : ∃ above, t.chain d = d :: above := by
  cases hp : t.parent? d with
  | none => exact ⟨[], chain_of_root hp⟩
  | some p => exact ⟨t.chain p, chain_of_parent hp⟩

theorem mem_chain_self (t : DimTable) (d : DimId) : d ∈ t.chain d := by
  obtain ⟨above, h⟩ := chain_eq_cons t d
  rw [h]
  exact List.mem_cons_self

theorem chain_suffix_of_mem {d a : DimId} (h : a ∈ t.chain d) : t.chain a <:+ t.chain d := by
  -- The induction is on places in the table: a parent stands before its child.
  induction hn : d.index using Nat.strongRecOn generalizing d with
  | ind n ih =>
      cases hp : t.parent? d with
      | none =>
          rw [chain_of_root hp, List.mem_singleton] at h
          subst h
          exact List.suffix_refl _
      | some p =>
          rw [chain_of_parent hp] at h ⊢
          rcases List.mem_cons.mp h with rfl | h
          · exact ⟨[], chain_of_parent hp⟩
          · exact (ih p.index (hn ▸ parent_lt hp) h rfl).trans (List.suffix_cons _ _)

theorem root_eq_of_mem_chain {d a : DimId} (h : a ∈ t.chain d) : t.root a = t.root d := by
  obtain ⟨before, hs⟩ := chain_suffix_of_mem h
  obtain ⟨above, ha⟩ := chain_eq_cons t a
  unfold root
  rw [← hs, ha, List.getLast?_append]
  cases hl : (a :: above).getLast? with
  | none => simp at hl
  | some r => simp

theorem root_eq_of_derives {d a : DimId} (h : t.derives d a = true) : t.root d = t.root a :=
  (root_eq_of_mem_chain (List.contains_iff_mem.mp h)).symm

theorem root_eq_of_parent? {d p : DimId} (h : t.parent? d = some p) : t.root p = t.root d :=
  root_eq_of_mem_chain (chain_of_parent h ▸ List.mem_cons_of_mem _ (mem_chain_self t p))

theorem derives_self (t : DimTable) (d : DimId) : t.derives d d = true :=
  List.contains_iff_mem.mpr (mem_chain_self t d)

theorem derives_trans {a b c : DimId} (hab : t.derives a b = true) (hbc : t.derives b c = true) :
    t.derives a c = true :=
  List.contains_iff_mem.mpr
    ((chain_suffix_of_mem (List.contains_iff_mem.mp hab)).subset (List.contains_iff_mem.mp hbc))

theorem loopOf_mem_chain (t : DimTable) (d : DimId) : t.loopOf d ∈ t.chain d := by
  rw [loopOf]
  cases hf : (t.chain d).find? fun a => !(t.get a).ridesOnParent with
  | none => exact mem_chain_self t d
  | some l => exact List.mem_of_find?_eq_some hf

@[simp] theorem root_loopOf (t : DimTable) (d : DimId) : t.root (t.loopOf d) = t.root d :=
  root_eq_of_mem_chain (loopOf_mem_chain t d)

theorem root_mem_chain (t : DimTable) (d : DimId) : t.root d ∈ t.chain d := by
  obtain ⟨above, h⟩ := chain_eq_cons t d
  rw [root, h, List.getLast?_eq_some_getLast (List.cons_ne_nil _ _), Option.getD_some]
  exact List.getLast_mem _

@[simp] theorem root_root (t : DimTable) (d : DimId) : t.root (t.root d) = t.root d :=
  root_eq_of_mem_chain (root_mem_chain t d)

@[simp] theorem isTimeLike_root (t : DimTable) (d : DimId) :
    t.isTimeLike (t.root d) = t.isTimeLike d := by
  rw [isTimeLike, isTimeLike, root_root]

theorem isConditional_of_mem_conditionsOf {d c : DimId} (h : c ∈ t.conditionsOf d) :
    (t.get c).isConditional = true :=
  (List.mem_filter.mp h).2

theorem root_eq_of_mem_conditionsOf {d c : DimId} (h : c ∈ t.conditionsOf d) :
    t.root c = t.root d :=
  root_eq_of_mem_chain ((List.takeWhile_prefix _).subset (List.mem_filter.mp h).1)

/-! ## What a table admits -/

theorem parent?_eq (t : DimTable) (d : DimId) : t.parent? d = (t.get d).parent? := by
  unfold parent? Dimension.parentIn? get Dimension.lookup
  cases t.entries[d.index]? <;> rfl

theorem parent?_of_kind {d : DimId} {kind : DimKind} (h : (t.get d).kind = kind) :
    t.parent? d = kind.parent? := by
  rw [parent?_eq, Dimension.parent?, h]

theorem parent?_root (t : DimTable) (d : DimId) : t.parent? (t.root d) = none := by
  -- The induction is on places in the table: a parent stands before its child.
  induction hn : d.index using Nat.strongRecOn generalizing d with
  | ind n ih =>
      cases hp : t.parent? d with
      | none =>
          rw [root, chain_of_root hp]
          exact hp
      | some p =>
          rw [← root_eq_of_parent? hp]
          exact ih p.index (hn ▸ parent_lt hp) p rfl

theorem ridesOnParent_of_parent?_eq_none {d : DimId} (h : t.parent? d = none) :
    (t.get d).ridesOnParent = false := by
  rw [parent?_eq, Dimension.parent?] at h
  unfold Dimension.ridesOnParent Dimension.isConditional Dimension.condition? Dimension.isStepping
    Dimension.modulo?
  cases hk : (t.get d).kind <;> rw [hk] at h <;> first
    | rfl
    | cases h

/-- Some member of each chain has a loop of its own, at the latest the root. -/
theorem find?_chain (t : DimTable) (d : DimId) :
    ((t.chain d).find? fun a => !(t.get a).ridesOnParent) = some (t.loopOf d) := by
  have hroot := ridesOnParent_of_parent?_eq_none (t.parent?_root d)
  cases hf : (t.chain d).find? fun a => !(t.get a).ridesOnParent with
  | none => exact absurd hroot (by simpa using List.find?_eq_none.mp hf _ (root_mem_chain t d))
  | some l => rw [loopOf, hf, Option.getD_some]

theorem ridesOnParent_loopOf (t : DimTable) (d : DimId) :
    (t.get (t.loopOf d)).ridesOnParent = false := by
  simpa using List.find?_some (t.find?_chain d)

theorem loopOf_of_not_rides {d : DimId} (h : (t.get d).ridesOnParent = false) :
    t.loopOf d = d := by
  obtain ⟨above, hchain⟩ := chain_eq_cons t d
  rw [loopOf, hchain, List.find?_cons_of_pos (by simp [h]), Option.getD_some]

theorem loopOf_of_rides {d p : DimId} (h : (t.get d).ridesOnParent = true)
    (hp : t.parent? d = some p) : t.loopOf d = t.loopOf p := by
  have hfind := t.find?_chain d
  rw [chain_of_parent hp, List.find?_cons_of_neg (by simp [h]), t.find?_chain p] at hfind
  exact (Option.some.inj hfind).symm

/-- The loop that visits a dimension's points runs over what the dimension derives from or over a
part of it, unless that has no loop of its own. -/
theorem derives_loopOf {d a : DimId} (h : t.derives d a = true)
    (ha : (t.get a).ridesOnParent = false) : t.derives (t.loopOf d) a = true := by
  -- The induction is on places in the table: a parent stands before its child.
  induction hn : d.index using Nat.strongRecOn generalizing d with
  | ind n ih =>
      cases hd : (t.get d).ridesOnParent with
      | false => rwa [loopOf_of_not_rides hd]
      | true =>
          cases hp : t.parent? d with
          | none =>
              rw [ridesOnParent_of_parent?_eq_none hp] at hd
              cases hd
          | some p =>
              rw [loopOf_of_rides hd hp]
              refine ih p.index (hn ▸ parent_lt hp) (List.contains_iff_mem.mpr ?_) rfl
              have hmem := List.contains_iff_mem.mp h
              rw [chain_of_parent hp] at hmem
              refine (List.mem_cons.mp hmem).resolve_left fun heq => ?_
              rw [← heq, ha] at hd
              cases hd

/-- Every kind makes sense after the dimensions created before. -/
theorem fits_kind (t : DimTable) (d : DimId) :
    (t.get d).kind.Fits (t.entries.take d.index) := by
  unfold get Dimension.lookup
  cases h : t.entries[d.index]? with
  | none => trivial
  | some e =>
      obtain ⟨hlt, rfl⟩ := List.getElem?_eq_some_iff.mp h
      refine (t.admissible _ _ (t.entries.drop (d.index + 1)) ?_).fits
      rw [Option.getD_some, List.getElem_cons_drop, List.take_append_drop]

theorem modulo_pos {m : Nat} (h : (t.get d).modulo? = some m) : 0 < m := by
  have hfits := t.fits_kind d
  unfold Dimension.modulo? at h
  split at h
  · rename_i hk
    cases h
    rw [hk] at hfits
    exact hfits
  · cases h

theorem ridesOnParent_of_sub {d p : DimId} {side : Side} {left right : Int}
    (h : (t.get d).kind = .sub p side left right) : (t.get p).ridesOnParent = false := by
  obtain ⟨-, -, hrides, -⟩ := h ▸ t.fits_kind d
  have hlt : p.index < d.index := parent_lt (parent?_of_kind h)
  rwa [Dimension.lookup, List.getElem?_take_of_lt hlt] at hrides

theorem kind_of_not_rides {d p : DimId} (hd : (t.get d).ridesOnParent = false)
    (hp : t.parent? d = some p) : ∃ side left right, (t.get d).kind = .sub p side left right := by
  have hparent := (parent?_eq t d).symm.trans hp
  have hsub := (Dimension.parent?_or_isSub hd).resolve_left (by simp [hparent])
  exact Dimension.kind_of_isSub hsub hparent

theorem not_rides_of_derives {d a : DimId} (h : t.derives d a = true)
    (hd : (t.get d).ridesOnParent = false) : (t.get a).ridesOnParent = false := by
  -- The induction is on places in the table: a parent stands before its child.
  induction hn : d.index using Nat.strongRecOn generalizing d with
  | ind n ih =>
      have hmem := List.contains_iff_mem.mp h
      cases hp : t.parent? d with
      | none =>
          rw [chain_of_root hp, List.mem_singleton] at hmem
          exact hmem ▸ hd
      | some p =>
          rw [chain_of_parent hp] at hmem
          rcases List.mem_cons.mp hmem with rfl | hmem
          · exact hd
          · obtain ⟨side, left, right, hkind⟩ := kind_of_not_rides hd hp
            exact ih p.index (hn ▸ parent_lt hp) (List.contains_iff_mem.mpr hmem)
              (ridesOnParent_of_sub hkind) rfl

end LoopNest.DimTable
