import Mathlib.Data.List.Induction
import LoopNest.DimTable.Build
import LoopNest.Proofs.Chain
import LoopNest.Proofs.Naming
/-!
# What every table of dimensions keeps

Tables come about by calls alone: one that fails leaves the table as it was, and one that succeeds
adds its dimension at the end and answers with the place it got (`answer_cases`).  So a table holds
the dimensions of some of its calls, in the order of the calls (`sublist_afterCalls`), and an
identity that was answered once means the same dimension ever after (`prefix_afterCalls`).

What later passes rely on is a fact about tables (`consistent`).  A dimension was admitted after
those before it; that it still fits the whole table is due to `sizeIn_take`: what a dimension has
from its chain depends on the dimensions up to it and on no later ones.
-/

namespace LoopNest.DimTable

variable {t : DimTable}

/-! ## Calls -/

/-- A call that is to add a dimension. -/
inductive Call where
  | space (name : String) (size : Option Nat)
  | time (name : String) (size : Option Nat)
  | stepping (name : String) (parent : DimId) (modulo : Nat)
  | sub (name : String) (parent : DimId) (side : Side) (left right : Int)
  | subLeft (name : String) (parent : DimId) (thickness : Int)
  | subRight (name : String) (parent : DimId) (thickness : Int)
  | subMiddle (name : String) (parent : DimId) (left right : Int)
  | conditional (name : String) (parent : DimId) (factor : Option Int) (predicate : Option Expr)

namespace Call

def run (t : DimTable) : Call → Except ModelError (DimTable × DimId)
  | .space name size => t.space name size
  | .time name size => t.time name size
  | .stepping name parent modulo => t.stepping name parent modulo
  | .sub name parent side left right => t.sub name parent side left right
  | .subLeft name parent thickness => t.subLeft name parent thickness
  | .subRight name parent thickness => t.subRight name parent thickness
  | .subMiddle name parent left right => t.subMiddle name parent left right
  | .conditional name parent factor predicate => t.conditional name parent factor predicate

/-- The dimension that the call describes. -/
def dimension : Call → Dimension
  | .space name size => ⟨name, .space size⟩
  | .time name size => ⟨name, .time size⟩
  | .stepping name parent modulo => ⟨name, .stepping parent modulo⟩
  | .sub name parent side left right =>
    ⟨name, .sub parent side (usedThickness side left right).1 (usedThickness side left right).2⟩
  | .subLeft name parent thickness => ⟨name, .sub parent .left thickness 0⟩
  | .subRight name parent thickness => ⟨name, .sub parent .right 0 thickness⟩
  | .subMiddle name parent left right => ⟨name, .sub parent .middle left right⟩
  | .conditional name parent _ (some e) => ⟨name, .conditional parent (.predicate e)⟩
  | .conditional name parent factor none => ⟨name, .conditional parent (.stride factor)⟩

end Call

/-- What a call leaves behind and what it answers. -/
def answer (t : DimTable) (c : Call) : DimTable × Except ModelError DimId :=
  match c.run t with
  | .ok (t', d) => (t', .ok d)
  | .error e => (t, .error e)

/-- The table after some calls, none of which is given up for the failure of another. -/
def afterCalls (cs : List Call) : DimTable := cs.foldl (fun t c => (t.answer c).1) .empty

/-! ## One call -/

/-- The run yields the table with `e` at its end, and the place of `e`. -/
def Adds (t : DimTable) (e : Dimension) (r : DimTable × DimId) : Prop :=
  r.1.entries = t.entries ++ [e] ∧ r.2 = ⟨t.size⟩

theorem insert_adds {name : String} {kind : DimKind} {fits : kind.Fits t.entries}
    {r : DimTable × DimId} (h : t.insert name kind fits = .ok r) : t.Adds ⟨name, kind⟩ r := by
  unfold insert at h
  split at h
  · cases h
  split at h
  · cases h
  split at h
  · cases h
    exact ⟨rfl, rfl⟩
  · split at h
    · cases h
      exact ⟨rfl, rfl⟩
    · cases h

theorem space_adds {name : String} {size : Option Nat} {r : DimTable × DimId}
    (h : t.space name size = .ok r) : t.Adds ⟨name, .space size⟩ r := by
  unfold space at h
  exact insert_adds h

theorem time_adds {name : String} {size : Option Nat} {r : DimTable × DimId}
    (h : t.time name size = .ok r) : t.Adds ⟨name, .time size⟩ r := by
  unfold time at h
  exact insert_adds h

theorem stepping_adds {name : String} {parent : DimId} {modulo : Nat} {r : DimTable × DimId}
    (h : t.stepping name parent modulo = .ok r) : t.Adds ⟨name, .stepping parent modulo⟩ r := by
  unfold stepping at h
  split at h
  · exact insert_adds h
  · cases h

theorem sub_adds {name : String} {parent : DimId} {side : Side} {left right : Int}
    {r : DimTable × DimId} (h : t.sub name parent side left right = .ok r) :
    t.Adds ⟨name, .sub parent side (usedThickness side left right).1
      (usedThickness side left right).2⟩ r := by
  unfold sub at h
  obtain ⟨_, -, h⟩ := bind_eq_ok.mp h
  dsimp only at h
  split at h
  · split at h
    · cases h
    · split at h
      · exact insert_adds h
      · cases h
  · cases h

theorem conditional_adds {name : String} {parent : DimId} {factor : Option Int}
    {predicate : Option Expr} {r : DimTable × DimId}
    (h : t.conditional name parent factor predicate = .ok r) :
    t.Adds (Call.conditional name parent factor predicate).dimension r := by
  cases factor with
  | none =>
      cases predicate with
      | none =>
          unfold conditional at h
          exact insert_adds h
      | some e =>
          unfold conditional at h
          dsimp only at h
          split at h
          · cases h
          · exact insert_adds h
  | some f =>
      cases predicate with
      | none =>
          unfold conditional at h
          dsimp only at h
          split at h
          · exact insert_adds h
          · cases h
      | some e => cases h

theorem Call.run_adds : ∀ {c : Call} {r : DimTable × DimId}, c.run t = .ok r → t.Adds c.dimension r
  | .space _ _, _, h => space_adds h
  | .time _ _, _, h => time_adds h
  | .stepping _ _ _, _, h => stepping_adds h
  | .sub _ _ _ _ _, _, h => sub_adds h
  | .subLeft _ _ _, _, h => sub_adds h
  | .subRight _ _ _, _, h => sub_adds h
  | .subMiddle _ _ _ _, _, h => sub_adds h
  | .conditional _ _ _ _, _, h => conditional_adds h

/-- A call that fails changes nothing; one that succeeds adds one dimension at the end and answers
with its place. -/
theorem answer_cases (t : DimTable) (c : Call) :
    (∃ e, t.answer c = (t, .error e)) ∨
      ∃ t', t.answer c = (t', .ok ⟨t.size⟩) ∧ t'.entries = t.entries ++ [c.dimension] := by
  unfold answer
  cases h : c.run t with
  | error e => exact .inl ⟨e, rfl⟩
  | ok r =>
      obtain ⟨hentries, hplace⟩ := Call.run_adds h
      exact .inr ⟨r.1, by rw [← hplace], hentries⟩

/-! ## Any number of calls -/

theorem afterCalls_snoc (cs : List Call) (c : Call) :
    afterCalls (cs ++ [c]) = ((afterCalls cs).answer c).1 := by
  simp [afterCalls]

/-- A table holds the dimensions that the accepted calls describe, in the order of the calls. -/
theorem sublist_afterCalls (cs : List Call) :
    (afterCalls cs).entries.Sublist (cs.map Call.dimension) := by
  induction cs using List.reverseRecOn with
  | nil => exact List.Sublist.refl _
  | append_singleton cs c ih =>
      rw [afterCalls_snoc, List.map_append]
      rcases answer_cases (afterCalls cs) c with ⟨e, h⟩ | ⟨t', h, hentries⟩
      · rw [h]
        exact ih.trans (List.sublist_append_left _ _)
      · rw [h, hentries]
        exact ih.append (List.Sublist.refl _)

/-- Further calls leave alone what earlier ones have built. -/
theorem prefix_afterCalls (cs more : List Call) :
    (afterCalls cs).entries <+: (afterCalls (cs ++ more)).entries := by
  induction more using List.reverseRecOn with
  | nil => simp
  | append_singleton more c ih =>
      rw [← List.append_assoc, afterCalls_snoc]
      rcases answer_cases (afterCalls (cs ++ more)) c with ⟨e, h⟩ | ⟨t', h, hentries⟩
      · rw [h]
        exact ih
      · rw [h, hentries]
        exact ih.trans (List.prefix_append _ _)

/-! ## The dimensions up to a place -/

theorem chainOf_take {m : Nat} : ∀ {n : Nat} {d : DimId}, d.index < m →
    Dimension.chainOf (t.entries.take m) n d = Dimension.chainOf t.entries n d
  | 0, _, _ => rfl
  | n + 1, d, h => by
      have hp : Dimension.parentIn? (t.entries.take m) d = t.parent? d := by
        simp only [parent?, Dimension.parentIn?, List.getElem?_take_of_lt h]
      rw [Dimension.chainOf, Dimension.chainOf, hp]
      change _ = d :: ((t.parent? d).map _).getD []
      cases hparent : t.parent? d with
      | none => rfl
      | some p => simp [chainOf_take (Nat.lt_trans (parent_lt hparent) h)]

theorem index_le_of_mem_chain {d a : DimId} (h : a ∈ t.chain d) : a.index ≤ d.index := by
  induction hn : d.index using Nat.strongRecOn generalizing d with
  | ind n ih =>
      cases hp : t.parent? d with
      | none =>
          rw [chain_of_root hp, List.mem_singleton] at h
          exact (hn ▸ h ▸ Nat.le_refl _)
      | some p =>
          rw [chain_of_parent hp] at h
          rcases List.mem_cons.mp h with rfl | h
          · exact Nat.le_of_eq hn
          · have hle := ih p.index (hn ▸ parent_lt hp) h rfl
            have hlt := parent_lt hp
            omega

/-- The size of a dimension does not depend on later dimensions. -/
theorem sizeIn_take {m : Nat} {d : DimId} (h : d.index < m) :
    Dimension.sizeIn (t.entries.take m) d = t.knownSize d := by
  have hchain : Dimension.chainIn (t.entries.take m) d = t.chain d := chainOf_take h
  unfold knownSize Dimension.sizeIn Dimension.lineageIn
  rw [hchain]
  refine congrArg _ (List.map_congr_left fun a ha => ?_)
  have ha := Nat.lt_of_le_of_lt (index_le_of_mem_chain ha) h
  simp only [Dimension.lookup, List.getElem?_take_of_lt ha]

/-! ## The way up -/

/-- The way from an identity up to the dimension that has no parent.  Every step looks a dimension
up that the table has stored, and goes on to the parent stored with it. -/
inductive Ascent (t : DimTable) : DimId → List DimId → DimId → Prop where
  | top {d : DimId} {e : Dimension} (stored : t.get? d = some e) (last : e.parent? = none) :
      Ascent t d [] d
  | up {d p r : DimId} {e : Dimension} {way : List DimId} (stored : t.get? d = some e)
      (next : e.parent? = some p) (above : Ascent t p way r) : Ascent t d (d :: way) r

/-- The ways that the passes take up the parents, all read off the chain, are the way up. -/
theorem Ascent.chain_eq {d r : DimId} {way : List DimId} (h : Ascent t d way r) :
    t.chain d = way ++ [r] := by
  induction h with
  | top stored last =>
      refine chain_of_root ?_
      unfold get? at stored
      rw [parent?, Dimension.parentIn?, stored, Option.bind_some, last]
  | @up d p r e way stored next above ih =>
      have hp : t.parent? d = some p := by
        unfold get? at stored
        rw [parent?, Dimension.parentIn?, stored, Option.bind_some, next]
      rw [chain_of_parent hp, ih]
      rfl

theorem get?_eq_some {d : DimId} {e : Dimension} (h : t.get? d = some e) :
    d.index < t.size ∧ t.get d = e := by
  unfold get? at h
  obtain ⟨hlt, -⟩ := List.getElem?_eq_some_iff.mp h
  exact ⟨hlt, by rw [get, Dimension.lookup, h, Option.getD_some]⟩

theorem get?_of_lt {d : DimId} (h : d.index < t.size) : t.get? d = some (t.get d) := by
  rw [get?, get, Dimension.lookup, List.getElem?_eq_getElem h, Option.getD_some]

theorem exists_ascent_of_loop {d : DimId} (h : d.index < t.size)
    (hd : (t.get d).ridesOnParent = false) :
    ∃ parts root, Ascent t d parts root ∧ ∀ a ∈ parts, (t.get a).isSub = true := by
  -- The induction is on places in the table: a parent stands before its child.
  induction hn : d.index using Nat.strongRecOn generalizing d with
  | ind n ih =>
      cases hp : (t.get d).parent? with
      | none => exact ⟨[], d, .top (get?_of_lt h) hp, by simp⟩
      | some p =>
          have hlt : p.index < d.index := parent_lt ((parent?_eq t d).trans hp)
          obtain ⟨side, left, right, hkind⟩ := kind_of_not_rides hd ((parent?_eq t d).trans hp)
          have hsub : (t.get d).isSub = true := by rw [Dimension.isSub, hkind]
          obtain ⟨parts, root, above, hparts⟩ :=
            ih p.index (hn ▸ hlt) (Nat.lt_trans hlt h) (ridesOnParent_of_sub hkind) rfl
          exact ⟨d :: parts, root, .up (get?_of_lt h) hp above,
            List.forall_mem_cons.mpr ⟨hsub, hparts⟩⟩

/-- From any dimension it leads there through dimensions that ride on their parents. -/
theorem exists_ascent {d : DimId} (h : d.index < t.size) : ∃ riders parts root,
    Ascent t d (riders ++ parts) root ∧ (∀ a ∈ riders, (t.get a).ridesOnParent = true) ∧
      ∀ a ∈ parts, (t.get a).isSub = true := by
  induction hn : d.index using Nat.strongRecOn generalizing d with
  | ind n ih =>
      cases hd : (t.get d).ridesOnParent with
      | false =>
          obtain ⟨parts, root, way, hparts⟩ := exists_ascent_of_loop h hd
          exact ⟨[], parts, root, way, by simp, hparts⟩
      | true =>
          cases hp : (t.get d).parent? with
          | none =>
              rw [ridesOnParent_of_parent?_eq_none ((parent?_eq t d).trans hp)] at hd
              cases hd
          | some p =>
              have hlt : p.index < d.index := parent_lt ((parent?_eq t d).trans hp)
              obtain ⟨riders, parts, root, above, hriders, hparts⟩ :=
                ih p.index (hn ▸ hlt) (Nat.lt_trans hlt h) rfl
              exact ⟨d :: riders, parts, root, .up (get?_of_lt h) hp above,
                List.forall_mem_cons.mpr ⟨hd, hriders⟩, hparts⟩

/-! ## What later passes rely on -/

/-- The dimensions of a table are well formed, and so are the ways between them. -/
structure Consistent (t : DimTable) : Prop where
  named : ∀ d e, t.get? d = some e → e.name ≠ ""
  distinct : (t.entries.map Dimension.name).Nodup
  parent_before : ∀ d e p, t.get? d = some e → e.parent? = some p → p.index < d.index
  predicate_before : ∀ d e c a, t.get? d = some e → e.predicate? = some c → c.Mentions a →
    a.index < d.index
  /-- A part is taken of a root or of another part. -/
  whole : ∀ d e p side left right, t.get? d = some e → e.kind = .sub p side left right →
    ∃ w, t.get? p = some w ∧ (w.parent? = none ∨ w.isSub = true)
  slots : ∀ d e modulo, t.get? d = some e → e.modulo? = some modulo → 0 < modulo
  advances : ∀ d e factor, t.get? d = some e → e.condition? = some (.stride (some factor)) →
    0 < factor
  /-- A part has room in a range whose size is known. -/
  room : ∀ d e p side left right, t.get? d = some e → e.kind = .sub p side left right →
    0 ≤ left ∧ 0 ≤ right ∧ ∀ size : Nat, t.knownSize p = some size → left + right ≤ size
  /-- The way up ends, and the passes that follow the parents all take it. -/
  ascends : ∀ d e, t.get? d = some e → ∃ riders parts,
    Ascent t d (riders ++ parts) (t.root d) ∧ t.chain d = riders ++ parts ++ [t.root d] ∧
      (∀ a ∈ riders, (t.get a).ridesOnParent = true) ∧ ∀ a ∈ parts, (t.get a).isSub = true

theorem admissible_get {d : DimId} (h : d.index < t.size) :
    (t.get d).Admissible (t.entries.take d.index) := by
  unfold size at h
  refine t.admissible _ _ (t.entries.drop (d.index + 1)) ?_
  rw [get, Dimension.lookup, List.getElem?_eq_getElem h, Option.getD_some,
    List.getElem_cons_drop, List.take_append_drop]

theorem nodup_names (t : DimTable) : (t.entries.map Dimension.name).Nodup := by
  refine List.pairwise_iff_getElem.mpr fun i j hi hj hlt heq => ?_
  rw [List.length_map] at hi hj
  refine (@admissible_get t ⟨j⟩ hj).fresh (List.mem_map.mpr ⟨t.entries[i], ?_, ?_⟩)
  · exact List.mem_take_iff_getElem.mpr ⟨i, Nat.lt_min.mpr ⟨hlt, hi⟩, rfl⟩
  · rw [List.getElem_map, List.getElem_map] at heq
    rw [heq, get, Dimension.lookup, List.getElem?_eq_getElem hj, Option.getD_some]

/-- Later passes may rely on every table. -/
theorem consistent (t : DimTable) : t.Consistent where
  named d e h := by
    obtain ⟨hlt, rfl⟩ := get?_eq_some h
    exact (admissible_get hlt).named
  distinct := nodup_names t
  parent_before d e p h hp := by
    obtain ⟨-, rfl⟩ := get?_eq_some h
    exact parent_lt ((parent?_eq t d).trans hp)
  predicate_before d e c a h hc ha := by
    obtain ⟨-, rfl⟩ := get?_eq_some h
    have hfits := t.fits_kind d
    unfold Dimension.predicate? at hc
    split at hc
    · rename_i hkind
      cases hc
      rw [hkind] at hfits
      have := hfits a (Expr.mem_dims_iff.mpr ha)
      rw [List.length_take] at this
      omega
    · cases hc
  whole d e p side left right h hkind := by
    obtain ⟨hlt, rfl⟩ := get?_eq_some h
    have hp : p.index < d.index := parent_lt (parent?_of_kind hkind)
    exact ⟨t.get p, get?_of_lt (Nat.lt_trans hp hlt),
      Dimension.parent?_or_isSub (ridesOnParent_of_sub hkind)⟩
  slots d e modulo h hmod := by
    obtain ⟨-, rfl⟩ := get?_eq_some h
    exact modulo_pos hmod
  advances d e factor h hc := by
    obtain ⟨-, rfl⟩ := get?_eq_some h
    have hfits := t.fits_kind d
    unfold Dimension.condition? at hc
    split at hc
    · rename_i hkind
      cases hc
      rw [hkind] at hfits
      exact hfits
    · cases hc
  room d e p side left right h hkind := by
    obtain ⟨-, rfl⟩ := get?_eq_some h
    obtain ⟨hleft, hright, -, hroom⟩ := hkind ▸ t.fits_kind d
    refine ⟨hleft, hright, fun size hsize => hroom size ?_⟩
    rw [sizeIn_take (parent_lt (parent?_of_kind hkind)), hsize]
  ascends d e h := by
    obtain ⟨hlt, rfl⟩ := get?_eq_some h
    obtain ⟨riders, parts, root, way, hriders, hparts⟩ := exists_ascent hlt
    have hroot : t.root d = root := by
      rw [DimTable.root, way.chain_eq, List.getLast?_concat, Option.getD_some]
    exact ⟨riders, parts, hroot ▸ way, hroot ▸ way.chain_eq, hriders, hparts⟩

/-- Whichever calls have been made, the table they leave is consistent, and the next call either
fails and leaves it as it is or adds the dimension it describes and answers with its place. -/
theorem afterCalls_consistent (cs : List Call) (c : Call) :
    (afterCalls cs).Consistent ∧
      ((∃ e, (afterCalls cs).answer c = (afterCalls cs, .error e)) ∨
        ∃ t, (afterCalls cs).answer c = (t, .ok ⟨(afterCalls cs).size⟩) ∧
          t.entries = (afterCalls cs).entries ++ [c.dimension]) :=
  ⟨consistent _, answer_cases _ c⟩

end LoopNest.DimTable
