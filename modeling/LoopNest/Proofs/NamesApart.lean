import LoopNest.Problem.Program
import LoopNest.Proofs.Checked.Dimensions
import LoopNest.Proofs.Naming
/-!
# Names of dimensions and other names

A problem refers to everything by name.  `Stands` says what a name may stand for: a name used as a
dimension, for the one dimension of that name; a name used as a scalar, for itself, unless a
dimension has it.  A program that was read from a problem holds, name by name, what the names of the
problem stand for (`Problem.namesApart_of_toProgram`).

Names are resolved while dimensions are still being added, so `Stands` carries how many of them were
there.  For equations that is all of them.  For a condition it is those declared before: what a
condition takes for a scalar no earlier dimension is called, but a later one may be
(`Problem.not_symbols_apart`).
-/

namespace LoopNest

namespace DimTable

variable {t t' : DimTable} {name : String} {d : DimId}

/-- The dimension is the only one of that name. -/
def Named (t : DimTable) (name : String) (d : DimId) : Prop :=
  t.contains d = true ∧ ∀ a, t.contains a = true → (t.name a = name ↔ a = d)

theorem getElem?_names (hd : t.contains d = true) :
    (t.entries.map Dimension.name)[d.index]? = some (t.name d) := by
  rw [List.getElem?_map, name, get, Dimension.lookup,
    List.getElem?_eq_getElem (contains_iff.mp hd)]
  rfl

theorem eq_of_name_eq {a : DimId} (ha : t.contains a = true) (hd : t.contains d = true)
    (h : t.name a = t.name d) : a = d := by
  have hplace : a.index = d.index := by
    refine (List.getElem?_inj ?_ (nodup_names t)).mp ?_
    · rw [List.length_map]
      exact contains_iff.mp ha
    · rw [getElem?_names ha, getElem?_names hd, h]
  cases a
  cases d
  exact congrArg DimId.mk hplace

theorem named_iff : t.Named name d ↔ t.contains d = true ∧ t.name d = name := by
  constructor
  · rintro ⟨hd, hunique⟩
    exact ⟨hd, (hunique d hd).mpr rfl⟩
  · rintro ⟨hd, rfl⟩
    refine ⟨hd, fun a ha => ⟨eq_of_name_eq ha hd, ?_⟩⟩
    rintro rfl
    rfl

theorem named_of_find? (h : t.find? name = some d) : t.Named name d := by
  obtain ⟨i, hi, rfl⟩ := Option.map_eq_some_iff.mp h
  obtain ⟨hlt, hname, -⟩ := List.findIdx?_eq_some_iff_getElem.mp hi
  refine named_iff.mpr ⟨contains_iff.mpr hlt, ?_⟩
  rw [DimTable.name, get, Dimension.lookup, List.getElem?_eq_getElem hlt]
  exact beq_iff_eq.mp hname

theorem get_eq_default (h : t.contains d ≠ true) : t.get d = default := by
  rw [get, Dimension.lookup, List.getElem?_eq_none (Nat.le_of_not_lt fun hlt =>
    h (contains_iff.mpr hlt))]
  rfl

theorem contains_of_predicate?_eq_some {e : Expr} (h : (t.get d).predicate? = some e) :
    t.contains d = true := by
  by_contra hd
  rw [get_eq_default hd] at h
  cases h

theorem name_ne_of_find? (h : t.find? name = none) (hd : t.contains d = true) :
    t.name d ≠ name := by
  obtain ⟨e, he, hname⟩ := List.mem_map.mp (List.mem_of_getElem? (getElem?_names hd))
  have := List.findIdx?_eq_none_iff.mp (Option.map_eq_none_iff.mp h) e he
  rw [← hname]
  simpa using this

/-! ## Later dimensions -/

section Later

variable (h : t.entries <+: t'.entries)

include h

theorem get_later (hd : d.index < t.size) : t'.get d = t.get d := by
  rw [get, get, Dimension.lookup, Dimension.lookup, List.prefix_iff_getElem?.mp h d.index hd,
    List.getElem?_eq_getElem hd]

theorem contains_later (hd : t.contains d = true) : t'.contains d = true :=
  contains_iff.mpr (Nat.lt_of_lt_of_le (contains_iff.mp hd) h.length_le)

theorem Named.later (hd : t.Named name d) : t'.Named name d := by
  obtain ⟨hcontains, hname⟩ := named_iff.mp hd
  refine named_iff.mpr ⟨contains_later h hcontains, ?_⟩
  rwa [DimTable.name, get_later h (contains_iff.mp hcontains)]

end Later

end DimTable

namespace Problem

/-! ## What names stand for -/

/-- A name in a term, and what it is used for. -/
inductive Mention where
  | symbol (name : String)
  | tensor (name : String)
  /-- An iteration variable. -/
  | dim (name : String)
  /-- The dimension that an index runs along. -/
  | index (name : String)

/-- The dimension that a place runs along. -/
def Place.dim : Place → String
  | .fixed name _ => name
  | .symbolic name _ => name

mutual

/-- Whatever is named in a term: of an access first the tensor, then the dimensions that its indices
run along, then what is named in their displacements. -/
def Term.mentions : Term → List Mention
  | .int _ => []
  | .float _ => []
  | .symbol name => [.symbol name]
  | .dim name => [.dim name]
  | .access tensor is => .tensor tensor :: (is.map (fun i => .index i.dim) ++ Place.mentionsOf is)
  | .neg e => e.mentions
  | .sum es => Term.mentionsOf es
  | .product es => Term.mentionsOf es
  | .binary _ a b => a.mentions ++ b.mentions
  | .compare _ a b => a.mentions ++ b.mentions
  | .and es => Term.mentionsOf es
  | .call _ es => Term.mentionsOf es

/-- Whatever is named in the displacement of a place. -/
def Place.mentions : Place → List Mention
  | .fixed _ _ => []
  | .symbolic _ e => e.mentions

def Term.mentionsOf : List Term → List Mention
  | [] => []
  | e :: es => e.mentions ++ Term.mentionsOf es

def Place.mentionsOf : List Place → List Mention
  | [] => []
  | i :: is => i.mentions ++ Place.mentionsOf is

end

/-- What a name may stand for after the first `limit` dimensions of a table. -/
inductive Stands (t : DimTable) (limit : Nat) : Mention → Atom → Prop
  /-- None of the dimensions has the name of a scalar. -/
  | symbol {name : String} :
      (∀ d, d.index < limit → t.contains d = true → t.name d ≠ name) →
        Stands t limit (.symbol name) (.symbol name)
  | tensor {name : String} : name ≠ "" → Stands t limit (.tensor name) (.tensor name)
  | dim {name : String} {d : DimId} : t.Named name d → d.index < limit →
      Stands t limit (.dim name) (.dim d)
  | index {name : String} {d : DimId} : t.Named name d → d.index < limit →
      Stands t limit (.index name) (.index d)

/-- The expression names what the names of the term stand for, one by one. -/
def Spells (t : DimTable) (limit : Nat) (ms : List Mention) (xs : List Atom) : Prop :=
  List.Forall₂ (Stands t limit) ms xs

variable {t t' : DimTable}

theorem Stands.later {limit : Nat} (h : t.entries <+: t'.entries) (hlimit : limit ≤ t.size)
    {m : Mention} {x : Atom} (hm : Stands t limit m x) : Stands t' limit m x := by
  cases hm with
  | symbol hfree =>
      refine .symbol fun d hd _ => ?_
      have hlt := Nat.lt_of_lt_of_le hd hlimit
      rw [DimTable.name, DimTable.get_later h hlt]
      exact hfree d hd (DimTable.contains_iff.mpr hlt)
  | tensor hname => exact .tensor hname
  | dim hd hlt => exact .dim (hd.later h) hlt
  | index hd hlt => exact .index (hd.later h) hlt

/-! ## Terms -/

theorem toExprs_eq_ok : ∀ {es : List Term} {xs : List Expr},
    Term.toExprs t es = .ok xs ↔ List.Forall₂ (fun e x => e.toExpr t = .ok x) es xs
  | [], xs => by
      rw [Term.toExprs]
      cases xs <;> simp
  | e :: es, xs => by
      constructor
      · intro h
        obtain ⟨x, hx, h⟩ := bind_eq_ok.mp h
        obtain ⟨rest, hrest, h⟩ := bind_eq_ok.mp h
        cases h
        exact .cons hx (toExprs_eq_ok.mp hrest)
      · rintro (_ | ⟨hx, hrest⟩)
        exact bind_eq_ok.mpr ⟨_, hx, bind_eq_ok.mpr ⟨_, toExprs_eq_ok.mpr hrest, rfl⟩⟩

theorem toIndices_eq_ok : ∀ {is : List Place} {js : List Index},
    Place.toIndices t is = .ok js ↔ List.Forall₂ (fun i j => i.toIndex t = .ok j) is js
  | [], js => by
      rw [Place.toIndices]
      cases js <;> simp
  | i :: is, js => by
      constructor
      · intro h
        obtain ⟨j, hj, h⟩ := bind_eq_ok.mp h
        obtain ⟨rest, hrest, h⟩ := bind_eq_ok.mp h
        cases h
        exact .cons hj (toIndices_eq_ok.mp hrest)
      · rintro (_ | ⟨hj, hrest⟩)
        exact bind_eq_ok.mpr ⟨_, hj, bind_eq_ok.mpr ⟨_, toIndices_eq_ok.mpr hrest, rfl⟩⟩

theorem named_of_dimNamed {name : String} {d : DimId} (h : dimNamed t name = .ok d) :
    t.Named name d ∧ d.index < t.size := by
  unfold dimNamed at h
  split at h
  · rename_i hfind
    cases h
    have hnamed := DimTable.named_of_find? hfind
    exact ⟨hnamed, DimTable.contains_iff.mp hnamed.1⟩
  · cases h

theorem name_ne_of_scalarNamed {name : String} {x : Expr} (h : scalarNamed t name = .ok x) :
    x = .symbol name ∧ ∀ d, t.contains d = true → t.name d ≠ name := by
  unfold scalarNamed at h
  split at h
  · cases h
  · rename_i hfind
    cases h
    exact ⟨rfl, fun d hd => DimTable.name_ne_of_find? hfind hd⟩

theorem ne_of_checkTensor {tensor : String} (h : checkTensor tensor = .ok ()) : tensor ≠ "" := by
  unfold checkTensor at h
  split at h
  · cases h
  · assumption

theorem atoms_foldLeft {op : BinOp} {name : String} : ∀ {xs : List Expr} {x : Expr},
    foldLeft op name xs = .ok x → x.atoms = xs.flatMap Expr.atoms
  | [], _, h => by cases h
  | y :: xs, _, h => by
      cases h
      have hfold : ∀ (xs : List Expr) (y : Expr),
          (xs.foldl (Expr.fold op) y).atoms = y.atoms ++ xs.flatMap Expr.atoms := by
        intro xs
        induction xs with
        | nil => simp
        | cons z xs ih =>
            intro y
            rw [List.foldl_cons, ih, Expr.atoms_fold, List.flatMap_cons, List.append_assoc]
      rw [hfold, List.flatMap_cons]

theorem atoms_conjunction : ∀ {xs : List Expr} {x : Expr},
    conjunction xs = .ok x → x.atoms = xs.flatMap Expr.atoms
  | [], _, h => by cases h
  | _ :: _, _, h => by
      cases h
      exact Expr.atoms_all _

theorem dim_displaced (d : DimId) (x : Expr) : (Index.displaced d x).dim = d := by
  unfold Index.displaced
  split <;> rfl

theorem atoms_displaced (d : DimId) (x : Expr) :
    (Index.displaced d x).symbolic?.toList.flatMap Expr.atoms = x.atoms := by
  unfold Index.displaced
  split
  · rfl
  · exact List.flatMap_singleton _ _

mutual

/-- A term stands for an expression that names what the term names. -/
theorem toExpr_spells : ∀ {e : Term} {x : Expr}, e.toExpr t = .ok x →
    Spells t t.size e.mentions x.atoms
  | .int _, _, h | .float _, _, h => by
      cases h
      exact .nil
  | .symbol n, _, h => by
      obtain ⟨rfl, hfree⟩ := name_ne_of_scalarNamed h
      exact .cons (.symbol fun d _ => hfree d) .nil
  | .dim n, _, h => by
      obtain ⟨d, hd, h⟩ := bind_eq_ok.mp h
      cases h
      obtain ⟨hnamed, hlt⟩ := named_of_dimNamed hd
      exact .cons (.dim hnamed hlt) .nil
  | .access tensor is, _, h => by
      obtain ⟨_, htensor, h⟩ := bind_eq_ok.mp h
      obtain ⟨js, hjs, h⟩ := bind_eq_ok.mp h
      cases h
      obtain ⟨hdims, hshifts⟩ := toIndices_spells hjs
      rw [Expr.atoms_access]
      exact .cons (.tensor (ne_of_checkTensor htensor)) (List.rel_append hdims hshifts)
  | .neg e, _, h => by
      obtain ⟨x, hx, h⟩ := bind_eq_ok.mp h
      cases h
      show Spells t t.size e.mentions _
      rw [Expr.atoms_negated]
      exact toExpr_spells hx
  | .sum es, _, h | .product es, _, h => by
      obtain ⟨xs, hxs, h⟩ := bind_eq_ok.mp h
      rw [atoms_foldLeft h]
      exact toExprs_spells hxs
  | .binary op a b, _, h => by
      obtain ⟨x, hx, h⟩ := bind_eq_ok.mp h
      obtain ⟨y, hy, h⟩ := bind_eq_ok.mp h
      cases h
      rw [Expr.atoms_fold]
      exact List.rel_append (toExpr_spells hx) (toExpr_spells hy)
  | .compare op a b, _, h => by
      obtain ⟨x, hx, h⟩ := bind_eq_ok.mp h
      obtain ⟨y, hy, h⟩ := bind_eq_ok.mp h
      cases h
      rw [Expr.atoms_compare]
      exact List.rel_append (toExpr_spells hx) (toExpr_spells hy)
  | .and es, _, h => by
      obtain ⟨xs, hxs, h⟩ := bind_eq_ok.mp h
      rw [atoms_conjunction h]
      exact toExprs_spells hxs
  | .call f es, _, h => by
      obtain ⟨xs, hxs, h⟩ := bind_eq_ok.mp h
      cases h
      rw [Expr.atoms_call]
      exact toExprs_spells hxs

theorem toIndex_spells : ∀ {i : Place} {j : Index}, i.toIndex t = .ok j →
    Stands t t.size (.index i.dim) (.index j.dim) ∧
      Spells t t.size i.mentions (j.symbolic?.toList.flatMap Expr.atoms)
  | .fixed n k, _, h => by
      obtain ⟨d, hd, h⟩ := bind_eq_ok.mp h
      cases h
      obtain ⟨hnamed, hlt⟩ := named_of_dimNamed hd
      exact ⟨.index hnamed hlt, .nil⟩
  | .symbolic n e, _, h => by
      obtain ⟨d, hd, h⟩ := bind_eq_ok.mp h
      obtain ⟨x, hx, h⟩ := bind_eq_ok.mp h
      cases h
      obtain ⟨hnamed, hlt⟩ := named_of_dimNamed hd
      rw [dim_displaced, atoms_displaced]
      exact ⟨.index hnamed hlt, toExpr_spells hx⟩

theorem toExprs_spells : ∀ {es : List Term} {xs : List Expr}, Term.toExprs t es = .ok xs →
    Spells t t.size (Term.mentionsOf es) (xs.flatMap Expr.atoms)
  | [], _, h => by
      cases h
      exact .nil
  | e :: es, _, h => by
      obtain ⟨x, hx, h⟩ := bind_eq_ok.mp h
      obtain ⟨xs, hxs, h⟩ := bind_eq_ok.mp h
      cases h
      rw [List.flatMap_cons]
      exact List.rel_append (toExpr_spells hx) (toExprs_spells hxs)

theorem toIndices_spells : ∀ {is : List Place} {js : List Index},
    Place.toIndices t is = .ok js →
      Spells t t.size (is.map fun i => .index i.dim) (js.map fun j => .index j.dim) ∧
        Spells t t.size (Place.mentionsOf is)
          ((js.filterMap Index.symbolic?).flatMap Expr.atoms)
  | [], _, h => by
      cases h
      exact ⟨.nil, .nil⟩
  | i :: is, _, h => by
      obtain ⟨j, hj, h⟩ := bind_eq_ok.mp h
      obtain ⟨js, hjs, h⟩ := bind_eq_ok.mp h
      cases h
      obtain ⟨hdim, hshift⟩ := toIndex_spells hj
      obtain ⟨hdims, hshifts⟩ := toIndices_spells hjs
      rw [Index.filterMap_symbolic?_cons, List.flatMap_append]
      exact ⟨.cons hdim hdims, List.rel_append hshift hshifts⟩

end

/-! ## Dimensions -/

/-- What an origin may stand for after the first `limit` dimensions. -/
inductive Origin.Means (t : DimTable) (limit : Nat) : Origin → DimKind → Prop
  | space (size : Option Nat) : Means t limit (.space size) (.space size)
  | time (size : Option Nat) : Means t limit (.time size) (.time size)
  | stepping {name : String} {p : DimId} (modulo : Nat) : t.Named name p → p.index < limit →
      Means t limit (.stepping name modulo) (.stepping p modulo)
  | sub {name : String} {p : DimId} (side : Side) (left right : Int) : t.Named name p →
      p.index < limit → Means t limit (.sub name side left right)
        (.sub p side (DimTable.usedThickness side left right).1
          (DimTable.usedThickness side left right).2)
  | stride {name : String} {p : DimId} (factor : Option Int) : t.Named name p → p.index < limit →
      Means t limit (.conditional name factor none) (.conditional p (.stride factor))
  | predicate {name : String} {p : DimId} {e : Term} {x : Expr} : t.Named name p →
      p.index < limit → Spells t limit e.mentions x.atoms →
        Means t limit (.conditional name none (some e)) (.conditional p (.predicate x))

theorem Origin.Means.later {limit : Nat} (h : t.entries <+: t'.entries)
    (hlimit : limit ≤ t.size) {o : Origin} {kind : DimKind} (hm : o.Means t limit kind) :
    o.Means t' limit kind := by
  cases hm with
  | space size => exact .space size
  | time size => exact .time size
  | stepping modulo hp hlt => exact .stepping modulo (hp.later h) hlt
  | sub side left right hp hlt => exact .sub side left right (hp.later h) hlt
  | stride factor hp hlt => exact .stride factor (hp.later h) hlt
  | predicate hp hlt hspells =>
      exact .predicate (hp.later h) hlt (hspells.imp fun _ _ hm => hm.later h hlimit)

/-- The dimension is the declared one: what its declaration names was there before it. -/
structure Declares (t : DimTable) (decl : DimensionDecl) (d : DimId) : Prop where
  named : t.Named decl.name d
  origin : decl.origin.Means t d.index (t.get d).kind

theorem Declares.later (h : t.entries <+: t'.entries) {decl : DimensionDecl} {d : DimId}
    (hd : Declares t decl d) : Declares t' decl d := by
  have hlt := DimTable.contains_iff.mp hd.named.1
  refine ⟨hd.named.later h, ?_⟩
  rw [DimTable.get_later h hlt]
  exact hd.origin.later h (Nat.le_of_lt hlt)

theorem eq_ok_of_added {added : Except ModelError (DimTable × DimId)}
    (h : (do return (← added.mapError .model).1 : Except ProblemError DimTable) = .ok t') :
    ∃ d, added = .ok (t', d) := by
  obtain ⟨⟨_, d⟩, hadded, h⟩ := bind_eq_ok.mp h
  cases h
  exact ⟨d, mapError_eq_ok.mp hadded⟩

theorem addDimension_adds {decl : DimensionDecl} (h : addDimension t decl = .ok t') :
    ∃ kind, t'.entries = t.entries ++ [⟨decl.name, kind⟩] ∧
      decl.origin.Means t t.size kind := by
  obtain ⟨name, origin⟩ := decl
  cases origin with
  | space size =>
      obtain ⟨d, hadded⟩ := eq_ok_of_added h
      exact ⟨_, (DimTable.space_adds hadded).1, .space size⟩
  | time size =>
      obtain ⟨d, hadded⟩ := eq_ok_of_added h
      exact ⟨_, (DimTable.time_adds hadded).1, .time size⟩
  | stepping parent modulo =>
      obtain ⟨p, hp, h⟩ := bind_eq_ok.mp h
      obtain ⟨d, hadded⟩ := eq_ok_of_added h
      obtain ⟨hnamed, hlt⟩ := named_of_dimNamed hp
      exact ⟨_, (DimTable.stepping_adds hadded).1, .stepping modulo hnamed hlt⟩
  | sub parent side left right =>
      obtain ⟨p, hp, h⟩ := bind_eq_ok.mp h
      obtain ⟨d, hadded⟩ := eq_ok_of_added h
      obtain ⟨hnamed, hlt⟩ := named_of_dimNamed hp
      exact ⟨_, (DimTable.sub_adds hadded).1, .sub side left right hnamed hlt⟩
  | conditional parent factor predicate =>
      obtain ⟨p, hp, h⟩ := bind_eq_ok.mp h
      obtain ⟨e, he, h⟩ := bind_eq_ok.mp h
      obtain ⟨d, hadded⟩ := eq_ok_of_added h
      obtain ⟨hnamed, hlt⟩ := named_of_dimNamed hp
      cases predicate with
      | none =>
          cases he
          exact ⟨_, (DimTable.conditional_adds hadded).1, .stride factor hnamed hlt⟩
      | some term =>
          obtain ⟨x, hx, he⟩ := bind_eq_ok.mp he
          cases he
          -- A factor beside a condition ends the declaration.
          cases factor with
          | none =>
              exact ⟨_, (DimTable.conditional_adds hadded).1,
                .predicate hnamed hlt (toExpr_spells hx)⟩
          | some f => cases hadded

theorem declares_of_addDimension {decl : DimensionDecl} {done : List DimensionDecl}
    (hdone : List.Forall₂ (Declares t) done t.ids) (h : addDimension t decl = .ok t') :
    List.Forall₂ (Declares t') (done ++ [decl]) t'.ids := by
  obtain ⟨kind, hentries, hmeans⟩ := addDimension_adds h
  have hprefix : t.entries <+: t'.entries := ⟨_, hentries.symm⟩
  have hsize : t'.size = t.size + 1 := by
    rw [DimTable.size, hentries, List.length_append]
    rfl
  have hget : t'.get ⟨t.size⟩ = ⟨decl.name, kind⟩ := by
    rw [DimTable.get, Dimension.lookup, hentries, DimTable.size, List.getElem?_concat_length]
    rfl
  rw [DimTable.ids, hsize, List.range_succ, List.map_append, ← DimTable.ids]
  refine List.rel_append (hdone.imp fun _ _ hd => hd.later hprefix) (.cons ⟨?_, ?_⟩ .nil)
  · refine DimTable.named_iff.mpr ⟨DimTable.contains_iff.mpr ?_, ?_⟩
    · show t.size < t'.size
      omega
    · rw [DimTable.name, hget]
  · rw [hget]
    exact hmeans.later hprefix (Nat.le_refl _)

theorem declares_of_foldlM : ∀ {decls done : List DimensionDecl} {t t' : DimTable},
    List.Forall₂ (Declares t) done t.ids → decls.foldlM addDimension t = .ok t' →
      List.Forall₂ (Declares t') (done ++ decls) t'.ids
  | [], done, _, _, hdone, h => by
      cases h
      rwa [List.append_nil]
  | decl :: decls, done, _, _, hdone, h => by
      rw [List.foldlM_cons] at h
      obtain ⟨mid, hmid, h⟩ := bind_eq_ok.mp h
      rw [List.append_cons]
      exact declares_of_foldlM (declares_of_addDimension hdone hmid) h

/-! ## Equations and scalars -/

/-- The equation names what its declaration does, with all dimensions there. -/
structure Restates (t : DimTable) (decl : EquationDecl) (eq : Equation) : Prop where
  lhs : Spells t t.size (Term.access decl.tensor decl.indices).mentions eq.lhs.toExpr.atoms
  rhs : Spells t t.size decl.rhs.mentions eq.rhs.atoms
  subdomain : List.Forall₂ (fun names pair => t.Named names.1 pair.1 ∧ t.Named names.2 pair.2)
    decl.subdomain eq.subdomain
  implicit : List.Forall₂ t.Named decl.implicit eq.implicit

theorem toEquation_restates {decl : EquationDecl} {eq : Equation}
    (h : toEquation t decl = .ok eq) : Restates t decl eq := by
  obtain ⟨_, htensor, h⟩ := bind_eq_ok.mp h
  obtain ⟨indices, hindices, h⟩ := bind_eq_ok.mp h
  obtain ⟨rhs, hrhs, h⟩ := bind_eq_ok.mp h
  obtain ⟨subdomain, hsubdomain, h⟩ := bind_eq_ok.mp h
  obtain ⟨implicit, himplicit, h⟩ := bind_eq_ok.mp h
  cases h
  have hlhs : (Term.access decl.tensor decl.indices).toExpr t = .ok (.access decl.tensor indices) :=
    bind_eq_ok.mpr ⟨_, htensor, bind_eq_ok.mpr ⟨_, hindices, rfl⟩⟩
  refine ⟨toExpr_spells hlhs, toExpr_spells hrhs, (mapM_eq_ok.mp hsubdomain).imp ?_,
    (mapM_eq_ok.mp himplicit).imp fun _ _ hd => (named_of_dimNamed hd).1⟩
  intro names pair hpair
  obtain ⟨old, hold, hpair⟩ := bind_eq_ok.mp hpair
  obtain ⟨new, hnew, hpair⟩ := bind_eq_ok.mp hpair
  cases hpair
  exact ⟨(named_of_dimNamed hold).1, (named_of_dimNamed hnew).1⟩

theorem addScalar_eq_ok {done scalars : List String} {name : String}
    (h : addScalar t done name = .ok scalars) :
    t.find? name = none ∧ scalars = SortedSet.insert name done := by
  unfold addScalar at h
  split at h
  · cases h
  · rename_i hfind
    cases h
    exact ⟨hfind, rfl⟩

/-- The scalars of a program are the declared ones, and no dimension has the name of one. -/
theorem scalars_of_foldlM : ∀ {names done scalars : List String},
    names.foldlM (addScalar t) done = .ok scalars →
      (∀ s, s ∈ scalars ↔ s ∈ names ∨ s ∈ done) ∧ ∀ s ∈ names, t.find? s = none
  | [], done, _, h => by
      cases h
      exact ⟨fun s => by simp, fun _ hs => absurd hs List.not_mem_nil⟩
  | name :: names, done, _, h => by
      rw [List.foldlM_cons] at h
      obtain ⟨mid, hmid, h⟩ := bind_eq_ok.mp h
      obtain ⟨hfind, rfl⟩ := addScalar_eq_ok hmid
      obtain ⟨hmem, hfree⟩ := scalars_of_foldlM h
      refine ⟨fun s => ?_, List.forall_mem_cons.mpr ⟨hfind, hfree⟩⟩
      rw [hmem, SortedSet.mem_insert, List.mem_cons]
      constructor
      · rintro (hs | rfl | hs) <;> simp [*]
      · rintro ((rfl | hs) | hs) <;> simp [*]

end Problem

/-! ## Programs -/

/-- The expression stands in the program, and names in it were resolved after the first `limit`
dimensions. -/
inductive Program.Holds (p : Program) : Expr → Nat → Prop
  | lhs {eq : Equation} : eq ∈ p.equations → Holds p eq.lhs.toExpr p.dims.size
  | rhs {eq : Equation} : eq ∈ p.equations → Holds p eq.rhs p.dims.size
  | predicate {c : DimId} {e : Expr} : (p.dims.get c).predicate? = some e → Holds p e c.index

namespace Problem

/-- The names of a problem are those of its program, and kept apart there. -/
structure NamesApart (problem : Problem) (p : Program) : Prop where
  dimensions : List.Forall₂ (Declares p.dims) problem.dimensions p.dims.ids
  equations : List.Forall₂ (Restates p.dims) problem.equations p.equations
  scalars : ∀ s, s ∈ p.scalars ↔ s ∈ problem.scalars
  scalars_apart : ∀ s ∈ p.scalars, ∀ d, p.dims.contains d = true → p.dims.name d ≠ s
  /-- No symbol has the name of a dimension that was there when it was read. -/
  symbols_apart : ∀ e limit, p.Holds e limit → ∀ name, Expr.Occurs (.symbol name) e →
    ∀ d, d.index < limit → p.dims.contains d = true → p.dims.name d ≠ name
  tensors_named : ∀ e limit, p.Holds e limit → ∀ tensor is, Expr.Occurs (.access tensor is) e →
    tensor ≠ ""

theorem Declares.spells {decl : DimensionDecl} {c : DimId} {e : Expr} (h : Declares t decl c)
    (hpredicate : (t.get c).predicate? = some e) : ∃ ms, Spells t c.index ms e.atoms := by
  obtain ⟨name, origin⟩ := decl
  obtain ⟨-, hmeans⟩ := h
  unfold Dimension.predicate? at hpredicate
  split at hpredicate
  · rename_i hkind
    cases hpredicate
    rw [hkind] at hmeans
    change origin.Means t c.index _ at hmeans
    cases hmeans with
    | predicate _ _ hspells => exact ⟨_, hspells⟩
  · cases hpredicate

theorem exists_spells_of_holds {problem : Problem} {p : Program}
    (hdims : List.Forall₂ (Declares p.dims) problem.dimensions p.dims.ids)
    (hequations : List.Forall₂ (Restates p.dims) problem.equations p.equations) {e : Expr}
    {limit : Nat} (h : p.Holds e limit) : ∃ ms, Spells p.dims limit ms e.atoms := by
  cases h with
  | lhs heq =>
      obtain ⟨decl, -, hdecl⟩ := exists_of_forall₂_right hequations heq
      exact ⟨_, hdecl.lhs⟩
  | rhs heq =>
      obtain ⟨decl, -, hdecl⟩ := exists_of_forall₂_right hequations heq
      exact ⟨_, hdecl.rhs⟩
  | predicate hpredicate =>
      have hc := DimTable.contains_of_predicate?_eq_some hpredicate
      obtain ⟨decl, -, hdecl⟩ := exists_of_forall₂_right hdims (DimTable.mem_ids_iff.mpr hc)
      exact hdecl.spells hpredicate

/-- Reading a problem keeps its names apart. -/
theorem namesApart_of_toProgram {problem : Problem} {p : Program}
    (h : problem.toProgram = .ok p) : NamesApart problem p := by
  obtain ⟨dims, hdims, h⟩ := bind_eq_ok.mp h
  obtain ⟨scalars, hscalars, h⟩ := bind_eq_ok.mp h
  obtain ⟨equations, hequations, h⟩ := bind_eq_ok.mp h
  obtain ⟨_, -, h⟩ := bind_eq_ok.mp h
  cases h
  have hnone : List.Forall₂ (Declares DimTable.empty) [] DimTable.empty.ids := .nil
  have hdeclares : List.Forall₂ (Declares dims) problem.dimensions dims.ids :=
    declares_of_foldlM hnone hdims
  have hrestates : List.Forall₂ (Restates dims) problem.equations equations :=
    (mapM_eq_ok.mp hequations).imp fun _ _ heq => toEquation_restates heq
  obtain ⟨hmem, hfree⟩ := scalars_of_foldlM hscalars
  have hdeclared : ∀ s, s ∈ scalars ↔ s ∈ problem.scalars := by
    intro s
    rw [hmem]
    exact or_iff_left List.not_mem_nil
  refine ⟨hdeclares, hrestates, hdeclared, ?scalars, ?symbols, ?tensors⟩
  case scalars =>
    intro s hs d hd
    exact DimTable.name_ne_of_find? (hfree s ((hdeclared s).mp hs)) hd
  case symbols =>
    intro e limit he name hname d hlt hd
    obtain ⟨ms, hspells⟩ := exists_spells_of_holds hdeclares hrestates he
    obtain ⟨m, -, hm⟩ := exists_of_forall₂_right hspells (Expr.symbol_mem_atoms.mpr hname)
    cases hm with
    | symbol hapart => exact hapart d hlt hd
  case tensors =>
    intro e limit he tensor is haccess
    obtain ⟨ms, hspells⟩ := exists_spells_of_holds hdeclares hrestates he
    have htensor : Atom.tensor tensor ∈ e.atoms :=
      Expr.mem_atoms_iff.mpr ⟨_, haccess, List.mem_cons_self⟩
    obtain ⟨m, -, hm⟩ := exists_of_forall₂_right hspells htensor
    cases hm with
    | tensor hne => exact hne

/-- A sweep over the points at which a scalar of the run admits it. -/
def gatedSweep : Problem where
  dimensions := [⟨"time", .time (some 2)⟩, ⟨"t", .stepping "time" 2⟩, ⟨"x", .space (some 4)⟩,
    ⟨"open", .conditional "x" none (some (.compare .gt (.symbol "level") (.dim "x")))⟩]
  scalars := ["s", "r"]
  equations := [
    ⟨"u", [.fixed "t" 1, .symbolic "x" (.symbol "s")],
      .access "u" [.fixed "t" 0, .symbolic "x" (.access "shift" [.fixed "open" 0])], [], ["open"]⟩]

theorem namesApart_of_toProgram_gatedSweep :
    ∃ p, gatedSweep.toProgram = .ok p ∧ NamesApart gatedSweep p := by
  have accepted : gatedSweep.toProgram.toOption.isSome = true := by
    decide +kernel
  obtain ⟨p, hp⟩ := Option.isSome_iff_exists.mp accepted
  exact ⟨p, toOption_eq_some.mp hp, namesApart_of_toProgram (toOption_eq_some.mp hp)⟩

/-! ## Names taken later -/

/-- A condition on a scalar, with or without a dimension of that name before it. -/
def namesake (before after : List DimensionDecl) : Problem where
  dimensions := before ++ [⟨"x", .space (some 4)⟩,
    ⟨"c", .conditional "x" none (some (.compare .gt (.symbol "y") (.int 0)))⟩] ++ after
  scalars := []
  equations := []

/-- A condition may name a scalar that a later dimension is called, though a dimension declared
earlier may not be called so. -/
theorem not_symbols_apart :
    (∃ p e, (namesake [] [⟨"y", .space (some 3)⟩]).toProgram = .ok p ∧
      (p.dims.get ⟨1⟩).predicate? = some e ∧ Expr.Occurs (.symbol "y") e ∧
      p.dims.contains ⟨2⟩ = true ∧ p.dims.name ⟨2⟩ = "y") ∧
    (namesake [⟨"y", .space (some 3)⟩] []).toProgram =
      .error (.invalid (.symbolIsDimension "y")) := by
  refine ⟨⟨_, _, rfl, rfl, ?_, rfl, rfl⟩, rfl⟩
  exact .inside List.mem_cons_self .here

end Problem

end LoopNest
