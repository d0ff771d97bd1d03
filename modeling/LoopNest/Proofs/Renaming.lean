import LoopNest.Proofs.Kinds
import LoopNest.Proofs.SubdomainPairs
/-!
# Dimensions under other names

A problem may call its dimensions otherwise (`Problem.rename`), as long as no two of them get one
name and none gets a name that is taken (`Problem.Renames`).  Each step of the reading then resolves
the new names to what the old ones stood for: the tables list the same dimensions but for their
names (`DimTable.Renamed`), and terms stand for the very same expressions
(`Problem.toExpr_rename`).

One thing does change.  The pairs of a subdomain are read in the order of their names, so under
other names they come in another order (`Problem.toProgram_rename`).
-/

namespace LoopNest

namespace Problem

/-! ## Renaming -/

variable (f : String → String)

mutual

/-- The term with each dimension `n` called `f n`. -/
def Term.rename : Term → Term
  | .int v => .int v
  | .float x => .float x
  | .symbol n => .symbol n
  | .dim n => .dim (f n)
  | .access tensor is => .access tensor (Place.renameAll is)
  | .neg e => .neg e.rename
  | .sum es => .sum (Term.renameAll es)
  | .product es => .product (Term.renameAll es)
  | .binary op a b => .binary op a.rename b.rename
  | .compare op a b => .compare op a.rename b.rename
  | .and es => .and (Term.renameAll es)
  | .call g es => .call g (Term.renameAll es)

def Place.rename : Place → Place
  | .fixed n k => .fixed (f n) k
  | .symbolic n e => .symbolic (f n) e.rename

def Term.renameAll : List Term → List Term
  | [] => []
  | e :: es => e.rename :: Term.renameAll es

def Place.renameAll : List Place → List Place
  | [] => []
  | i :: is => i.rename :: Place.renameAll is

end

def Origin.rename : Origin → Origin
  | .space size => .space size
  | .time size => .time size
  | .stepping parent modulo => .stepping (f parent) modulo
  | .sub parent side left right => .sub (f parent) side left right
  | .conditional parent factor condition =>
    .conditional (f parent) factor (condition.map (Term.rename f))

def DimensionDecl.rename (decl : DimensionDecl) : DimensionDecl where
  name := f decl.name
  origin := decl.origin.rename f

/-- The pairs of the subdomain are sorted anew, as they are whenever a problem is read. -/
def EquationDecl.rename (decl : EquationDecl) : EquationDecl where
  tensor := decl.tensor
  indices := Place.renameAll f decl.indices
  rhs := decl.rhs.rename f
  subdomain := sortedPairs (decl.subdomain.map fun pair => (f pair.1, f pair.2))
  implicit := decl.implicit.map f

end Problem

/-- The problem with each dimension `n` called `f n`, and all else as it was. -/
def Problem.rename (f : String → String) (p : Problem) : Problem where
  dimensions := p.dimensions.map (DimensionDecl.rename f)
  scalars := p.scalars
  equations := p.equations.map (EquationDecl.rename f)

namespace Problem

/-- Whatever is named in the condition of a dimension, if it has one. -/
def Origin.mentions : Origin → List Mention
  | .conditional _ _ (some e) => e.mentions
  | _ => []

def EquationDecl.mentions (decl : EquationDecl) : List Mention :=
  (Term.access decl.tensor decl.indices).mentions ++ decl.rhs.mentions

/-- Names of the dimensions. -/
def names (p : Problem) : List String := p.dimensions.map DimensionDecl.name

/-- Whatever is named in the terms of the problem. -/
def mentions (p : Problem) : List Mention :=
  p.dimensions.flatMap (fun decl => decl.origin.mentions) ++
    p.equations.flatMap EquationDecl.mentions

def Mention.symbol? : Mention → Option String
  | .symbol name => some name
  | _ => none

/-- No dimension is called as a scalar in a term is. -/
def Clear (f : String → String) (names : List String) (ms : List Mention) : Prop :=
  ∀ s ∈ ms.filterMap Mention.symbol?, ∀ n ∈ names, f n ≠ s

instance (f : String → String) (names : List String) (ms : List Mention) :
    Decidable (Clear f names ms) :=
  inferInstanceAs (Decidable (∀ s ∈ ms.filterMap Mention.symbol?, ∀ n ∈ names, f n ≠ s))

/-- The new names are names for the dimensions of the problem: one for each, and none that is taken
by a scalar. -/
structure Renames (f : String → String) (p : Problem) : Prop where
  apart : ∀ m ∈ p.names, ∀ n ∈ p.names, f m = f n → m = n
  named : ∀ n ∈ p.names, f n ≠ ""
  scalars : ∀ n ∈ p.names, f n ∉ p.scalars
  symbols : Clear f p.names p.mentions

instance (f : String → String) (p : Problem) : Decidable (p.Renames f) :=
  decidable_of_iff ((∀ m ∈ p.names, ∀ n ∈ p.names, f m = f n → m = n) ∧
      (∀ n ∈ p.names, f n ≠ "") ∧ (∀ n ∈ p.names, f n ∉ p.scalars) ∧ Clear f p.names p.mentions)
    ⟨fun ⟨apart, named, scalars, symbols⟩ => ⟨apart, named, scalars, symbols⟩,
      fun h => ⟨h.apart, h.named, h.scalars, h.symbols⟩⟩

end Problem

/-! ## Tables -/

namespace DimTable

/-- The dimensions of `u` are those of `t`, each `n` called `f n`, and those are among `names`. -/
structure Renamed (f : String → String) (names : List String) (t u : DimTable) : Prop where
  entries : u.entries = t.entries.map fun d => ⟨f d.name, d.kind⟩
  declared : ∀ d ∈ t.entries, d.name ∈ names
  apart : ∀ m ∈ names, ∀ n ∈ names, f m = f n → m = n

namespace Renamed

variable {f : String → String} {names : List String} {t u : DimTable} {n : String}

section Lookup

variable (h : Renamed f names t u)

include h

theorem sameKinds : t.SameKinds u := by
  rw [SameKinds, h.entries, List.map_map]
  rfl

theorem find? (hn : n ∈ names) : u.find? (f n) = t.find? n := by
  have hsame : ∀ d ∈ t.entries, (f d.name == f n) = (d.name == n) := by
    intro d hd
    rw [Bool.eq_iff_iff, beq_iff_eq, beq_iff_eq]
    exact ⟨h.apart _ (h.declared d hd) _ hn, congrArg f⟩
  rw [DimTable.find?, DimTable.find?, h.entries, List.findIdx?_map]
  refine congrArg (Option.map DimId.mk) ?_
  clear h hn
  generalize t.entries = es at hsame
  induction es with
  | nil => rfl
  | cons d es ih =>
      obtain ⟨hd, hes⟩ := List.forall_mem_cons.mp hsame
      rw [List.findIdx?_cons, List.findIdx?_cons, Function.comp_apply, hd, ih hes]

theorem mem_names {d : DimId} (hd : t.find? n = some d) : n ∈ names := by
  obtain ⟨hcontains, hname⟩ := named_iff.mp (named_of_find? hd)
  have hmem := List.mem_of_getElem? (getElem?_names hcontains)
  rw [hname] at hmem
  obtain ⟨e, he, rfl⟩ := List.mem_map.mp hmem
  exact h.declared e he

theorem find?_eq_none (hs : ∀ m ∈ names, f m ≠ n) : u.find? n = none := by
  rw [DimTable.find?, Option.map_eq_none_iff, List.findIdx?_eq_none_iff, h.entries]
  intro e he
  obtain ⟨d, hd, rfl⟩ := List.mem_map.mp he
  exact beq_eq_false_iff_ne.mpr (hs _ (h.declared d hd))

end Lookup

/-! Whatever may be added to a table, may be added under its new name. -/

section Added

/-- The run yields a table in which the dimensions are called otherwise. -/
def Follows (f : String → String) (names : List String) (r : DimTable × DimId)
    (run : Except ModelError (DimTable × DimId)) : Prop :=
  ∃ r', run = .ok r' ∧ Renamed f names r.1 r'.1

variable {name : String} {r : DimTable × DimId} (h : Renamed f names t u) (hname : name ∈ names)
  (hne : f name ≠ "")

include h hname hne

theorem insert {kind : DimKind} {fits : kind.Fits t.entries}
    (hr : t.insert name kind fits = .ok r) (fits' : kind.Fits u.entries) :
    Follows f names r (u.insert (f name) kind fits') := by
  obtain ⟨hentries, -⟩ := insert_adds hr
  have hadmissible := r.1.admissible t.entries ⟨name, kind⟩ [] hentries
  have hfresh : f name ∉ u.entries.map Dimension.name := by
    rw [h.entries, List.map_map]
    intro hmem
    obtain ⟨d, hd, heq⟩ := List.mem_map.mp hmem
    refine hadmissible.fresh (List.mem_map.mpr ⟨d, hd, ?_⟩)
    exact h.apart _ (h.declared d hd) _ hname heq
  obtain ⟨r', hr'⟩ : ∃ r', u.insert (f name) kind fits' = .ok r' := by
    unfold DimTable.insert
    rw [dif_neg hne, dif_neg hfresh]
    split
    · exact ⟨_, rfl⟩
    · rename_i p hp
      have hissued : p.index < u.size := h.sameKinds.size ▸ hadmissible.parent_issued p hp
      rw [dif_pos hissued]
      exact ⟨_, rfl⟩
  refine ⟨r', hr', ?_, ?_, h.apart⟩
  · rw [(insert_adds hr').1, hentries, List.map_append, h.entries]
    rfl
  · rw [hentries]
    intro d hd
    rcases List.mem_append.mp hd with hd | hd
    · exact h.declared d hd
    · exact List.mem_singleton.mp hd ▸ hname

theorem stepping {p : DimId} {modulo : Nat} (hr : t.stepping name p modulo = .ok r) :
    Follows f names r (u.stepping (f name) p modulo) := by
  unfold DimTable.stepping at hr ⊢
  split at hr
  · rename_i hslots
    rw [dif_pos hslots]
    exact h.insert hname hne hr hslots
  · cases hr

theorem sub {p : DimId} {side : Side} {left right : Int}
    (hr : t.sub name p side left right = .ok r) :
    Follows f names r (u.sub (f name) p side left right) := by
  unfold DimTable.sub at hr ⊢
  obtain ⟨_, hcheck, hr⟩ := bind_eq_ok.mp hr
  dsimp only at hr
  split at hr
  · rename_i hsign
    split at hr
    · cases hr
    · rename_i hrides
      split at hr
      · rename_i hroom
        have hrides' : ¬(u.get p).ridesOnParent = true := by
          rwa [← h.sameKinds.ridesOnParent]
        have hroom' : leavesRoom (usedThickness side left right).1
            (usedThickness side left right).2 (u.knownSize p) = true := by
          rwa [← h.sameKinds.knownSize]
        have hfits : (DimKind.sub p side (usedThickness side left right).1
            (usedThickness side left right).2).Fits u.entries :=
          ⟨hsign.1, hsign.2, by simpa [get] using hrides', fun size hknown =>
            le_of_leavesRoom (hknown ▸ hroom')⟩
        obtain ⟨r', hr', hrenamed⟩ := h.insert hname hne hr hfits
        refine ⟨r', bind_eq_ok.mpr ⟨(), h.sameKinds.check p ▸ hcheck, ?_⟩, hrenamed⟩
        dsimp only
        rw [dif_pos hsign, dif_neg hrides', dif_pos hroom']
        exact hr'
      · cases hr
  · cases hr

theorem conditional {p : DimId} {factor : Option Int} {predicate : Option Expr}
    (hr : t.conditional name p factor predicate = .ok r) :
    Follows f names r (u.conditional (f name) p factor predicate) := by
  cases factor with
  | none =>
      cases predicate with
      | none =>
          unfold DimTable.conditional at hr ⊢
          exact h.insert hname hne hr trivial
      | some e =>
          unfold DimTable.conditional at hr ⊢
          dsimp only at hr ⊢
          split at hr
          · cases hr
          · rename_i hissued
            have hissued' : e.dims.find? (fun a => !u.contains a) = none := by
              rw [← hissued]
              exact congrArg (fun q => e.dims.find? q)
                (funext fun a => congrArg (! ·) (h.sameKinds.contains a).symm)
            split
            · rename_i hforeign
              cases hissued'.symm.trans hforeign
            · exact h.insert hname hne hr _
  | some k =>
      cases predicate with
      | none =>
          unfold DimTable.conditional at hr ⊢
          dsimp only at hr ⊢
          split at hr
          · rename_i hadvances
            rw [dif_pos hadvances]
            exact h.insert hname hne hr hadvances
          · cases hr
      | some e => cases hr

end Added

end Renamed

end DimTable

namespace Problem

variable {f : String → String} {names : List String} {t u : DimTable}

theorem clear_append {ms ms' : List Mention} :
    Clear f names (ms ++ ms') ↔ Clear f names ms ∧ Clear f names ms' := by
  rw [Clear, List.filterMap_append]
  exact List.forall_mem_append

theorem Clear.of_subset {ms ms' : List Mention} (h : Clear f names ms') (hsub : ms ⊆ ms') :
    Clear f names ms := by
  intro s hs
  obtain ⟨m, hm, hsymbol⟩ := List.mem_filterMap.mp hs
  exact h s (List.mem_filterMap.mpr ⟨m, hsub hm, hsymbol⟩)

theorem Clear.displacements {tensor : String} {is : List Place}
    (h : Clear f names (Term.access tensor is).mentions) : Clear f names (Place.mentionsOf is) :=
  h.of_subset fun _ hm => List.mem_cons_of_mem _ (List.mem_append_right _ hm)

/-! ## Terms -/

theorem dimNamed_rename (h : t.Renamed f names u) {n : String} {d : DimId}
    (hd : dimNamed t n = .ok d) : dimNamed u (f n) = .ok d := by
  unfold dimNamed at hd ⊢
  split at hd
  · rename_i hfind
    rw [h.find? (h.mem_names hfind), hfind]
    exact hd
  · cases hd

theorem scalarNamed_rename (h : t.Renamed f names u) {s : String} {x : Expr}
    (hs : ∀ n ∈ names, f n ≠ s) (hx : scalarNamed t s = .ok x) : scalarNamed u s = .ok x := by
  obtain ⟨rfl, -⟩ := name_ne_of_scalarNamed hx
  rw [scalarNamed, h.find?_eq_none hs]

mutual

/-- Under the new names a term stands for what it stood for. -/
theorem toExpr_rename (h : t.Renamed f names u) : ∀ {e : Term} {x : Expr},
    Clear f names e.mentions → e.toExpr t = .ok x → (e.rename f).toExpr u = .ok x
  | .int _, _, _, hx => hx
  | .float _, _, _, hx => hx
  | .symbol s, _, hclear, hx => scalarNamed_rename h (hclear s (List.mem_singleton.mpr rfl)) hx
  | .dim n, _, _, hx => by
      obtain ⟨d, hd, hx⟩ := bind_eq_ok.mp hx
      exact bind_eq_ok.mpr ⟨d, dimNamed_rename h hd, hx⟩
  | .access tensor is, _, hclear, hx => by
      obtain ⟨_, htensor, hx⟩ := bind_eq_ok.mp hx
      obtain ⟨js, hjs, hx⟩ := bind_eq_ok.mp hx
      exact bind_eq_ok.mpr ⟨_, htensor,
        bind_eq_ok.mpr ⟨js, toIndices_rename h hclear.displacements hjs, hx⟩⟩
  | .neg e, _, hclear, hx => by
      obtain ⟨x, he, hx⟩ := bind_eq_ok.mp hx
      exact bind_eq_ok.mpr ⟨x, toExpr_rename h hclear he, hx⟩
  | .sum es, _, hclear, hx => by
      obtain ⟨xs, hes, hx⟩ := bind_eq_ok.mp hx
      exact bind_eq_ok.mpr ⟨xs, toExprs_rename h hclear hes, hx⟩
  | .product es, _, hclear, hx => by
      obtain ⟨xs, hes, hx⟩ := bind_eq_ok.mp hx
      exact bind_eq_ok.mpr ⟨xs, toExprs_rename h hclear hes, hx⟩
  | .binary op a b, _, hclear, hx => by
      obtain ⟨ha, hb⟩ := clear_append.mp hclear
      obtain ⟨x, hax, hx⟩ := bind_eq_ok.mp hx
      obtain ⟨y, hby, hx⟩ := bind_eq_ok.mp hx
      exact bind_eq_ok.mpr ⟨x, toExpr_rename h ha hax,
        bind_eq_ok.mpr ⟨y, toExpr_rename h hb hby, hx⟩⟩
  | .compare op a b, _, hclear, hx => by
      obtain ⟨ha, hb⟩ := clear_append.mp hclear
      obtain ⟨x, hax, hx⟩ := bind_eq_ok.mp hx
      obtain ⟨y, hby, hx⟩ := bind_eq_ok.mp hx
      exact bind_eq_ok.mpr ⟨x, toExpr_rename h ha hax,
        bind_eq_ok.mpr ⟨y, toExpr_rename h hb hby, hx⟩⟩
  | .and es, _, hclear, hx => by
      obtain ⟨xs, hes, hx⟩ := bind_eq_ok.mp hx
      exact bind_eq_ok.mpr ⟨xs, toExprs_rename h hclear hes, hx⟩
  | .call g es, _, hclear, hx => by
      obtain ⟨xs, hes, hx⟩ := bind_eq_ok.mp hx
      exact bind_eq_ok.mpr ⟨xs, toExprs_rename h hclear hes, hx⟩

theorem toIndex_rename (h : t.Renamed f names u) : ∀ {i : Place} {j : Index},
    Clear f names i.mentions → i.toIndex t = .ok j → (i.rename f).toIndex u = .ok j
  | .fixed n k, _, _, hj => by
      obtain ⟨d, hd, hj⟩ := bind_eq_ok.mp hj
      exact bind_eq_ok.mpr ⟨d, dimNamed_rename h hd, hj⟩
  | .symbolic n e, _, hclear, hj => by
      obtain ⟨d, hd, hj⟩ := bind_eq_ok.mp hj
      obtain ⟨x, hx, hj⟩ := bind_eq_ok.mp hj
      exact bind_eq_ok.mpr ⟨d, dimNamed_rename h hd,
        bind_eq_ok.mpr ⟨x, toExpr_rename h hclear hx, hj⟩⟩

theorem toExprs_rename (h : t.Renamed f names u) : ∀ {es : List Term} {xs : List Expr},
    Clear f names (Term.mentionsOf es) → Term.toExprs t es = .ok xs →
      Term.toExprs u (Term.renameAll f es) = .ok xs
  | [], _, _, hxs => hxs
  | e :: es, _, hclear, hxs => by
      obtain ⟨he, hes⟩ := clear_append.mp hclear
      obtain ⟨x, hx, hxs⟩ := bind_eq_ok.mp hxs
      obtain ⟨rest, hrest, hxs⟩ := bind_eq_ok.mp hxs
      exact bind_eq_ok.mpr ⟨x, toExpr_rename h he hx,
        bind_eq_ok.mpr ⟨rest, toExprs_rename h hes hrest, hxs⟩⟩

theorem toIndices_rename (h : t.Renamed f names u) : ∀ {is : List Place} {js : List Index},
    Clear f names (Place.mentionsOf is) → Place.toIndices t is = .ok js →
      Place.toIndices u (Place.renameAll f is) = .ok js
  | [], _, _, hjs => hjs
  | i :: is, _, hclear, hjs => by
      obtain ⟨hi, his⟩ := clear_append.mp hclear
      obtain ⟨j, hj, hjs⟩ := bind_eq_ok.mp hjs
      obtain ⟨rest, hrest, hjs⟩ := bind_eq_ok.mp hjs
      exact bind_eq_ok.mpr ⟨j, toIndex_rename h hi hj,
        bind_eq_ok.mpr ⟨rest, toIndices_rename h his hrest, hjs⟩⟩

end

theorem condition_rename (h : t.Renamed f names u) {o : Option Term} {x : Option Expr}
    (hclear : ∀ e ∈ o, Clear f names e.mentions) (hx : condition t o = .ok x) :
    condition u (o.map (Term.rename f)) = .ok x := by
  cases o with
  | none => exact hx
  | some e =>
      obtain ⟨y, hy, hx⟩ := bind_eq_ok.mp hx
      exact bind_eq_ok.mpr ⟨y, toExpr_rename h (hclear e rfl) hy, hx⟩

/-! ## Dimensions -/

/-- A table with the dimension added becomes one with it added under its new name. -/
theorem eq_ok_of_follows {r : DimTable × DimId} {added : Except ModelError (DimTable × DimId)}
    (h : DimTable.Renamed.Follows f names r added) :
    ∃ u', (do return (← added.mapError .model).1 : Except ProblemError DimTable) = .ok u' ∧
      r.1.Renamed f names u' := by
  obtain ⟨r', rfl, hrenamed⟩ := h
  exact ⟨r'.1, rfl, hrenamed⟩

theorem addDimension_rename (h : t.Renamed f names u) {decl : DimensionDecl}
    (hname : decl.name ∈ names) (hne : f decl.name ≠ "")
    (hclear : Clear f names decl.origin.mentions) {t' : DimTable}
    (ht : addDimension t decl = .ok t') :
    ∃ u', addDimension u (decl.rename f) = .ok u' ∧ t'.Renamed f names u' := by
  obtain ⟨name, origin⟩ := decl
  cases origin with
  | space size =>
      obtain ⟨d, hadded⟩ := eq_ok_of_added ht
      exact eq_ok_of_follows (h.insert hname hne hadded trivial)
  | time size =>
      obtain ⟨d, hadded⟩ := eq_ok_of_added ht
      exact eq_ok_of_follows (h.insert hname hne hadded trivial)
  | stepping parent modulo =>
      obtain ⟨p, hp, ht⟩ := bind_eq_ok.mp ht
      obtain ⟨d, hadded⟩ := eq_ok_of_added ht
      obtain ⟨u', hu, hrenamed⟩ := eq_ok_of_follows (h.stepping hname hne hadded)
      exact ⟨u', bind_eq_ok.mpr ⟨p, dimNamed_rename h hp, hu⟩, hrenamed⟩
  | sub parent side left right =>
      obtain ⟨p, hp, ht⟩ := bind_eq_ok.mp ht
      obtain ⟨d, hadded⟩ := eq_ok_of_added ht
      obtain ⟨u', hu, hrenamed⟩ := eq_ok_of_follows (h.sub hname hne hadded)
      exact ⟨u', bind_eq_ok.mpr ⟨p, dimNamed_rename h hp, hu⟩, hrenamed⟩
  | conditional parent factor predicate =>
      obtain ⟨p, hp, ht⟩ := bind_eq_ok.mp ht
      obtain ⟨x, hx, ht⟩ := bind_eq_ok.mp ht
      obtain ⟨d, hadded⟩ := eq_ok_of_added ht
      obtain ⟨u', hu, hrenamed⟩ := eq_ok_of_follows (h.conditional hname hne hadded)
      have hx' : condition u (predicate.map (Term.rename f)) = .ok x := by
        refine condition_rename h (fun e he => ?_) hx
        cases he
        exact hclear
      exact ⟨u', bind_eq_ok.mpr ⟨p, dimNamed_rename h hp, bind_eq_ok.mpr ⟨x, hx', hu⟩⟩, hrenamed⟩

theorem foldlM_addDimension_rename {decls : List DimensionDecl}
    (hnames : ∀ decl ∈ decls, decl.name ∈ names) (hne : ∀ n ∈ names, f n ≠ "")
    (hclear : ∀ decl ∈ decls, Clear f names decl.origin.mentions) {t t' u : DimTable}
    (h : t.Renamed f names u) (ht : decls.foldlM addDimension t = .ok t') :
    ∃ u', (decls.map (DimensionDecl.rename f)).foldlM addDimension u = .ok u' ∧
      t'.Renamed f names u' := by
  induction decls generalizing t u with
  | nil =>
      cases ht
      exact ⟨u, rfl, h⟩
  | cons decl decls ih =>
      obtain ⟨hname, hnames⟩ := List.forall_mem_cons.mp hnames
      obtain ⟨hfree, hclear⟩ := List.forall_mem_cons.mp hclear
      rw [List.foldlM_cons] at ht
      obtain ⟨mid, hmid, ht⟩ := bind_eq_ok.mp ht
      obtain ⟨mid', hmid', hrenamed⟩ := addDimension_rename h hname (hne _ hname) hfree hmid
      obtain ⟨u', hu, hrenamed'⟩ := ih hnames hclear hrenamed ht
      refine ⟨u', ?_, hrenamed'⟩
      rw [List.map_cons, List.foldlM_cons]
      exact bind_eq_ok.mpr ⟨mid', hmid', hu⟩

/-! ## Scalars -/

theorem foldlM_addScalar_rename (h : t.Renamed f names u) {scalars done done' : List String}
    (hfree : ∀ n ∈ names, f n ∉ scalars) (hs : scalars.foldlM (addScalar t) done = .ok done') :
    scalars.foldlM (addScalar u) done = .ok done' := by
  induction scalars generalizing done with
  | nil => exact hs
  | cons s scalars ih =>
      rw [List.foldlM_cons] at hs ⊢
      obtain ⟨mid, hmid, hs⟩ := bind_eq_ok.mp hs
      have hother : ∀ n ∈ names, f n ≠ s := by
        intro n hn heq
        exact hfree n hn (heq ▸ List.mem_cons_self)
      refine bind_eq_ok.mpr ⟨mid, ?_, ih (fun n hn hmem => hfree n hn ?_) hs⟩
      · obtain ⟨-, rfl⟩ := addScalar_eq_ok hmid
        rw [addScalar, h.find?_eq_none hother]
      · exact List.mem_cons_of_mem _ hmem

/-! ## Equations -/

theorem mapping_rename (h : t.Renamed f names u) {pair : String × String} {q : DimId × DimId}
    (hq : mapping t pair = .ok q) : mapping u (f pair.1, f pair.2) = .ok q := by
  obtain ⟨old, hold, hq⟩ := bind_eq_ok.mp hq
  obtain ⟨new, hnew, hq⟩ := bind_eq_ok.mp hq
  exact bind_eq_ok.mpr ⟨old, dimNamed_rename h hold,
    bind_eq_ok.mpr ⟨new, dimNamed_rename h hnew, hq⟩⟩

theorem mem_names_of_mapping (h : t.Renamed f names u) {pair : String × String}
    {q : DimId × DimId} (hq : mapping t pair = .ok q) : pair.1 ∈ names := by
  obtain ⟨old, hold, -⟩ := bind_eq_ok.mp hq
  unfold dimNamed at hold
  split at hold
  · rename_i hfind
    exact h.mem_names hfind
  · cases hold

theorem mapM_mapping_rename (h : t.Renamed f names u) {pairs : List (String × String)}
    {qs : List (DimId × DimId)} (hdistinct : (pairs.map Prod.fst).Nodup)
    (hqs : pairs.mapM (mapping t) = .ok qs) :
    ∃ rs : List (DimId × DimId), rs.Perm qs ∧
      (sortedPairs (pairs.map fun pair => (f pair.1, f pair.2))).mapM (mapping u) = .ok rs := by
  have hall := mapM_eq_ok.mp hqs
  have hdeclared : ∀ pair ∈ pairs, pair.1 ∈ names := by
    intro pair hp
    obtain ⟨q, -, hq⟩ := exists_of_forall₂_left hall hp
    exact mem_names_of_mapping h hq
  have hdistinct' : ((pairs.map fun pair => (f pair.1, f pair.2)).map Prod.fst).Nodup := by
    have hkeys : (pairs.map fun pair => (f pair.1, f pair.2)).map Prod.fst =
        (pairs.map Prod.fst).map f := by
      rw [List.map_map, List.map_map]
      rfl
    rw [hkeys]
    refine hdistinct.map_on fun m hm n hn => ?_
    obtain ⟨pair, hp, rfl⟩ := List.mem_map.mp hm
    obtain ⟨pair', hp', rfl⟩ := List.mem_map.mp hn
    exact h.apart _ (hdeclared pair hp) _ (hdeclared pair' hp')
  have hrenamed : List.Forall₂ (fun pair q => mapping u pair = .ok q)
      (pairs.map fun pair => (f pair.1, f pair.2)) qs :=
    List.forall₂_map_left_iff.mpr (hall.imp fun _ _ hq => mapping_rename h hq)
  obtain ⟨rs, hrs, hperm⟩ := List.perm_comp_forall₂ (sortedPairs_perm hdistinct') hrenamed
  exact ⟨rs, hperm, mapM_eq_ok.mpr hrs⟩

theorem toEquation_rename (h : t.Renamed f names u) {decl : EquationDecl} {eq : Equation}
    (hclear : Clear f names decl.mentions) (hdistinct : (decl.subdomain.map Prod.fst).Nodup)
    (heq : toEquation t decl = .ok eq) :
    ∃ eq', toEquation u (decl.rename f) = .ok eq' ∧ eq.Rearranged eq' := by
  obtain ⟨hlhs, hright⟩ := clear_append.mp hclear
  obtain ⟨_, htensor, heq⟩ := bind_eq_ok.mp heq
  obtain ⟨indices, hindices, heq⟩ := bind_eq_ok.mp heq
  obtain ⟨rhs, hrhs, heq⟩ := bind_eq_ok.mp heq
  obtain ⟨subdomain, hsubdomain, heq⟩ := bind_eq_ok.mp heq
  obtain ⟨implicit, himplicit, heq⟩ := bind_eq_ok.mp heq
  cases heq
  obtain ⟨pairs, hperm, hpairs⟩ := mapM_mapping_rename h hdistinct hsubdomain
  have himplicit' : (decl.implicit.map f).mapM (dimNamed u) = .ok implicit :=
    mapM_eq_ok.mpr (List.forall₂_map_left_iff.mpr
      ((mapM_eq_ok.mp himplicit).imp fun _ _ hd => dimNamed_rename h hd))
  refine ⟨⟨⟨decl.tensor, indices⟩, rhs, pairs, implicit⟩, ?_, pairs, hperm, rfl⟩
  exact bind_eq_ok.mpr ⟨_, htensor,
    bind_eq_ok.mpr ⟨_, toIndices_rename h hlhs.displacements hindices,
      bind_eq_ok.mpr ⟨_, toExpr_rename h hright hrhs, bind_eq_ok.mpr ⟨_, hpairs,
        bind_eq_ok.mpr ⟨_, himplicit', rfl⟩⟩⟩⟩⟩

theorem toEquations_rename (h : t.Renamed f names u) {decls : List EquationDecl}
    (hclear : ∀ decl ∈ decls, Clear f names decl.mentions)
    (hdistinct : ∀ decl ∈ decls, (decl.subdomain.map Prod.fst).Nodup) {eqs : List Equation}
    (heqs : decls.mapM (toEquation t) = .ok eqs) :
    ∃ eqs', (decls.map (EquationDecl.rename f)).mapM (toEquation u) = .ok eqs' ∧
      List.Forall₂ Equation.Rearranged eqs eqs' := by
  replace heqs := mapM_eq_ok.mp heqs
  induction heqs with
  | nil => exact ⟨[], rfl, .nil⟩
  | cons heq _ ih =>
      obtain ⟨hfree, hclear⟩ := List.forall_mem_cons.mp hclear
      obtain ⟨hkeys, hdistinct⟩ := List.forall_mem_cons.mp hdistinct
      obtain ⟨eq', heq', hrearranged⟩ := toEquation_rename h hfree hkeys heq
      obtain ⟨eqs', heqs', hall⟩ := ih hclear hdistinct
      exact ⟨eq' :: eqs', mapM_eq_ok.mpr (.cons heq' (mapM_eq_ok.mp heqs')), .cons hrearranged hall⟩

/-! ## Programs -/

/-- Under new names a problem stands for the same program, but for the names of its dimensions and
for the order of the pairs of its subdomains. -/
theorem toProgram_rename {problem : Problem} {p : Program} (hf : problem.Renames f)
    (hdistinct : problem.Distinct) (hp : problem.toProgram = .ok p) :
    ∃ q, (problem.rename f).toProgram = .ok q ∧ p.Rearranged q := by
  obtain ⟨t, ht, hp⟩ := bind_eq_ok.mp hp
  obtain ⟨scalars, hscalars, hp⟩ := bind_eq_ok.mp hp
  obtain ⟨equations, hequations, hp⟩ := bind_eq_ok.mp hp
  obtain ⟨_, hcheck, hp⟩ := bind_eq_ok.mp hp
  cases hp
  obtain ⟨hclear, hclear'⟩ := clear_append.mp hf.symbols
  have hempty : DimTable.empty.Renamed f problem.names DimTable.empty :=
    ⟨rfl, fun _ hd => absurd hd List.not_mem_nil, hf.apart⟩
  obtain ⟨u, hu, hrenamed⟩ := foldlM_addDimension_rename
    (fun decl hdecl => List.mem_map_of_mem hdecl) hf.named
    (fun decl hdecl => hclear.of_subset fun _ hm => List.mem_flatMap_of_mem hdecl hm) hempty ht
  obtain ⟨equations', hequations', hall⟩ := toEquations_rename hrenamed
    (fun decl hdecl => hclear'.of_subset fun _ hm => List.mem_flatMap_of_mem hdecl hm) hdistinct
    hequations
  have hrearranged : Program.Rearranged ⟨t, scalars, equations⟩ ⟨u, scalars, equations'⟩ :=
    ⟨hrenamed.sameKinds, rfl, hall⟩
  refine ⟨⟨u, scalars, equations'⟩, ?_, hrearranged⟩
  refine bind_eq_ok.mpr ⟨u, hu, bind_eq_ok.mpr ⟨scalars, ?_, bind_eq_ok.mpr ⟨equations',
    hequations', bind_eq_ok.mpr ⟨(), ?_, rfl⟩⟩⟩⟩
  · exact foldlM_addScalar_rename hrenamed hf.scalars hscalars
  · exact mapError_eq_ok.mpr (hrearranged.check (mapError_eq_ok.mp hcheck))

end Problem

end LoopNest
