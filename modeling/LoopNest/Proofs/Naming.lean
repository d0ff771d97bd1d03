import LoopNest.Proofs.Guards
import LoopNest.Proofs.Reading
import LoopNest.Proofs.SameTree
/-!
# What expressions name

An expression names scalars, tensors, iteration variables and the dimensions that its accesses run
along.  `Expr.atoms` lists them all, each where it stands, and it is what equality of trees leaves
alone (`Expr.Alike.atoms_eq`) and folding too (`Expr.atoms_fold`): only constants are ever dropped.

Inside a nest the value of a dimension takes the place of the dimension.  So an expression in terms
of loop variables names the tensors it named before (`Nest.tensor_mem_atoms_expr`), and the variable
of one loop for each dimension it mentioned (`Nest.dim_mem_atoms_expr`).  In particular a guard
names the tensors that the predicates of its conditions name (`Guard.mem_tensors_of_ofCluster`), and
no others.
-/

namespace LoopNest

/-- What an expression can name. -/
inductive Atom where
  | symbol (name : String)
  | tensor (name : String)
  /-- An iteration variable. -/
  | dim (d : DimId)
  /-- The dimension that an index of an access runs along. -/
  | index (d : DimId)

namespace Atom

def tensor? : Atom → Option String
  | .tensor name => some name
  | _ => none

end Atom

theorem flatMap_eq_of_forall₂ {α β γ : Type} {R : α → β → Prop} {f : α → List γ} {g : β → List γ}
    {xs : List α} {ys : List β} (h : List.Forall₂ R xs ys)
    (hfg : ∀ x ∈ xs, ∀ y, R x y → f x = g y) : xs.flatMap f = ys.flatMap g := by
  induction h with
  | nil => rfl
  | cons hr _ ih =>
      rw [List.flatMap_cons, List.flatMap_cons, hfg _ List.mem_cons_self _ hr,
        ih fun x hx => hfg x (List.mem_cons_of_mem _ hx)]

theorem Index.filterMap_symbolic?_cons (i : Index) (is : List Index) :
    (i :: is).filterMap symbolic? = i.symbolic?.toList ++ is.filterMap symbolic? := by
  rw [List.filterMap_cons]
  cases i.symbolic? <;> rfl

namespace Expr

/-- What an expression names itself, apart from its parts. -/
def ownAtoms : Expr → List Atom
  | .symbol name => [.symbol name]
  | .dim d => [.dim d]
  | .access tensor is => .tensor tensor :: is.map fun i => .index i.dim
  | .element tensor _ => [.tensor tensor]
  | _ => []

/-- Whatever is named in an expression. -/
def atoms (e : Expr) : List Atom := e.nodes.flatMap ownAtoms

theorem atoms_eq (e : Expr) : e.atoms = e.ownAtoms ++ e.parts.flatMap atoms := by
  rw [atoms, nodes_eq_cons, List.flatMap_cons, List.flatMap_assoc]
  rfl

@[simp] theorem atoms_int (v : Int) : (int v).atoms = [] := rfl

@[simp] theorem atoms_float (v : Float) : (float v).atoms = [] := rfl

@[simp] theorem atoms_symbol (name : String) : (symbol name).atoms = [.symbol name] := rfl

@[simp] theorem atoms_dim (d : DimId) : (dim d).atoms = [.dim d] := rfl

@[simp] theorem atoms_access (tensor : String) (is : List Index) :
    (access tensor is).atoms = .tensor tensor ::
      ((is.map fun i => .index i.dim) ++ (is.filterMap Index.symbolic?).flatMap atoms) :=
  atoms_eq _

@[simp] theorem atoms_element (tensor : String) (es : List Expr) :
    (element tensor es).atoms = .tensor tensor :: es.flatMap atoms := atoms_eq _

@[simp] theorem atoms_neg (e : Expr) : (neg e).atoms = e.atoms := rfl

@[simp] theorem atoms_binary (op : BinOp) (a b : Expr) :
    (binary op a b).atoms = a.atoms ++ b.atoms := List.flatMap_append

@[simp] theorem atoms_compare (op : CmpOp) (a b : Expr) :
    (compare op a b).atoms = a.atoms ++ b.atoms := List.flatMap_append

@[simp] theorem atoms_and (es : List Expr) : (Expr.and es).atoms = es.flatMap atoms := atoms_eq _

@[simp] theorem atoms_call (f : String) (es : List Expr) :
    (call f es).atoms = es.flatMap atoms := atoms_eq _

/-! ## What stands where -/

variable {e : Expr}

theorem mem_atoms_iff {x : Atom} : x ∈ e.atoms ↔ ∃ f, Occurs f e ∧ x ∈ f.ownAtoms := by
  rw [atoms, List.mem_flatMap]
  exact exists_congr fun f => and_congr_left fun _ => mem_nodes_iff e

theorem symbol_mem_atoms {name : String} : .symbol name ∈ e.atoms ↔ Occurs (.symbol name) e := by
  rw [mem_atoms_iff]
  constructor
  · rintro ⟨f, hf, hx⟩
    cases f <;> simp [ownAtoms] at hx
    exact hx ▸ hf
  · intro h
    exact ⟨_, h, List.mem_singleton.mpr rfl⟩

theorem dim_mem_atoms {d : DimId} : .dim d ∈ e.atoms ↔ Occurs (.dim d) e := by
  rw [mem_atoms_iff]
  constructor
  · rintro ⟨f, hf, hx⟩
    cases f <;> simp [ownAtoms] at hx
    exact hx ▸ hf
  · intro h
    exact ⟨_, h, List.mem_singleton.mpr rfl⟩

/-- The variables of the expression are those of the loops given. -/
def ClosedIn (loops : List DimId) (e : Expr) : Prop := ∀ l, Occurs (.dim l) e → l ∈ loops

theorem closedIn_iff_atoms {loops : List DimId} :
    e.ClosedIn loops ↔ ∀ l, .dim l ∈ e.atoms → l ∈ loops := by
  simp only [ClosedIn, dim_mem_atoms]

/-- The dimension is named in an expression, as an iteration variable or by an index of an access,
displacements of accesses included. -/
def Mentions (e : Expr) (d : DimId) : Prop :=
  Occurs (.dim d) e ∨ ∃ tensor is, Occurs (.access tensor is) e ∧ d ∈ is.map Index.dim

theorem mentions_iff_atoms {d : DimId} :
    e.Mentions d ↔ .dim d ∈ e.atoms ∨ .index d ∈ e.atoms := by
  refine or_congr dim_mem_atoms.symm ?_
  rw [mem_atoms_iff]
  constructor
  · rintro ⟨tensor, is, h, hd⟩
    obtain ⟨i, hi, rfl⟩ := List.mem_map.mp hd
    exact ⟨_, h, List.mem_cons_of_mem _ (List.mem_map.mpr ⟨i, hi, rfl⟩)⟩
  · rintro ⟨f, hf, hx⟩
    cases f <;> simp [ownAtoms] at hx
    obtain ⟨i, hi, hd⟩ := hx
    exact ⟨_, _, hf, List.mem_map.mpr ⟨i, hi, hd⟩⟩

/-- The walk that gathers the dimensions of an expression misses none. -/
theorem mem_dims_iff {d : DimId} : d ∈ e.dims ↔ e.Mentions d := by
  rw [dims, List.mem_eraseDups, List.mem_flatMap]
  constructor
  · rintro ⟨f, hf, hd⟩
    replace hf := (mem_nodes_iff e).mp hf
    cases f <;> simp only [ownDims, List.mem_singleton, List.not_mem_nil] at hd
    · exact Or.inl (hd ▸ hf)
    · exact Or.inr ⟨_, _, hf, hd⟩
  · rintro (h | ⟨tensor, is, h, hd⟩)
    · exact ⟨_, (mem_nodes_iff e).mpr h, List.mem_singleton.mpr rfl⟩
    · exact ⟨_, (mem_nodes_iff e).mpr h, hd⟩

instance (e : Expr) (d : DimId) : Decidable (e.Mentions d) := decidable_of_iff _ mem_dims_iff

theorem mem_symbols_iff {name : String} : name ∈ e.symbols ↔ Occurs (.symbol name) e := by
  rw [symbols, SortedSet.mem_ofList, List.mem_filterMap]
  constructor
  · rintro ⟨f, hf, hn⟩
    cases f <;> cases hn
    exact (mem_nodes_iff e).mp hf
  · intro h
    exact ⟨_, (mem_nodes_iff e).mpr h, rfl⟩

/-! ## Operations on trees -/

/-- Equal trees name the same, and their parts are equal trees. -/
theorem parts_of_same {e f : Expr} (h : e.same f = true) :
    e.ownAtoms = f.ownAtoms ∧ List.Forall₂ (fun a b => a.same b = true) e.parts f.parts := by
  cases e <;> cases f <;> simp only [same, Bool.and_eq_true, beq_iff_eq, Bool.false_eq_true] at h
  case int | float => exact ⟨rfl, .nil⟩
  case symbol | dim => exact ⟨by rw [h], .nil⟩
  case access is _ js =>
      obtain ⟨rfl, his⟩ := h
      replace his := Index.sameAll_iff.mp his
      have hdims : is.map Index.dim = js.map Index.dim := by
        refine List.forall₂_eq_eq_eq ▸ ?_
        refine List.forall₂_map_left_iff.mpr (List.forall₂_map_right_iff.mpr (his.imp ?_))
        intro i j hij
        cases i <;> cases j <;> simp [Index.same] at hij <;> simp [Index.dim, hij]
      refine ⟨?_, List.rel_filterMap (fun i j hij => ?_) his⟩
      · have hatoms := congrArg (List.map Atom.index) hdims
        rw [List.map_map, List.map_map] at hatoms
        exact congrArg (Atom.tensor _ :: ·) hatoms
      · cases i <;> cases j <;> simp [Index.same] at hij <;> simp [Index.symbolic?, hij]
  case element => exact ⟨by rw [ownAtoms, ownAtoms, h.1], sameAll_iff.mp h.2⟩
  case neg => exact ⟨rfl, .cons h .nil⟩
  case binary | compare => exact ⟨rfl, .cons h.1.2 (.cons h.2 .nil)⟩
  case and => exact ⟨rfl, sameAll_iff.mp h⟩
  case call => exact ⟨rfl, sameAll_iff.mp h.2⟩

theorem atoms_of_same (e f : Expr) (h : e.same f = true) : e.atoms = f.atoms := by
  obtain ⟨hown, hparts⟩ := parts_of_same h
  rw [atoms_eq, atoms_eq f, hown,
    flatMap_eq_of_forall₂ hparts fun a ha b hab => atoms_of_same a b hab]
termination_by sizeOf e
decreasing_by exact sizeOf_lt_of_mem_parts ha

theorem Alike.atoms_eq {e f : Expr} (h : Alike e f) : e.atoms = f.atoms := by
  rcases h with rfl | h
  · rfl
  · exact atoms_of_same e f h

theorem Alike.closedIn_iff {loops : List DimId} {e f : Expr} (h : Alike e f) :
    e.ClosedIn loops ↔ f.ClosedIn loops := by
  rw [closedIn_iff_atoms, closedIn_iff_atoms, h.atoms_eq]

variable {x : Atom}

theorem atoms_dropNeutral (op : BinOp) (a b : Expr) :
    (dropNeutral op a b).atoms = a.atoms ++ b.atoms := by
  unfold dropNeutral
  split <;> simp

/-- Folding combines constants, which name nothing. -/
theorem atoms_fold (op : BinOp) (a b : Expr) : (fold op a b).atoms = a.atoms ++ b.atoms := by
  have hconstant : ∀ {op : BinOp} {a b c : Expr}, constant? op a b = some c →
      a.atoms = [] ∧ b.atoms = [] ∧ c.atoms = [] := by
    intro op a b c h
    unfold constant? at h
    split at h
    · obtain ⟨v, _, rfl⟩ := Option.map_eq_some_iff.mp h
      exact ⟨rfl, rfl, rfl⟩
    · cases h
  have hunsigned : ∀ {op : BinOp} {a b : Expr},
      (foldUnsigned op a b).atoms = a.atoms ++ b.atoms := by
    intro op a b
    rw [foldUnsigned]
    cases h : constant? op a b with
    | none => exact atoms_dropNeutral op a b
    | some c =>
        obtain ⟨ha, hb, hc⟩ := hconstant h
        simp [ha, hb, hc]
  rw [fold]
  split
  · rename_i h
    obtain ⟨ha, hb, hc⟩ := hconstant h
    simp [ha, hb, hc]
  · split
    · rename_i h
      -- Only a constant has a sign to change.
      have hb : b.atoms = [] := by
        cases b with
        | int k => rfl
        | _ => cases h
      rw [hunsigned, hb]
      rfl
    · exact atoms_dropNeutral op a b

theorem mem_atoms_fold (op : BinOp) (a b : Expr) :
    x ∈ (fold op a b).atoms ↔ x ∈ a.atoms ∨ x ∈ b.atoms := by
  rw [atoms_fold, List.mem_append]

theorem mem_atoms_add (a b : Expr) : x ∈ (a + b).atoms ↔ x ∈ a.atoms ∨ x ∈ b.atoms :=
  mem_atoms_fold .add a b

theorem atoms_negated (e : Expr) : (negated e).atoms = e.atoms := by
  unfold negated
  split
  · split <;> rfl
  · exact atoms_neg e

theorem atoms_all (es : List Expr) : (Expr.all es).atoms = es.flatMap atoms := by
  have hconjuncts : ∀ e : Expr, e.conjuncts.flatMap atoms = e.atoms := by
    intro e
    cases e with
    | and es => exact (atoms_and es).symm
    | _ => exact List.flatMap_singleton _ _
  have hflat : (es.flatMap conjuncts).flatMap atoms = es.flatMap atoms := by
    rw [List.flatMap_assoc]
    exact List.flatMap_congr fun e _ => hconjuncts e
  rw [← hflat, Expr.all]
  split
  · rename_i h
    rw [h, List.flatMap_singleton]
  · exact atoms_and _

end Expr

/-! ## The values of a nest -/

namespace Nest

variable {x : Atom}

/-- The variable of the loop that a dimension's value hangs on. -/
def loopVar (n : Nest) (d : DimId) : DimId := (n.loopFor? d).getD (n.dims.loopOf d)

theorem root_loopVar (n : Nest) (d : DimId) : n.dims.root (n.loopVar d) = n.dims.root d := by
  rw [loopVar]
  cases hf : n.loopFor? d with
  | none => exact n.dims.root_loopOf d
  | some l => simpa using List.find?_some hf

theorem loopVar_mem_iff {n : Nest} {d : DimId} {outer : List DimId} (h : outer <+: n.loops) :
    n.loopVar d ∈ outer ↔ ∃ l ∈ outer, n.dims.root l = n.dims.root d := by
  constructor
  · intro hd
    exact ⟨_, hd, n.root_loopVar d⟩
  · rintro ⟨l, hl, hroot⟩
    obtain ⟨m, hm⟩ : ∃ m, outer.find? (fun l => n.dims.root l == n.dims.root d) = some m :=
      Option.isSome_iff_exists.mp (List.find?_isSome.mpr ⟨l, hl, beq_iff_eq.mpr hroot⟩)
    obtain ⟨inner, heq⟩ := h
    have hfound : n.loopFor? d = some m := by
      rw [loopFor?, ← heq, List.find?_append, hm, Option.some_or]
    rw [loopVar, hfound]
    exact List.mem_of_find?_eq_some hm

/-- What takes the place of what an expression names, inside the nest. -/
def translate (n : Nest) : Atom → List Atom
  | .symbol name => [.symbol name]
  | .tensor name => [.tensor name]
  | .dim d | .index d => (n.value d).atoms

@[simp] theorem translate_symbol (n : Nest) (name : String) :
    n.translate (.symbol name) = [.symbol name] := rfl

@[simp] theorem translate_tensor (n : Nest) (name : String) :
    n.translate (.tensor name) = [.tensor name] := rfl

@[simp] theorem translate_dim (n : Nest) (d : DimId) : n.translate (.dim d) = (n.value d).atoms :=
  rfl

@[simp] theorem translate_index (n : Nest) (d : DimId) :
    n.translate (.index d) = (n.value d).atoms := rfl

theorem mem_atoms_displaced (n : Nest) (d : DimId) (shift : Expr) :
    x ∈ (n.displaced d shift).atoms ↔ x ∈ (n.value d).atoms ∨ x ∈ shift.atoms := by
  rw [displaced]
  split
  · rename_i parent modulo hk
    have hparent : n.dims.parent? d = some parent := DimTable.parent?_of_kind hk
    have hvalue : n.value d = n.value parent := by
      rw [value, DimTable.chain_of_parent hparent, valueAlong]
      simp only [hk]
      rfl
    rw [Expr.mem_atoms_fold, Expr.mem_atoms_add, hvalue]
    exact or_iff_left List.not_mem_nil
  · exact Expr.mem_atoms_add _ _

mutual

theorem mem_atoms_expr (n : Nest) : ∀ e : Expr,
    x ∈ (n.expr e).atoms ↔ ∃ y ∈ e.atoms, x ∈ n.translate y
  | .int _ | .float _ => by
      refine iff_of_false List.not_mem_nil ?_
      rintro ⟨_, hy, _⟩
      exact List.not_mem_nil hy
  | .symbol name => by simp [expr]
  | .dim d => by simp [expr, mem_atoms_displaced]
  | .access tensor is => by
      rw [expr, Expr.atoms_element, Expr.atoms_access, List.mem_cons, n.mem_atoms_indices is]
      simp only [List.mem_cons, or_and_right, exists_or, exists_eq_left, translate_tensor,
        List.not_mem_nil, or_false]
  | .element tensor es => by
      rw [expr, Expr.atoms_element, Expr.atoms_element, List.mem_cons, n.mem_atoms_exprs es]
      simp only [List.mem_cons, or_and_right, exists_or, exists_eq_left, translate_tensor,
        List.not_mem_nil, or_false]
  | .neg e => by rw [expr, Expr.atoms_negated, Expr.atoms_neg, n.mem_atoms_expr e]
  | .binary op a b => by
      simp only [expr, Expr.mem_atoms_fold, Expr.atoms_binary, List.mem_append, n.mem_atoms_expr a,
        n.mem_atoms_expr b, or_and_right, exists_or]
  | .compare op a b => by
      simp only [expr, Expr.atoms_compare, List.mem_append, n.mem_atoms_expr a, n.mem_atoms_expr b,
        or_and_right, exists_or]
  | .and es => by rw [expr, Expr.atoms_all, Expr.atoms_and, n.mem_atoms_exprs es]
  | .call f es => by rw [expr, Expr.atoms_call, Expr.atoms_call, n.mem_atoms_exprs es]

theorem mem_atoms_exprs (n : Nest) : ∀ es : List Expr,
    x ∈ (n.exprs es).flatMap Expr.atoms ↔ ∃ y ∈ es.flatMap Expr.atoms, x ∈ n.translate y
  | [] => by simp [exprs]
  | e :: es => by
      simp only [exprs, List.flatMap_cons, List.mem_append, n.mem_atoms_expr e,
        n.mem_atoms_exprs es, or_and_right, exists_or]

theorem mem_atoms_indices (n : Nest) : ∀ is : List Index,
    x ∈ (n.indices is).flatMap Expr.atoms ↔
      ∃ y ∈ (is.map fun i => Atom.index i.dim) ++ (is.filterMap Index.symbolic?).flatMap Expr.atoms,
        x ∈ n.translate y
  | [] => by simp [indices]
  | .fixed d k :: is => by
      rw [indices, index, List.flatMap_cons, List.mem_append, mem_atoms_displaced,
        n.mem_atoms_indices is]
      simp [Index.dim, Index.symbolic?]
  | .symbolic d e :: is => by
      rw [indices, index, List.flatMap_cons, List.mem_append, mem_atoms_displaced,
        n.mem_atoms_expr e, n.mem_atoms_indices is]
      simp only [List.map_cons, List.mem_cons, Index.dim, Index.symbolic?, List.filterMap_cons,
        List.flatMap_cons, List.mem_append, List.cons_append, or_and_right, exists_or,
        exists_eq_left, translate_index, or_assoc]
      -- Indices come before displacements in the list, and one after another here.
      exact or_congr_right or_left_comm

end

/-- What the value of a dimension names: the variable of one loop, and parameters. -/
theorem mem_atoms_valueAlong (n : Nest) : ∀ ds : List DimId,
    (∀ tensor, .tensor tensor ∉ (n.valueAlong ds).atoms) ∧
      ∀ l, .dim l ∈ (n.valueAlong ds).atoms ↔
        ∃ a ∈ ds.find? fun a => !(n.dims.get a).ridesOnParent, l = (n.loopFor? a).getD a
  | [] => ⟨fun _ => List.not_mem_nil, fun _ => by
      refine iff_of_false List.not_mem_nil ?_
      rintro ⟨_, h, _⟩
      cases h⟩
  | d :: above => by
      obtain ⟨htensor, hdim⟩ := n.mem_atoms_valueAlong above
      rw [valueAlong, List.find?_cons]
      cases hk : (n.dims.get d).kind with
      | conditional parent condition =>
          have hrides : (n.dims.get d).ridesOnParent = true := by
            simp [Dimension.ridesOnParent, Dimension.isConditional, Dimension.condition?, hk]
          cases condition with
          | stride _ => simp [hrides, Expr.mem_atoms_fold, htensor, hdim]
          | predicate _ => simpa [hrides] using ⟨htensor, hdim⟩
      | stepping parent modulo =>
          have hrides : (n.dims.get d).ridesOnParent = true := by
            simp [Dimension.ridesOnParent, Dimension.isStepping, Dimension.modulo?, hk]
          simpa [hrides] using ⟨htensor, hdim⟩
      | space _ | time _ | sub _ _ _ _ =>
          have hrides : (n.dims.get d).ridesOnParent = false := by
            simp [Dimension.ridesOnParent, Dimension.isConditional, Dimension.condition?,
              Dimension.isStepping, Dimension.modulo?, hk]
          simp [hrides]

theorem dim_mem_atoms_value (n : Nest) (d l : DimId) :
    .dim l ∈ (n.value d).atoms ↔ l = n.loopVar d := by
  have hloop : n.loopFor? (n.dims.loopOf d) = n.loopFor? d := by
    simp only [loopFor?, DimTable.root_loopOf]
  rw [value, (n.mem_atoms_valueAlong _).2, DimTable.find?_chain, loopVar, ← hloop]
  simp

theorem tensor_mem_atoms_expr (n : Nest) (e : Expr) {tensor : String} :
    .tensor tensor ∈ (n.expr e).atoms ↔ .tensor tensor ∈ e.atoms := by
  rw [mem_atoms_expr]
  constructor
  · rintro ⟨y, hy, hx⟩
    cases y with
    | symbol name => simp at hx
    | tensor name =>
        cases List.mem_singleton.mp hx
        exact hy
    | dim d | index d => exact absurd hx ((n.mem_atoms_valueAlong _).1 tensor)
  · intro h
    exact ⟨_, h, List.mem_singleton.mpr rfl⟩

/-- For each dimension that an expression mentions, the variable of one loop takes its place. -/
theorem dim_mem_atoms_expr (n : Nest) (e : Expr) {l : DimId} :
    .dim l ∈ (n.expr e).atoms ↔ ∃ d, e.Mentions d ∧ l = n.loopVar d := by
  rw [mem_atoms_expr]
  constructor
  · rintro ⟨y, hy, hx⟩
    cases y with
    | symbol name => simp at hx
    | tensor name => simp at hx
    | dim d => exact ⟨d, Expr.mentions_iff_atoms.mpr (Or.inl hy), (n.dim_mem_atoms_value d l).mp hx⟩
    | index d =>
        exact ⟨d, Expr.mentions_iff_atoms.mpr (Or.inr hy), (n.dim_mem_atoms_value d l).mp hx⟩
  · rintro ⟨d, hd, hl⟩
    rcases Expr.mentions_iff_atoms.mp hd with hd | hd
    · exact ⟨_, hd, (n.dim_mem_atoms_value d l).mpr hl⟩
    · exact ⟨_, hd, (n.dim_mem_atoms_value d l).mpr hl⟩

end Nest

/-! ## Tensors -/

namespace Expr

/-- The tensor of an access or element. -/
def tensor? : Expr → Option String
  | .access tensor _ => some tensor
  | .element tensor _ => some tensor
  | _ => none

/-- The tensors that are named in an expression, in accesses and in elements. -/
def tensors (e : Expr) : List String := e.nodes.filterMap tensor?

theorem tensors_eq_filterMap (e : Expr) : e.tensors = e.atoms.filterMap Atom.tensor? := by
  rw [tensors, atoms, List.filterMap_flatMap, List.filterMap_eq_flatMap_toList]
  refine List.flatMap_congr fun f _ => ?_
  cases f with
  | access tensor is => simp [tensor?, ownAtoms, Atom.tensor?, List.filterMap_map]
  | _ => rfl

theorem mem_tensors_iff {e : Expr} {tensor : String} :
    tensor ∈ e.tensors ↔ .tensor tensor ∈ e.atoms := by
  rw [tensors_eq_filterMap, List.mem_filterMap]
  constructor
  · rintro ⟨x, hx, ht⟩
    cases x <;> cases ht
    exact hx
  · intro h
    exact ⟨_, h, rfl⟩

theorem Reads.mem_tensors {e : Expr} {tensor : String} (h : e.Reads tensor) :
    tensor ∈ e.tensors := by
  obtain ⟨is, h⟩ := h
  exact List.mem_filterMap.mpr ⟨_, (mem_nodes_iff e).mpr h, rfl⟩

theorem Alike.tensors_eq {e f : Expr} (h : Alike e f) : e.tensors = f.tensors := by
  rw [tensors_eq_filterMap, tensors_eq_filterMap, h.atoms_eq]

end Expr

/-! ## Guards -/

namespace Guard

variable {program : Program} {tensor : String}

theorem mem_tensors_of_ofCondition {loops : List DimId} {c : DimId} {g : Guard}
    (h : ofCondition program ⟨program.dims, loops⟩ c = .ok g) :
    tensor ∈ g.predicate.tensors ↔
      ∃ e ∈ (program.dims.get c).predicate?, tensor ∈ e.tensors := by
  simp only [Expr.mem_tensors_iff]
  rcases (ofCondition_eq_ok h).2 with
    ⟨parent, factor, hk, hg⟩ | ⟨parent, e, hk, hg⟩ | ⟨hk, hg⟩
  · have hnone : (program.dims.get c).predicate? = none := by rw [Dimension.predicate?, hk]
    rw [hg, hnone, onStride, Expr.atoms_compare, List.mem_append, Expr.mem_atoms_fold,
      Nest.mem_atoms_displaced]
    simp [Nest.value, (Nest.mem_atoms_valueAlong _ _).1]
  · have hsome : (program.dims.get c).predicate? = some e := by rw [Dimension.predicate?, hk]
    rw [hg, hsome, Nest.tensor_mem_atoms_expr]
    constructor
    · intro h
      exact ⟨e, rfl, h⟩
    · rintro ⟨_, he, h⟩
      cases he
      exact h
  · have hnone : (program.dims.get c).predicate? = none := by
      rw [Dimension.predicate?]
      split
      · rename_i hkind
        rw [Dimension.condition?, hkind] at hk
        cases hk
      · rfl
    rw [hg, hnone]
    simp

/-- The guards of a cluster name the tensors that the predicates of its conditions name. -/
theorem mem_tensors_of_ofCluster {c : Cluster} {gs : List Guard}
    (h : ofCluster program c = .ok gs) :
    (∃ g ∈ gs, tensor ∈ g.predicate.tensors) ↔
      ∃ d ∈ c.signature.conditions, ∃ e ∈ (program.dims.get d).predicate?, tensor ∈ e.tensors := by
  obtain ⟨own, hown, h⟩ := bind_eq_ok.mp h
  cases h
  replace hown := mapM_eq_ok.mp hown
  constructor
  · rintro ⟨g, hg, ht⟩
    obtain ⟨a, _, rfl⟩ := mem_combine.mp hg
    rw [conjunction, Expr.mem_tensors_iff, Expr.atoms_all, List.mem_flatMap] at ht
    obtain ⟨e, he, ht⟩ := ht
    obtain ⟨b, hb, rfl⟩ := List.mem_map.mp he
    obtain ⟨d, hd, hbd⟩ := exists_of_forall₂_right hown (List.mem_filter.mp hb).1
    exact ⟨d, hd, (mem_tensors_of_ofCondition hbd).mp (Expr.mem_tensors_iff.mpr ht)⟩
  · rintro ⟨d, hd, he⟩
    obtain ⟨a, ha, had⟩ := exists_of_forall₂_left hown hd
    refine ⟨_, mem_combine.mpr ⟨a, ha, rfl⟩, ?_⟩
    rw [conjunction, Expr.mem_tensors_iff, Expr.atoms_all, List.mem_flatMap]
    exact ⟨_, List.mem_map_of_mem (List.mem_filter.mpr ⟨ha, beq_self_eq_true _⟩),
      Expr.mem_tensors_iff.mp ((mem_tensors_of_ofCondition had).mpr he)⟩

end Guard

end LoopNest
