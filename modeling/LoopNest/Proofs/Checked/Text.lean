import LoopNest.Program
import LoopNest.Proofs.Checked.Dimensions
import LoopNest.Tree.Text
/-!
# Writing with checked lookups

A text names dimensions, and nothing else is looked up for it.  So an expression is written
without a miss if the table has issued whatever it mentions (`Expr.IssuedBy`), which holds of an
expression just if it holds of its parts.
-/

namespace LoopNest

/-! ## Expressions over issued dimensions -/

/-- The atom is no dimension, or one that the table has issued. -/
def Atom.IssuedBy (t : DimTable) : Atom → Prop
  | .dim d | .index d => t.contains d = true
  | .symbol _ | .tensor _ => True

/-- The table has issued every dimension that the expression mentions. -/
def Expr.IssuedBy (t : DimTable) (e : Expr) : Prop := ∀ d, e.Mentions d → t.contains d = true

/-- Both ends of the interval mention issued dimensions alone. -/
def Interval.IssuedBy (t : DimTable) (i : Interval) : Prop := i.min.IssuedBy t ∧ i.max.IssuedBy t

/-- The table has issued every dimension that the index mentions. -/
def Index.IssuedBy (t : DimTable) (i : Index) : Prop :=
  t.contains i.dim = true ∧ ∀ shift ∈ i.symbolic?, shift.IssuedBy t

namespace Expr

variable {t : DimTable}

theorem issuedBy_iff_atoms {e : Expr} : e.IssuedBy t ↔ ∀ x ∈ e.atoms, x.IssuedBy t := by
  simp only [IssuedBy, mentions_iff_atoms]
  constructor
  · intro h x hx
    cases x with
    | dim d => exact h d (Or.inl hx)
    | index d => exact h d (Or.inr hx)
    | symbol _ | tensor _ => trivial
  · rintro h d (hd | hd)
    · exact h _ hd
    · exact h _ hd

theorem issuedBy_of_atoms_eq_nil {e : Expr} (h : e.atoms = []) : e.IssuedBy t :=
  issuedBy_iff_atoms.mpr fun x hx => by rw [h] at hx; cases hx

theorem issuedBy_symbol (name : String) : (symbol name).IssuedBy t := by
  simp [issuedBy_iff_atoms, Atom.IssuedBy]

theorem issuedBy_dim {d : DimId} : (dim d).IssuedBy t ↔ t.contains d = true := by
  simp [issuedBy_iff_atoms, Atom.IssuedBy]

theorem issuedBy_neg {e : Expr} : (neg e).IssuedBy t ↔ e.IssuedBy t := by
  simp only [issuedBy_iff_atoms, atoms_neg]

theorem issuedBy_binary {op : BinOp} {a b : Expr} :
    (binary op a b).IssuedBy t ↔ a.IssuedBy t ∧ b.IssuedBy t := by
  simp only [issuedBy_iff_atoms, atoms_binary, List.forall_mem_append]

theorem issuedBy_compare {op : CmpOp} {a b : Expr} :
    (compare op a b).IssuedBy t ↔ a.IssuedBy t ∧ b.IssuedBy t := by
  simp only [issuedBy_iff_atoms, atoms_compare, List.forall_mem_append]

theorem forall_mem_flatMap_atoms {es : List Expr} :
    (∀ x ∈ es.flatMap atoms, x.IssuedBy t) ↔ ∀ e ∈ es, e.IssuedBy t := by
  simp only [issuedBy_iff_atoms, List.mem_flatMap]
  exact ⟨fun h e he x hx => h x ⟨e, he, hx⟩, fun h x ⟨e, he, hx⟩ => h e he x hx⟩

theorem issuedBy_and {es : List Expr} :
    (Expr.and es).IssuedBy t ↔ ∀ e ∈ es, e.IssuedBy t := by
  rw [issuedBy_iff_atoms, atoms_and, forall_mem_flatMap_atoms]

theorem issuedBy_all {es : List Expr} : (all es).IssuedBy t ↔ ∀ e ∈ es, e.IssuedBy t := by
  rw [issuedBy_iff_atoms, atoms_all, forall_mem_flatMap_atoms]

theorem issuedBy_call {f : String} {es : List Expr} :
    (call f es).IssuedBy t ↔ ∀ e ∈ es, e.IssuedBy t := by
  rw [issuedBy_iff_atoms, atoms_call, forall_mem_flatMap_atoms]

theorem issuedBy_element {tensor : String} {es : List Expr} :
    (element tensor es).IssuedBy t ↔ ∀ e ∈ es, e.IssuedBy t := by
  rw [issuedBy_iff_atoms, atoms_element, List.forall_mem_cons, forall_mem_flatMap_atoms]
  exact and_iff_right trivial

theorem issuedBy_access {tensor : String} {is : List Index} :
    (access tensor is).IssuedBy t ↔ ∀ i ∈ is, i.IssuedBy t := by
  rw [issuedBy_iff_atoms, atoms_access, List.forall_mem_cons, List.forall_mem_append,
    forall_mem_flatMap_atoms, List.forall_mem_map]
  simp only [List.mem_filterMap, Index.IssuedBy]
  exact ⟨fun h i hi => ⟨h.2.1 i hi, fun s hs => h.2.2 s ⟨i, hi, hs⟩⟩,
    fun h => ⟨trivial, fun i hi => (h i hi).1, fun s ⟨i, hi, hs⟩ => (h i hi).2 s hs⟩⟩

theorem issuedBy_fold {op : BinOp} {a b : Expr} :
    (fold op a b).IssuedBy t ↔ a.IssuedBy t ∧ b.IssuedBy t := by
  simp only [issuedBy_iff_atoms, mem_atoms_fold, or_imp, forall_and]

theorem issuedBy_add {a b : Expr} : (a + b).IssuedBy t ↔ a.IssuedBy t ∧ b.IssuedBy t :=
  issuedBy_fold

theorem issuedBy_sub {a b : Expr} : (a - b).IssuedBy t ↔ a.IssuedBy t ∧ b.IssuedBy t :=
  issuedBy_fold

end Expr

theorem DimTable.interval_issuedBy (t : DimTable) (d : DimId) : (t.interval d).IssuedBy t :=
  intervalAlong_induction (P := fun e => e.IssuedBy t)
    (fun _ => Expr.issuedBy_of_atoms_eq_nil rfl) Expr.issuedBy_symbol
    (fun ha hb => Expr.issuedBy_add.mpr ⟨ha, hb⟩) (fun ha hb => Expr.issuedBy_sub.mpr ⟨ha, hb⟩)
    (t.lineage d)

theorem DimTable.sizeExpr_issuedBy (t : DimTable) (d : DimId) : (t.sizeExpr d).IssuedBy t := by
  have hone : (Expr.int 1).IssuedBy t := Expr.issuedBy_of_atoms_eq_nil rfl
  have hwhole : ∀ a, ((t.interval a).max - (t.interval a).min).IssuedBy t := fun a =>
    Expr.issuedBy_sub.mpr ⟨(t.interval_issuedBy a).2, (t.interval_issuedBy a).1⟩
  unfold sizeExpr
  dsimp only
  split
  · exact Expr.issuedBy_symbol _
  · exact Expr.issuedBy_symbol _
  · exact Expr.issuedBy_add.mpr ⟨Expr.issuedBy_sub.mpr ⟨Expr.issuedBy_sub.mpr
      ⟨hwhole _, Expr.issuedBy_symbol _⟩, Expr.issuedBy_symbol _⟩, hone⟩
  · exact Expr.issuedBy_add.mpr ⟨hwhole d, hone⟩

namespace Checked

variable {t : DimTable} {d : DimId}

/-! ## Expressions -/

mutual

def text (t : DimTable) : Expr → Except Missing String
  | .int v => return toString v
  | .float x => return Expr.floatStyle.text x
  | .symbol n => return n
  | .dim d => name t d
  | .access tensor is => return tensor ++ "[" ++ ", ".intercalate (← indexTexts t is) ++ "]"
  | .element tensor es => return tensor ++ "[" ++ ", ".intercalate (← texts t es) ++ "]"
  | .neg e => return "-" ++ parenthesized (e.precedence < 5) (← text t e)
  | .binary op a b => do
    let own := op.precedence
    let left ← text t a
    let right ← text t b
    return parenthesized (a.precedence < own) left ++ " " ++ op.text ++ " " ++
      parenthesized (b.precedence < own || (b.precedence == own && !op.associates)) right
  | .compare op a b => do
    let left ← text t a
    let right ← text t b
    return parenthesized (a.precedence ≤ 2) left ++ " " ++ op.text ++ " " ++
      parenthesized (b.precedence ≤ 2) right
  | .and [] => return "true"
  | .and (e :: es) => return " && ".intercalate (← termTexts t (e :: es))
  | .call f es => return f ++ "(" ++ ", ".intercalate (← texts t es) ++ ")"

def indexText (t : DimTable) : Index → Except Missing String
  | .fixed d k => return shiftedText (← name t d) k
  | .symbolic d e => return (← name t d) ++ " + (" ++ (← text t e) ++ ")"

def texts (t : DimTable) : List Expr → Except Missing (List String)
  | [] => return []
  | e :: es => return (← text t e) :: (← texts t es)

def termTexts (t : DimTable) : List Expr → Except Missing (List String)
  | [] => return []
  | e :: es => return parenthesized (e.precedence ≤ 1) (← text t e) :: (← termTexts t es)

def indexTexts (t : DimTable) : List Index → Except Missing (List String)
  | [] => return []
  | i :: is => return (← indexText t i) :: (← indexTexts t is)

end

mutual

theorem text_eq : ∀ {e : Expr}, e.IssuedBy t → text t e = .ok (e.text t)
  | .int _, _ | .float _, _ | .symbol _, _ => rfl
  | .dim d, h => name_eq (Expr.issuedBy_dim.mp h)
  | .access tensor is, h => by
      rw [text, indexTexts_eq (Expr.issuedBy_access.mp h)]
      rfl
  | .element tensor es, h => by
      rw [text, texts_eq (Expr.issuedBy_element.mp h)]
      rfl
  | .neg e, h => by
      rw [text, text_eq (Expr.issuedBy_neg.mp h)]
      rfl
  | .binary op a b, h => by
      obtain ⟨ha, hb⟩ := Expr.issuedBy_binary.mp h
      rw [text, text_eq ha, ok_bind, text_eq hb]
      rfl
  | .compare op a b, h => by
      obtain ⟨ha, hb⟩ := Expr.issuedBy_compare.mp h
      rw [text, text_eq ha, ok_bind, text_eq hb]
      rfl
  | .and [], _ => rfl
  | .and (e :: es), h => by
      rw [text, termTexts_eq (Expr.issuedBy_and.mp h)]
      rfl
  | .call f es, h => by
      rw [text, texts_eq (Expr.issuedBy_call.mp h)]
      rfl

theorem indexText_eq : ∀ {i : Index}, i.IssuedBy t → indexText t i = .ok (i.text t)
  | .fixed d k, h => by
      have hd : t.contains d = true := h.1
      rw [indexText, name_eq hd]
      rfl
  | .symbolic d e, h => by
      have hd : t.contains d = true := h.1
      rw [indexText, name_eq hd, ok_bind, text_eq (h.2 e rfl)]
      rfl

theorem texts_eq : ∀ {es : List Expr}, (∀ e ∈ es, e.IssuedBy t) →
    texts t es = .ok (Expr.texts t es)
  | [], _ => rfl
  | e :: es, h => by
      obtain ⟨he, hes⟩ := List.forall_mem_cons.mp h
      rw [texts, text_eq he, ok_bind, texts_eq hes]
      rfl

theorem termTexts_eq : ∀ {es : List Expr}, (∀ e ∈ es, e.IssuedBy t) →
    termTexts t es = .ok (Expr.termTexts t es)
  | [], _ => rfl
  | e :: es, h => by
      obtain ⟨he, hes⟩ := List.forall_mem_cons.mp h
      rw [termTexts, text_eq he, ok_bind, termTexts_eq hes]
      rfl

theorem indexTexts_eq : ∀ {is : List Index}, (∀ i ∈ is, i.IssuedBy t) →
    indexTexts t is = .ok (Index.texts t is)
  | [], _ => rfl
  | i :: is, h => by
      obtain ⟨hi, his⟩ := List.forall_mem_cons.mp h
      rw [indexTexts, indexText_eq hi, ok_bind, indexTexts_eq his]
      rfl

end

/-! ## Programs -/

def intervalText (t : DimTable) (i : Interval) : Except Missing String :=
  return "[" ++ (← text t i.min) ++ ", " ++ (← text t i.max) ++ "]"

theorem intervalText_eq {i : Interval} (h : i.IssuedBy t) :
    intervalText t i = .ok (i.text t) := by
  rw [intervalText, text_eq h.1, ok_bind, text_eq h.2]
  rfl

def conditionText (t : DimTable) : Condition → Except Missing String
  | .stride (some k) => return "factor " ++ toString k
  | .stride none => return "factor default"
  | .predicate e => return "if " ++ (← text t e)

def kindText (t : DimTable) : DimKind → Except Missing String
  | .space size => return sizedText "space" size
  | .time size => return sizedText "time" size
  | .stepping p modulo =>
    return "stepping(" ++ (← name t p) ++ ", modulo " ++ toString modulo ++ ")"
  | .sub p side left right =>
    return "sub(" ++ (← name t p) ++ ", " ++ side.text ++ ", " ++ toString left ++ ", " ++
      toString right ++ ")"
  | .conditional p c => return "conditional(" ++ (← name t p) ++ ", " ++ (← conditionText t c) ++ ")"

/-- What a stored dimension refers to was issued before it. -/
theorem kindText_eq (hd : t.contains d = true) :
    kindText t (t.get d).kind = .ok ((t.get d).kind.text t) := by
  cases hkind : (t.get d).kind with
  | space size => rfl
  | time size => rfl
  | stepping p modulo | sub p side left right =>
      rw [kindText, name_eq (DimTable.contains_of_kind hd hkind rfl)]
      rfl
  | conditional p c =>
      rw [kindText, name_eq (DimTable.contains_of_kind hd hkind rfl), ok_bind]
      cases c with
      | stride factor => cases factor <;> rfl
      | predicate e =>
          have he : e.IssuedBy t := fun a ha => DimTable.contains_of_predicate
            (d := d) (by rw [Dimension.predicate?, hkind]) ha
          rw [conditionText, text_eq he]
          rfl

def sizeText (t : DimTable) (d : DimId) : Except Missing String :=
  return ", size " ++ (← text t (← sizeExpr t d))

def dimensionLine (t : DimTable) (d : DimId) : Except Missing String := do
  let e ← entry t d
  let kind ← kindText t e.kind
  let size ← if e.isSub then sizeText t d else pure ""
  return "  [" ++ toString d.index ++ "] " ++ e.name ++ ": " ++ kind ++ size ++ "\n"

theorem dimensionLine_eq (hd : t.contains d = true) :
    dimensionLine t d = .ok (Program.dimensionLine t d) := by
  rw [dimensionLine, entry_eq hd, ok_bind, kindText_eq hd, ok_bind, Program.dimensionLine]
  split
  · rw [sizeText, sizeExpr_eq hd, ok_bind, text_eq (t.sizeExpr_issuedBy d)]
    rfl
  · rfl

def equationLine (t : DimTable) (eq : Equation) (i : Nat) : Except Missing String := do
  let lhs ← text t eq.lhs.toExpr
  let rhs ← text t eq.rhs
  let mappings ← eq.subdomain.mapM fun pair =>
    return "  [" ++ (← name t pair.1) ++ " -> " ++ (← name t pair.2) ++ "]"
  let names ← eq.implicit.mapM (name t)
  let implicit := if eq.implicit.isEmpty then "" else "  implicit(" ++ ", ".intercalate names ++ ")"
  return "  e" ++ toString i ++ ": " ++ lhs ++ " = " ++ rhs ++ String.join mappings ++ implicit ++ "\n"

end Checked

/-- The table has issued every dimension that the equation mentions anywhere. -/
structure Equation.IssuedBy (t : DimTable) (eq : Equation) : Prop where
  lhs : eq.lhs.toExpr.IssuedBy t
  rhs : eq.rhs.IssuedBy t
  subdomain : ∀ pair ∈ eq.subdomain, t.contains pair.1 = true ∧ t.contains pair.2 = true
  implicit : ∀ d ∈ eq.implicit, t.contains d = true

namespace Checked

variable {t : DimTable}

theorem equationLine_eq {eq : Equation} (h : eq.IssuedBy t) (i : Nat) :
    equationLine t eq i = .ok (Program.equationLine t eq i) := by
  have hmappings : (eq.subdomain.mapM fun pair =>
        return "  [" ++ (← name t pair.1) ++ " -> " ++ (← name t pair.2) ++ "]") =
      .ok (eq.subdomain.map fun pair =>
        "  [" ++ t.name pair.1 ++ " -> " ++ t.name pair.2 ++ "]") := by
    refine mapM_eq_ok_map fun pair hp => ?_
    rw [name_eq (h.subdomain pair hp).1, ok_bind, name_eq (h.subdomain pair hp).2]
    rfl
  have hnames : eq.implicit.mapM (name t) = .ok (eq.implicit.map t.name) :=
    mapM_eq_ok_map fun d hd => name_eq (h.implicit d hd)
  rw [equationLine, text_eq h.lhs, ok_bind, text_eq h.rhs, ok_bind, hmappings, ok_bind, hnames]
  rfl

/-- Dimensions and equations, in their order. -/
def programText (p : Program) : Except Missing String := do
  let dims ← p.dims.ids.mapM (dimensionLine p.dims)
  let lines ← p.equations.zipIdx.mapM fun x => equationLine p.dims x.1 x.2
  let scalars :=
    if p.scalars.isEmpty then "" else "\nScalars: " ++ ", ".intercalate p.scalars ++ "\n"
  let equations := if p.equations.isEmpty then "" else "\nEquations:\n" ++ String.join lines
  return "Dimensions:\n" ++ String.join dims ++ scalars ++ equations

theorem programText_eq {p : Program} (h : ∀ eq ∈ p.equations, eq.IssuedBy p.dims) :
    programText p = .ok p.text := by
  have hdims : p.dims.ids.mapM (dimensionLine p.dims) =
      .ok (p.dims.ids.map (Program.dimensionLine p.dims)) :=
    mapM_eq_ok_map fun d hd => dimensionLine_eq (DimTable.mem_ids_iff.mp hd)
  have hlines : (p.equations.zipIdx.mapM fun x => equationLine p.dims x.1 x.2) =
      .ok (p.equations.mapIdx fun i eq => Program.equationLine p.dims eq i) := by
    rw [List.mapIdx_eq_zipIdx_map]
    exact mapM_eq_ok_map fun x hx => equationLine_eq (h x.1 (List.fst_mem_of_mem_zipIdx hx)) x.2
  rw [programText, hdims, ok_bind, hlines]
  rfl

/-! ## Trees -/

mutual

def nodeText (t : DimTable) (depth : Nat) : Node → Except Missing String
  | .loop l body =>
    return indent depth ++ "for " ++ (← name t l.dim) ++ " in " ++ (← intervalText t l.bounds) ++
      " " ++ l.direction.text ++ " <" ++ l.properties.text ++ ">\n" ++
      (← nodesText t (depth + 1) body)
  | .guard e _ body =>
    return indent depth ++ "if " ++ (← text t e) ++ "\n" ++ (← nodesText t (depth + 1) body)
  | .statement s =>
    return indent depth ++ "e" ++ toString s.equation ++ ": " ++ (← text t s.lhs) ++ " = " ++
      (← text t s.rhs) ++ "\n"

def nodesText (t : DimTable) (depth : Nat) : List Node → Except Missing String
  | [] => return ""
  | n :: ns => return (← nodeText t depth n) ++ (← nodesText t depth ns)

end

end Checked

namespace Node

mutual

/-- The table has issued every dimension that the node and what is inside it mention, and the
clusters named there are among the first `k`. -/
def Resolves (t : DimTable) (k : Nat) : Node → Prop
  | .loop l body =>
    (t.contains l.dim = true ∧ l.bounds.IssuedBy t ∧ ∀ c ∈ l.clusters, c < k) ∧ ResolvesAll t k body
  | .guard e _ body => e.IssuedBy t ∧ ResolvesAll t k body
  | .statement s => s.lhs.IssuedBy t ∧ s.rhs.IssuedBy t ∧ s.cluster < k

def ResolvesAll (t : DimTable) (k : Nat) : List Node → Prop
  | [] => True
  | n :: ns => n.Resolves t k ∧ ResolvesAll t k ns

end

theorem resolvesAll_nil {t : DimTable} {k : Nat} : ResolvesAll t k [] := trivial

theorem resolvesAll_iff {t : DimTable} {k : Nat} {ns : List Node} :
    ResolvesAll t k ns ↔ ∀ n ∈ ns, n.Resolves t k := by
  induction ns with
  | nil => simp [ResolvesAll]
  | cons n ns ih => rw [ResolvesAll, ih, List.forall_mem_cons]

end Node

namespace Checked

variable {t : DimTable} {k : Nat}

mutual

theorem nodeText_eq : ∀ {depth : Nat} {n : Node}, n.Resolves t k →
    nodeText t depth n = .ok (n.text t depth)
  | depth, .loop l body, h => by
      obtain ⟨⟨hd, hbounds, -⟩, hbody⟩ := h
      rw [nodeText, name_eq hd, ok_bind, intervalText_eq hbounds, ok_bind, nodesText_eq hbody]
      rfl
  | depth, .guard e ds body, h => by
      obtain ⟨he, hbody⟩ := h
      rw [nodeText, text_eq he, ok_bind, nodesText_eq hbody]
      rfl
  | depth, .statement s, h => by
      obtain ⟨hlhs, hrhs, -⟩ := h
      rw [nodeText, text_eq hlhs, ok_bind, text_eq hrhs]
      rfl

theorem nodesText_eq : ∀ {depth : Nat} {ns : List Node}, Node.ResolvesAll t k ns →
    nodesText t depth ns = .ok (Node.textOf t depth ns)
  | depth, [], _ => rfl
  | depth, n :: ns, h => by
      obtain ⟨hn, hns⟩ := h
      rw [nodesText, nodeText_eq hn, ok_bind, nodesText_eq hns]
      rfl

end

/-- The schedule for people to read. -/
def treeText (t : DimTable) (tree : ScheduleTree) : Except Missing String := do
  let lines ← nodesText t 0 tree.roots
  let parameters :=
    if tree.parameters.isEmpty then ""
    else "\nParameters:\n" ++ String.join (tree.parameters.map Parameter.line)
  return lines ++ parameters

theorem treeText_eq {tree : ScheduleTree} (h : Node.ResolvesAll t k tree.roots) :
    treeText t tree = .ok (tree.text t) := by
  rw [treeText, nodesText_eq h]
  rfl

end Checked

end LoopNest
