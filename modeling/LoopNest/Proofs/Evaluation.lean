import LoopNest.Trace
import LoopNest.DimTable.Extent
import LoopNest.Proofs.Success
/-!
# What expressions denote

A value found at a point is still found at the points inside (`Scope.Extends.int`), so a guard
may be decided early.  Trees that guards take for the same hold at the same points (`Scope.truth_of_alike`).
A conjunction folded by `Expr.all` denotes what its terms do one after another
(`Scope.truth_all`).  The bounds of a dimension denote the same at every point
(`DimTable.interval_constant`).
-/

namespace LoopNest

/-- The same tree, as loops and guards compare them.  A predicate with a constant that is no number
differs from itself, hence the first alternative. -/
def Expr.Alike (e f : Expr) : Prop := e = f ∨ (e == f) = true

/-! ## Points -/

namespace Point

theorem find?_append_of_not_mem {pt more : Point} {d : DimId} (h : d ∉ more.map Prod.fst) :
    Point.find? (pt ++ more) d = pt.find? d := by
  unfold find?
  rw [List.reverse_append, List.find?_append, List.find?_eq_none.mpr, Option.none_or]
  intro pair hp hd
  exact h (List.mem_map.mpr ⟨pair, List.mem_reverse.mp hp, beq_iff_eq.mp hd⟩)

theorem mem_of_find?_eq_some {pt : Point} {d : DimId} {v : Int} (h : pt.find? d = some v) :
    d ∈ pt.map Prod.fst := by
  rw [find?] at h
  obtain ⟨pair, hf, rfl⟩ := Option.map_eq_some_iff.mp h
  have hd : pair.1 = d := by simpa using List.find?_some hf
  exact List.mem_map.mpr ⟨pair, List.mem_reverse.mp (List.mem_of_find?_eq_some hf), hd⟩

end Point

namespace Scope

variable {s full : Scope}

theorem fitting_eq_ok {o : Option Int} {v : Int} : fitting o = .ok v ↔ o = some v := by
  cases o <;> simp [fitting]

theorem known_eq_ok {name : String} {o : Option Int} {v : Int} :
    known name o = .ok v ↔ o = some v := by
  cases o <;> simp [known]

/-- The full scope knows whatever the other does. -/
structure Extends (s full : Scope) : Prop where
  bindings : full.bindings = s.bindings
  point : ∀ d v, s.point.find? d = some v → full.point.find? d = some v

theorem extends_append {t : DimTable} {b : Bindings} {pt more : Point}
    (h : ∀ d ∈ pt.map Prod.fst, d ∉ more.map Prod.fst) : Extends ⟨t, b, pt⟩ ⟨t, b, pt ++ more⟩ where
  bindings := rfl
  point d v hd := by
    rw [← hd]
    exact Point.find?_append_of_not_mem (h d (Point.mem_of_find?_eq_some hd))

namespace Extends

mutual

/-- A value found at a point is found at the points inside. -/
theorem int (h : Extends s full) : ∀ (e : Expr) {v : Int}, s.int e = .ok v → full.int e = .ok v
  | .int _, _, hv => hv
  | .symbol n, v, hv => by
      rw [Scope.int, known_eq_ok] at hv
      rw [Scope.int, h.bindings, known_eq_ok]
      exact hv
  | .dim d, v, hv => by
      rw [Scope.int, known_eq_ok] at hv
      rw [Scope.int, known_eq_ok]
      exact h.point d v hv
  | .neg e, v, hv => by
      obtain ⟨x, hx, hv⟩ := bind_eq_ok.mp hv
      exact bind_eq_ok.mpr ⟨x, h.int e hx, hv⟩
  | .binary op a b, v, hv => by
      obtain ⟨x, hx, hv⟩ := bind_eq_ok.mp hv
      obtain ⟨y, hy, hv⟩ := bind_eq_ok.mp hv
      exact bind_eq_ok.mpr ⟨x, h.int a hx, bind_eq_ok.mpr ⟨y, h.int b hy, hv⟩⟩
  | .compare op a b, v, hv => by
      obtain ⟨x, hx, hv⟩ := bind_eq_ok.mp hv
      obtain ⟨y, hy, hv⟩ := bind_eq_ok.mp hv
      exact bind_eq_ok.mpr ⟨x, h.int a hx, bind_eq_ok.mpr ⟨y, h.int b hy, hv⟩⟩
  | .and es, v, hv => by
      obtain ⟨x, hx, hv⟩ := bind_eq_ok.mp hv
      exact bind_eq_ok.mpr ⟨x, h.allHold es hx, hv⟩
  | .float _, _, hv | .access _ _, _, hv | .element _ _, _, hv | .call _ _, _, hv => by cases hv

theorem allHold (h : Extends s full) :
    ∀ (es : List Expr) {b : Bool}, s.allHold es = .ok b → full.allHold es = .ok b
  | [], _, hb => hb
  | e :: es, b, hb => by
      obtain ⟨x, hx, hb⟩ := bind_eq_ok.mp hb
      refine bind_eq_ok.mpr ⟨x, h.int e hx, ?_⟩
      split
      · rwa [if_pos (by assumption)] at hb
      · rw [if_neg (by assumption)] at hb
        exact h.allHold es hb

end

theorem truth (h : Extends s full) {e : Expr} {b : Bool} (hb : s.truth e = .ok b) :
    full.truth e = .ok b := by
  obtain ⟨x, hx, hb⟩ := bind_eq_ok.mp hb
  exact bind_eq_ok.mpr ⟨x, h.int e hx, hb⟩

end Extends

/-! ## Equal trees -/

mutual

/-- Two equal trees have the same values. -/
theorem int_of_same (s : Scope) : ∀ (e f : Expr), e.same f = true →
    ∀ v : Int, s.int e = .ok v ↔ s.int f = .ok v
  | .int a, f, h, v => by
      cases f with
      | int b =>
          obtain rfl : a = b := by simpa [Expr.same] using h
          exact Iff.rfl
      | _ => simp [Expr.same] at h
  | .symbol a, f, h, v => by
      cases f with
      | symbol b =>
          obtain rfl : a = b := by simpa [Expr.same] using h
          exact Iff.rfl
      | _ => simp [Expr.same] at h
  | .dim a, f, h, v => by
      cases f with
      | dim b =>
          obtain rfl : a = b := by simpa [Expr.same] using h
          exact Iff.rfl
      | _ => simp [Expr.same] at h
  | .neg a, f, h, v => by
      cases f with
      | neg b =>
          rw [Expr.same] at h
          exact bind_eq_ok_congr (int_of_same s a b h) fun _ => Iff.rfl
      | _ => simp [Expr.same] at h
  | .binary op a b, f, h, v => by
      cases f with
      | binary op' a' b' =>
          simp only [Expr.same, Bool.and_eq_true, beq_iff_eq] at h
          obtain ⟨⟨rfl, ha⟩, hb⟩ := h
          exact bind_eq_ok_congr (int_of_same s a a' ha) fun _ =>
            bind_eq_ok_congr (int_of_same s b b' hb) fun _ => Iff.rfl
      | _ => simp [Expr.same] at h
  | .compare op a b, f, h, v => by
      cases f with
      | compare op' a' b' =>
          simp only [Expr.same, Bool.and_eq_true, beq_iff_eq] at h
          obtain ⟨⟨rfl, ha⟩, hb⟩ := h
          exact bind_eq_ok_congr (int_of_same s a a' ha) fun _ =>
            bind_eq_ok_congr (int_of_same s b b' hb) fun _ => Iff.rfl
      | _ => simp [Expr.same] at h
  | .and es, f, h, v => by
      cases f with
      | and fs =>
          rw [Expr.same] at h
          exact bind_eq_ok_congr (allHold_of_sameAll s es fs h) fun _ => Iff.rfl
      | _ => simp [Expr.same] at h
  | .float _, f, h, v | .access _ _, f, h, v | .element _ _, f, h, v | .call _ _, f, h, v => by
      -- Neither tree has a value.
      cases f <;> first
        | simp [Expr.same] at h
          done
        | exact iff_of_false (fun hv => nomatch hv) fun hv => nomatch hv

theorem allHold_of_sameAll (s : Scope) : ∀ (es fs : List Expr), Expr.sameAll es fs = true →
    ∀ b : Bool, s.allHold es = .ok b ↔ s.allHold fs = .ok b
  | [], fs, h, b => by
      cases fs with
      | nil => exact Iff.rfl
      | cons _ _ => simp [Expr.sameAll] at h
  | e :: es, fs, h, b => by
      cases fs with
      | nil => simp [Expr.sameAll] at h
      | cons f fs =>
          rw [Expr.sameAll, Bool.and_eq_true] at h
          refine bind_eq_ok_congr (int_of_same s e f h.1) fun x => ?_
          split
          · exact Iff.rfl
          · exact allHold_of_sameAll s es fs h.2 b

end

theorem truth_of_alike (s : Scope) {e f : Expr} (h : Expr.Alike e f) (b : Bool) :
    s.truth e = .ok b ↔ s.truth f = .ok b := by
  rcases h with rfl | h
  · exact Iff.rfl
  · exact bind_eq_ok_congr (int_of_same s e f h) fun _ => Iff.rfl

/-! ## Conjunctions -/

theorem allHold_append (s : Scope) : ∀ xs ys : List Expr,
    s.allHold (xs ++ ys) = (s.allHold xs).bind fun b => if b then s.allHold ys else .ok false
  | [], ys => rfl
  | x :: xs, ys => by
      rw [List.cons_append, allHold, allHold]
      cases s.int x with
      | error _ => rfl
      | ok v =>
          show (if v = 0 then _ else _) = Except.bind (if v = 0 then _ else _) _
          split
          · rfl
          · exact allHold_append s xs ys

theorem truth_and (s : Scope) (es : List Expr) : s.truth (.and es) = s.allHold es := by
  rw [truth, int]
  cases s.allHold es with
  | error _ => rfl
  | ok b => cases b <;> rfl

theorem allHold_singleton (s : Scope) (e : Expr) : s.allHold [e] = s.truth e := by
  rw [truth, allHold]
  cases s.int e with
  | error _ => rfl
  | ok v =>
      show (if v = 0 then _ else _) = Except.ok (decide (v ≠ 0))
      by_cases hv : v = 0 <;> simp [hv, allHold]
      rfl

theorem allHold_cons (s : Scope) (e : Expr) (es : List Expr) :
    s.allHold (e :: es) = (s.truth e).bind fun b => if b then s.allHold es else .ok false := by
  rw [← allHold_singleton]
  exact allHold_append s [e] es

theorem allHold_conjuncts (s : Scope) (e : Expr) : s.allHold e.conjuncts = s.truth e := by
  unfold Expr.conjuncts
  split
  · exact (truth_and s _).symm
  · exact allHold_singleton s e

theorem allHold_flatMap_conjuncts (s : Scope) : ∀ es : List Expr,
    s.allHold (es.flatMap Expr.conjuncts) = s.allHold es
  | [] => rfl
  | e :: es => by
      rw [List.flatMap_cons, allHold_append, allHold_cons, allHold_conjuncts,
        allHold_flatMap_conjuncts s es]

/-- A folded conjunction denotes what its terms do. -/
theorem truth_all (s : Scope) (es : List Expr) : s.truth (Expr.all es) = s.allHold es := by
  rw [← allHold_flatMap_conjuncts, Expr.all]
  split
  · rename_i e he
    rw [he, allHold_singleton]
  · exact truth_and s _

theorem allHold_eq_true {s : Scope} : ∀ {es : List Expr},
    s.allHold es = .ok true ↔ ∀ e ∈ es, s.truth e = .ok true
  | [] => by simp [allHold]
  | e :: es => by
      rw [allHold_cons, bind_eq_ok]
      constructor
      · rintro ⟨b, he, hb⟩
        cases b with
        | false => cases hb
        | true =>
            intro f hf
            rcases List.mem_cons.mp hf with rfl | hf
            · exact he
            · exact allHold_eq_true.mp hb f hf
      · intro h
        exact ⟨true, h e List.mem_cons_self,
          allHold_eq_true.mpr fun f hf => h f (List.mem_cons_of_mem _ hf)⟩

/-- Terms that do not hold together have one that does not hold. -/
theorem exists_of_allHold_eq_false {s : Scope} : ∀ {es : List Expr},
    s.allHold es = .ok false → ∃ e ∈ es, s.truth e = .ok false
  | [], h => by cases h
  | e :: es, h => by
      rw [allHold_cons] at h
      obtain ⟨b, he, hb⟩ := bind_eq_ok.mp h
      cases b with
      | false => exact ⟨e, List.mem_cons_self, he⟩
      | true =>
          obtain ⟨f, hf, h⟩ := exists_of_allHold_eq_false hb
          exact ⟨f, List.mem_cons_of_mem _ hf, h⟩

end Scope

/-! ## Expressions that no loop changes -/

theorem Expr.constant?_cases {op : BinOp} {a b e : Expr} (h : constant? op a b = some e) :
    ∃ k, e = .int k := by
  unfold constant? at h
  split at h
  · obtain ⟨k, -, rfl⟩ := Option.map_eq_some_iff.mp h
    exact ⟨k, rfl⟩
  · cases h

theorem Expr.dropNeutral_cases (op : BinOp) (a b : Expr) :
    dropNeutral op a b = a ∨ dropNeutral op a b = b ∨ dropNeutral op a b = .binary op a b := by
  unfold dropNeutral
  split
  · exact Or.inl rfl
  · exact Or.inl rfl
  · exact Or.inr (Or.inl rfl)
  · exact Or.inl rfl
  · exact Or.inr (Or.inl rfl)
  · exact Or.inr (Or.inr rfl)

theorem Expr.fold_cases (op : BinOp) (a b : Expr) :
    (∃ k, fold op a b = .int k) ∨ fold op a b = a ∨ fold op a b = b ∨
      fold op a b = .binary op a b ∨
        ∃ op' n, op.flip? = some op' ∧ fold op a b = .binary op' a (.int n) := by
  rw [fold]
  split
  · exact Or.inl (constant?_cases (by assumption))
  · split
    · rename_i op' n hflipped
      have hflip : op.flip? = some op' := by
        unfold flipped? at hflipped
        split at hflipped
        · split at hflipped
          · obtain ⟨flip, hflip, h⟩ := Option.bind_eq_some_iff.mp hflipped
            obtain ⟨_, _, h⟩ := Option.bind_eq_some_iff.mp h
            cases h
            exact hflip
          · cases hflipped
        · cases hflipped
      rw [foldUnsigned]
      cases hconstant : constant? op' a (.int n) with
      | some e => exact Or.inl (constant?_cases hconstant)
      | none =>
          rw [Option.getD_none]
          rcases dropNeutral_cases op' a (.int n) with h | h | h
          · exact Or.inr (Or.inl h)
          · exact Or.inl ⟨n, h⟩
          · exact Or.inr (Or.inr (Or.inr (Or.inr ⟨op', n, hflip, h⟩)))
    · rcases dropNeutral_cases op a b with h | h | h
      · exact Or.inr (Or.inl h)
      · exact Or.inr (Or.inr (Or.inl h))
      · exact Or.inr (Or.inr (Or.inr (Or.inl h)))

/-- What holds of constants and of both operands, and carries over to operators, holds of a
folded operator. -/
theorem Expr.fold_induction {P : Expr → Prop} (int : ∀ k, P (.int k))
    (binary : ∀ op a b, P a → P b → P (.binary op a b)) {op : BinOp} {a b : Expr} (ha : P a)
    (hb : P b) : P (Expr.fold op a b) := by
  rcases fold_cases op a b with ⟨k, h⟩ | h | h | h | ⟨op', n, -, h⟩ <;> rw [h]
  · exact int k
  · exact ha
  · exact hb
  · exact binary op a b ha hb
  · exact binary op' a (.int n) ha (int n)

/-- The expression denotes the same at every point. -/
def Expr.Constant (e : Expr) : Prop :=
  ∀ (t : DimTable) (b : Bindings) (pt : Point),
    (⟨t, b, pt⟩ : Scope).int e = (⟨t, b, []⟩ : Scope).int e

namespace Expr.Constant

theorem int (k : Int) : Constant (.int k) := fun _ _ _ => rfl

theorem symbol (n : String) : Constant (.symbol n) := fun _ _ _ => rfl

theorem binary {op : BinOp} {a b : Expr} (ha : a.Constant) (hb : b.Constant) :
    Constant (.binary op a b) := by
  intro t bindings pt
  rw [Scope.int, Scope.int, ha t bindings pt, hb t bindings pt]

theorem add {a b : Expr} (ha : a.Constant) (hb : b.Constant) : (a + b).Constant :=
  Expr.fold_induction int (fun _ _ _ => binary) ha hb

theorem sub {a b : Expr} (ha : a.Constant) (hb : b.Constant) : (a - b).Constant :=
  Expr.fold_induction int (fun _ _ _ => binary) ha hb

end Expr.Constant

namespace DimTable

theorem intervalAlong_induction {P : Expr → Prop} (int : ∀ k, P (.int k))
    (symbol : ∀ name, P (.symbol name)) (add : ∀ {a b : Expr}, P a → P b → P (a + b))
    (sub : ∀ {a b : Expr}, P a → P b → P (a - b)) : ∀ lineage : List Dimension,
    P (intervalAlong lineage).min ∧ P (intervalAlong lineage).max
  | [] => ⟨int 0, int 0⟩
  | d :: above => by
      obtain ⟨hmin, hmax⟩ := intervalAlong_induction int symbol add sub above
      rw [intervalAlong]
      split
      · exact ⟨symbol _, symbol _⟩
      · exact ⟨symbol _, symbol _⟩
      · exact ⟨hmin, hmax⟩
      · exact ⟨hmin, hmax⟩
      · split
        · exact ⟨hmin, sub (add hmin (symbol _)) (int 1)⟩
        · exact ⟨add hmin (symbol _), sub hmax (symbol _)⟩
        · exact ⟨add (sub hmax (symbol _)) (int 1), hmax⟩

/-- The bounds of a dimension hang on parameters alone. -/
theorem interval_constant (t : DimTable) (d : DimId) :
    (t.interval d).min.Constant ∧ (t.interval d).max.Constant :=
  intervalAlong_induction .int .symbol .add .sub (t.lineage d)

end DimTable

end LoopNest
