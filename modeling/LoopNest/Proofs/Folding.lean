import LoopNest.Proofs.NamesApart
/-!
# What folding leaves as it is

Folding an operator changes no value and no failure (`Scope.int_fold`).  Constants are combined by
the word operations that the evaluator uses (`BinOp.apply_of_constant?`), a changed sign is undone
by the changed operator (`BinOp.apply_of_flipped?`), and a neutral operand yields the other one as
it is.  Only the last of these asks for anything: a value that does not fit a word would overflow
beside a neutral operand, so values have to be words, and they are where scopes and expressions hold
words (`Scope.fits_of_int`).

Expressions read from a problem hold words (`Problem.worded_toExpr`), so a sum or product of any
number of terms has the value of the terms joined one after another.
-/

namespace LoopNest

/-! ## Words -/

theorem Word.fits_emod {a b : Int} (hb : Fits b) (hzero : b ≠ 0) : Fits (a % b) := by
  have hlow := Int.emod_nonneg a hzero
  have hhigh := Int.emod_lt a hzero
  unfold Fits least greatest at *
  omega

theorem Word.fits_of_mod? {a b v : Int} (hb : Fits b) (hzero : b ≠ 0) (h : mod? a b = some v) :
    Fits v := by
  unfold mod? at h
  split at h
  · cases h
  · cases h
    exact fits_emod hb hzero

theorem Word.fits_ofTruth (b : Bool) : Fits (ofTruth b) := by
  cases b <;> decide

/-- Every integer that stands in the expression is a word. -/
def Expr.Worded (e : Expr) : Prop := ∀ v, Occurs (.int v) e → Word.Fits v

/-- Every value that the scope knows is a word. -/
structure Scope.Worded (s : Scope) : Prop where
  bindings : ∀ pair ∈ s.bindings, Word.Fits pair.2
  point : ∀ pair ∈ s.point, Word.Fits pair.2

/-- If the expression has a value, that is a word. -/
def Scope.Fits (s : Scope) (e : Expr) : Prop := ∀ v, s.int e = .ok v → Word.Fits v

/-- The value of an operator is a word, if the right operand's is. -/
theorem BinOp.fits_of_apply {op : BinOp} {a b v : Int} (hb : Word.Fits b)
    (h : op.apply a b = .ok v) : Word.Fits v := by
  have hchecked : ∀ {w : Int}, fitting (Word.checked w) = .ok v → Word.Fits v := by
    intro w hw
    obtain ⟨hfits, rfl⟩ := Word.checked_eq_some_iff.mp (Scope.fitting_eq_ok.mp hw)
    exact hfits
  cases op with
  | add | sub | mul => exact hchecked h
  | div | floorDiv =>
      have hzero := ne_zero_of_floorDiv_apply h
      exact hchecked ((apply_floorDiv a hzero).symm.trans h)
  | mod =>
      unfold apply at h
      simp only at h
      split at h
      · cases h
      · exact Word.fits_of_mod? hb (by assumption) (Scope.fitting_eq_ok.mp h)

namespace Scope

variable {s : Scope}

theorem fits_int {v : Int} (h : Word.Fits v) : s.Fits (.int v) := by
  intro w hw
  cases hw
  exact h

theorem fits_binary {op : BinOp} {a b : Expr} (hb : s.Fits b) : s.Fits (.binary op a b) := by
  intro v hv
  obtain ⟨x, -, hv⟩ := bind_eq_ok.mp hv
  obtain ⟨y, hy, hv⟩ := bind_eq_ok.mp hv
  exact BinOp.fits_of_apply (hb y hy) hv

/-- Words are computed from words. -/
theorem fits_of_int (hs : s.Worded) : ∀ e : Expr, e.Worded → s.Fits e
  | .int k, he => fits_int (he k .here)
  | .symbol n, _ => by
      intro v hv
      obtain ⟨pair, hp, rfl⟩ := Option.map_eq_some_iff.mp (known_eq_ok.mp hv)
      exact hs.bindings pair (List.mem_reverse.mp (List.mem_of_find?_eq_some hp))
  | .dim d, _ => by
      intro v hv
      obtain ⟨pair, hp, rfl⟩ := Option.map_eq_some_iff.mp (known_eq_ok.mp hv)
      exact hs.point pair (List.mem_reverse.mp (List.mem_of_find?_eq_some hp))
  | .neg e, _ => by
      intro v hv
      obtain ⟨x, -, hv⟩ := bind_eq_ok.mp hv
      obtain ⟨hfits, rfl⟩ := Word.checked_eq_some_iff.mp (fitting_eq_ok.mp hv)
      exact hfits
  | .binary op a b, he =>
      fits_binary (fits_of_int hs b fun v hv =>
        he v (.inside (List.mem_cons_of_mem _ List.mem_cons_self) hv))
  | .compare op a b, _ => by
      intro v hv
      obtain ⟨x, -, hv⟩ := bind_eq_ok.mp hv
      obtain ⟨y, -, hv⟩ := bind_eq_ok.mp hv
      cases hv
      exact Word.fits_ofTruth _
  | .and es, _ => by
      intro v hv
      obtain ⟨x, -, hv⟩ := bind_eq_ok.mp hv
      cases hv
      exact Word.fits_ofTruth _
  | .float _, _ | .access _ _, _ | .element _ _, _ | .call _ _, _ => by
      intro v hv
      cases hv

end Scope

/-! ## Folding one operator -/

/-- Constants are combined as their values are. -/
theorem BinOp.apply_of_constant? {op : BinOp} {a b v : Int} (h : op.constant? a b = some v) :
    op.apply a b = .ok v := by
  cases op with
  | add | sub | mul => exact Scope.fitting_eq_ok.mpr h
  | floorDiv =>
      obtain ⟨hpos, h⟩ := Option.ite_none_right_eq_some.mp h
      rw [apply_floorDiv a (by omega), Int.fdiv_eq_ediv_of_nonneg a (Int.le_of_lt hpos)]
      exact Scope.fitting_eq_ok.mpr h
  | mod =>
      obtain ⟨hpos, h⟩ := Option.ite_none_right_eq_some.mp h
      rw [apply, if_neg (by omega), h]
      rfl
  | div => cases h

/-- A changed operator undoes a changed sign. -/
theorem BinOp.apply_of_flipped? {op op' : BinOp} {b : Expr} {n : Int}
    (h : Expr.flipped? op b = some (op', n)) :
    Word.Fits n ∧ ∃ k, b = .int k ∧ ∀ x, op'.apply x n = op.apply x k := by
  cases b with
  | int k =>
      simp only [Expr.flipped?, Option.ite_none_right_eq_some, Option.bind_eq_bind,
        Option.bind_eq_some_iff, Option.pure_def, Option.some.injEq, Prod.mk.injEq] at h
      obtain ⟨-, flipped, hflip, _, hneg, rfl, rfl⟩ := h
      obtain ⟨hfits, rfl⟩ := Word.checked_eq_some_iff.mp hneg
      refine ⟨hfits, k, rfl, fun x => ?_⟩
      cases op with
      | add =>
          cases hflip
          rw [apply, apply, Word.sub?, Word.add?, Int.sub_neg]
      | sub =>
          cases hflip
          rw [apply, apply, Word.sub?, Word.add?, Int.sub_eq_add_neg]
      | _ => cases hflip
  | _ => cases h

namespace Scope

variable {s : Scope} {op : BinOp} {a b : Expr}

theorem int_binary_right {k : Int} (h : ∀ x, s.int a = .ok x → op.apply x k = .ok x) :
    s.int (.binary op a (.int k)) = s.int a := by
  show (s.int a).bind (fun x => op.apply x k) = s.int a
  cases ha : s.int a with
  | error e => rfl
  | ok x => exact h x ha

theorem int_binary_left {k : Int} (h : ∀ x, s.int b = .ok x → op.apply k x = .ok x) :
    s.int (.binary op (.int k) b) = s.int b := by
  show (s.int b).bind (fun x => op.apply k x) = s.int b
  cases hb : s.int b with
  | error e => rfl
  | ok x => exact h x hb

theorem int_dropNeutral (ha : s.Fits a) (hb : s.Fits b) :
    s.int (Expr.dropNeutral op a b) = s.int (.binary op a b) := by
  have hchecked : ∀ {x y : Int}, Word.Fits x → y = x → fitting (Word.checked y) = .ok x := by
    rintro x _ hx rfl
    rw [Word.checked_of_fits hx]
    rfl
  unfold Expr.dropNeutral
  split
  · refine (int_binary_right fun x hx => ?_).symm
    exact hchecked (ha x hx) (Int.add_zero x)
  · refine (int_binary_right fun x hx => ?_).symm
    exact hchecked (ha x hx) (Int.sub_zero x)
  · refine (int_binary_left fun x hx => ?_).symm
    exact hchecked (hb x hx) (Int.zero_add x)
  · refine (int_binary_right fun x hx => ?_).symm
    exact hchecked (ha x hx) (Int.mul_one x)
  · refine (int_binary_left fun x hx => ?_).symm
    exact hchecked (hb x hx) (Int.one_mul x)
  · rfl

theorem int_of_constant? {e : Expr} (h : Expr.constant? op a b = some e) :
    s.int e = s.int (.binary op a b) := by
  unfold Expr.constant? at h
  split at h
  · obtain ⟨v, hv, rfl⟩ := Option.map_eq_some_iff.mp h
    exact (BinOp.apply_of_constant? hv).symm
  · cases h

/-- A folded operator has the value of the operator, or its failure. -/
theorem int_fold (ha : s.Fits a) (hb : s.Fits b) :
    s.int (Expr.fold op a b) = s.int (.binary op a b) := by
  rw [Expr.fold]
  split
  · exact int_of_constant? (by assumption)
  · split
    · rename_i op' n hflipped
      obtain ⟨hn, k, rfl, happly⟩ := BinOp.apply_of_flipped? hflipped
      have hunsigned :
          s.int (Expr.foldUnsigned op' a (.int n)) = s.int (.binary op' a (.int n)) := by
        rw [Expr.foldUnsigned]
        cases hconstant : Expr.constant? op' a (.int n) with
        | some e => exact int_of_constant? hconstant
        | none => exact int_dropNeutral ha (fits_int hn)
      rw [hunsigned]
      show (s.int a).bind (fun x => op'.apply x n) = (s.int a).bind fun x => op.apply x k
      rw [funext happly]
    · exact int_dropNeutral ha hb

theorem int_negated (ha : s.Fits a) : s.int a.negated = s.int (.neg a) := by
  unfold Expr.negated
  split
  · rename_i v
    split
    · rfl
    · rename_i hv
      have hfits : Word.Fits (-v) := by
        have := ha v rfl
        unfold Word.Fits Word.least Word.greatest at *
        omega
      show Except.ok (-v) = fitting (Word.checked (-v))
      rw [Word.checked_of_fits hfits]
      rfl
  · rfl

theorem fits_fold (ha : s.Fits a) (hb : s.Fits b) : s.Fits (Expr.fold op a b) := by
  intro v hv
  rw [int_fold ha hb] at hv
  exact fits_binary hb v hv

/-- Operators folded one after another have the value of the operators one after another. -/
theorem int_foldl_fold : ∀ {xs : List Expr} {x y : Expr}, s.Fits x → (∀ z ∈ xs, s.Fits z) →
    s.int x = s.int y →
      s.int (xs.foldl (Expr.fold op) x) = s.int (xs.foldl (Expr.binary op) y)
  | [], _, _, _, _, hxy => hxy
  | z :: xs, x, y, hx, hxs, hxy => by
      obtain ⟨hz, hxs⟩ := List.forall_mem_cons.mp hxs
      rw [List.foldl_cons, List.foldl_cons]
      refine int_foldl_fold (fits_fold hx hz) hxs ?_
      rw [int_fold hx hz]
      show (s.int x).bind _ = (s.int y).bind _
      rw [hxy]

/-- Both expressions have the same outcome, be it a value or a failure, as integers and as
conditions. -/
structure Agree (s : Scope) (e f : Expr) : Prop where
  int : s.int e = s.int f
  truth : s.truth e = s.truth f

theorem Agree.of_int {e f : Expr} (h : s.int e = s.int f) : s.Agree e f where
  int := h
  truth := by rw [Scope.truth, Scope.truth, h]

end Scope

/-! ## Expressions that hold words -/

namespace Expr

theorem worded_int {v : Int} (h : Word.Fits v) : (int v).Worded := by
  rintro w (_ | ⟨hp, _⟩)
  · exact h
  · cases hp

theorem worded_of_parts {e : Expr} (hown : ∀ v, e ≠ .int v) (h : ∀ part ∈ e.parts, part.Worded) :
    e.Worded := by
  rintro v (_ | ⟨hp, hv⟩)
  · exact absurd rfl (hown v)
  · exact h _ hp v hv

theorem Worded.of_mem_parts {e part : Expr} (h : e.Worded) (hp : part ∈ e.parts) : part.Worded :=
  fun v hv => h v (.inside hp hv)

theorem forall_mem_pair {a b : Expr} (ha : a.Worded) (hb : b.Worded) :
    ∀ part ∈ [a, b], part.Worded :=
  List.forall_mem_cons.mpr ⟨ha, List.forall_mem_singleton.mpr hb⟩

theorem worded_constant? {op : BinOp} {a b e : Expr} (hb : b.Worded)
    (h : constant? op a b = some e) : e.Worded := by
  unfold constant? at h
  split at h
  · obtain ⟨v, hv, rfl⟩ := Option.map_eq_some_iff.mp h
    exact worded_int (BinOp.fits_of_apply (hb _ .here) (BinOp.apply_of_constant? hv))
  · cases h

theorem worded_dropNeutral {op : BinOp} {a b : Expr} (ha : a.Worded) (hb : b.Worded) :
    (dropNeutral op a b).Worded := by
  unfold dropNeutral
  split
  · exact ha
  · exact ha
  · exact hb
  · exact ha
  · exact hb
  · exact worded_of_parts (fun _ h => by cases h) (forall_mem_pair ha hb)

theorem worded_fold {op : BinOp} {a b : Expr} (ha : a.Worded) (hb : b.Worded) :
    (fold op a b).Worded := by
  rw [fold]
  split
  · exact worded_constant? hb (by assumption)
  · split
    · rename_i n hflipped
      have hn := worded_int (BinOp.apply_of_flipped? hflipped).1
      rw [foldUnsigned]
      cases h : constant? _ a (.int n) with
      | some e => exact worded_constant? hn h
      | none => exact worded_dropNeutral ha hn
    · exact worded_dropNeutral ha hb

theorem worded_foldl_fold {op : BinOp} : ∀ {xs : List Expr} {x : Expr}, x.Worded →
    (∀ y ∈ xs, y.Worded) → (xs.foldl (fold op) x).Worded
  | [], _, hx, _ => hx
  | y :: xs, x, hx, hxs => by
      obtain ⟨hy, hxs⟩ := List.forall_mem_cons.mp hxs
      rw [List.foldl_cons]
      exact worded_foldl_fold (worded_fold hx hy) hxs

theorem worded_negated {a : Expr} (ha : a.Worded) : a.negated.Worded := by
  have hneg : (neg a).Worded :=
    worded_of_parts (fun _ h => by cases h) (List.forall_mem_singleton.mpr ha)
  unfold negated
  split
  · rename_i v
    split
    · exact hneg
    · have := ha v .here
      refine worded_int ?_
      unfold Word.Fits Word.least Word.greatest at *
      omega
  · exact hneg

theorem worded_all {es : List Expr} (h : ∀ e ∈ es, e.Worded) : (Expr.all es).Worded := by
  intro v hv
  rcases occurs_all hv with ⟨_, hand⟩ | ⟨e, he, hv⟩
  · cases hand
  · exact h e he v hv

end Expr

/-! ## Expressions read from a problem -/

namespace Problem

variable {t : DimTable}

theorem worded_foldLeft {op : BinOp} {name : String} : ∀ {xs : List Expr} {x : Expr},
    foldLeft op name xs = .ok x → (∀ y ∈ xs, y.Worded) → x.Worded
  | [], _, h, _ => by cases h
  | y :: xs, _, h, hxs => by
      cases h
      obtain ⟨hy, hxs⟩ := List.forall_mem_cons.mp hxs
      exact Expr.worded_foldl_fold hy hxs

theorem worded_conjunction : ∀ {xs : List Expr} {x : Expr},
    conjunction xs = .ok x → (∀ y ∈ xs, y.Worded) → x.Worded
  | [], _, h, _ => by cases h
  | _ :: _, _, h, hxs => by
      cases h
      exact Expr.worded_all hxs

theorem worded_access {tensor : String} {js : List Index}
    (h : ∀ j ∈ js, ∀ e, j.symbolic? = some e → e.Worded) : (Expr.access tensor js).Worded := by
  refine Expr.worded_of_parts (fun _ h => by cases h) fun part hp => ?_
  obtain ⟨j, hj, he⟩ := List.mem_filterMap.mp hp
  exact h j hj part he

theorem fits_of_word? {j : Json} {v : Int} (h : word? j = some v) : Word.Fits v := by
  unfold word? intWithin? at h
  split at h
  · split at h
    · cases h
      assumption
    · cases h
  · cases h

mutual

/-- The integers of an expression that is read from a problem are words. -/
theorem worded_toExpr : ∀ {room : Nat} {j : Json} {e : Term} {x : Expr},
    term? room j = some e → e.toExpr t = .ok x → x.Worded
  | 0, _, _, _, h, _ => by cases h
  | room + 1, j, e, x, h, hx => by
      unfold term? at h
      split at h
      case h_2 => cases h
      rename_i room' tag body hroom
      cases hroom
      split at h
      case h_1 =>
        obtain ⟨v, hv, rfl⟩ := Option.map_eq_some_iff.mp h
        cases hx
        exact Expr.worded_int (fits_of_word? hv)
      case h_2 =>
        obtain ⟨v, -, rfl⟩ := Option.map_eq_some_iff.mp h
        cases hx
        exact Expr.worded_of_parts (fun _ h => by cases h) (fun _ hp => nomatch hp)
      case h_3 =>
        obtain ⟨n, -, rfl⟩ := Option.map_eq_some_iff.mp h
        obtain ⟨rfl, -⟩ := name_ne_of_scalarNamed hx
        exact Expr.worded_of_parts (fun _ h => by cases h) (fun _ hp => nomatch hp)
      case h_4 =>
        obtain ⟨n, -, rfl⟩ := Option.map_eq_some_iff.mp h
        obtain ⟨d, -, hx⟩ := bind_eq_ok.mp hx
        cases hx
        exact Expr.worded_of_parts (fun _ h => by cases h) (fun _ hp => nomatch hp)
      case h_5 =>
        obtain ⟨a, ha, rfl⟩ := Option.map_eq_some_iff.mp h
        obtain ⟨_, -, hx⟩ := bind_eq_ok.mp hx
        obtain ⟨js, hjs, hx⟩ := bind_eq_ok.mp hx
        cases hx
        exact worded_access (worded_indices ha hjs)
      case h_6 =>
        obtain ⟨a, ha, rfl⟩ := Option.map_eq_some_iff.mp h
        obtain ⟨y, hy, hx⟩ := bind_eq_ok.mp hx
        cases hx
        exact Expr.worded_negated (worded_toExpr ha hy)
      case h_7 | h_8 =>
        obtain ⟨es, hes, rfl⟩ := Option.map_eq_some_iff.mp h
        obtain ⟨xs, hxs, hx⟩ := bind_eq_ok.mp hx
        exact worded_foldLeft hx (worded_toExprs hes hxs)
      case h_9 =>
        obtain ⟨es, hes, rfl⟩ := Option.map_eq_some_iff.mp h
        obtain ⟨xs, hxs, hx⟩ := bind_eq_ok.mp hx
        exact worded_conjunction hx (worded_toExprs hes hxs)
      case h_10 => exact worded_call h hx
      case h_11 =>
        split at h
        · rename_i a b hes
          cases h
          obtain ⟨y, hy, hx⟩ := bind_eq_ok.mp hx
          obtain ⟨z, hz, hx⟩ := bind_eq_ok.mp hx
          cases hx
          have hxs := worded_toExprs hes (toExprs_eq_ok.mpr (.cons hy (.cons hz .nil)))
          exact Expr.worded_fold (hxs y (by simp)) (hxs z (by simp))
        · rename_i a b _ hes
          cases h
          obtain ⟨y, hy, hx⟩ := bind_eq_ok.mp hx
          obtain ⟨z, hz, hx⟩ := bind_eq_ok.mp hx
          cases hx
          exact Expr.worded_of_parts (fun _ h => by cases h)
            (worded_toExprs hes (toExprs_eq_ok.mpr (.cons hy (.cons hz .nil))))
        · cases h

theorem worded_toExprs : ∀ {room : Nat} {j : Json} {es : List Term} {xs : List Expr},
    terms? room j = some es → Term.toExprs t es = .ok xs → ∀ x ∈ xs, x.Worded
  | 0, _, _, _, h, _ => by cases h
  | room + 1, j, es, xs, h, hxs => by
      unfold terms? at h
      split at h
      · rename_i items hroom
        cases hroom
        intro x hx
        obtain ⟨e, he, hex⟩ := exists_of_forall₂_right (toExprs_eq_ok.mp hxs) hx
        obtain ⟨item, -, hitem⟩ := exists_of_forall₂_right (mapM_eq_some.mp h) he
        exact worded_toExpr hitem hex
      · cases h

theorem worded_call : ∀ {room : Nat} {j : Json} {e : Term} {x : Expr},
    call? room j = some e → e.toExpr t = .ok x → x.Worded
  | 0, _, _, _, h, _ => by cases h
  | room + 1, j, e, x, h, hx => by
      unfold call? at h
      split at h
      · rename_i args _
        obtain ⟨f, -, h⟩ := Option.bind_eq_some_iff.mp h
        obtain ⟨es, hes, h⟩ := Option.bind_eq_some_iff.mp h
        cases h
        obtain ⟨xs, hxs, hx⟩ := bind_eq_ok.mp hx
        cases hx
        refine Expr.worded_of_parts (fun _ h => by cases h) ?_
        cases args with
        | none =>
            cases hes
            cases hxs
            exact fun _ hp => nomatch hp
        | some body => exact worded_toExprs hes hxs
      · cases h

theorem worded_indices : ∀ {room : Nat} {j : Json} {a : String × List Place} {js : List Index},
    access? room j = some a → Place.toIndices t a.2 = .ok js →
      ∀ i ∈ js, ∀ e, i.symbolic? = some e → e.Worded
  | 0, _, _, _, h, _ => by cases h
  | room + 1, j, a, js, h, hjs => by
      unfold access? at h
      split at h
      · obtain ⟨tensor, -, h⟩ := Option.bind_eq_some_iff.mp h
        obtain ⟨is, his, h⟩ := Option.bind_eq_some_iff.mp h
        cases h
        obtain ⟨body, -, his⟩ := Option.bind_eq_some_iff.mp his
        exact worded_toIndices his hjs
      · cases h

theorem worded_toIndices : ∀ {room : Nat} {j : Json} {is : List Place} {js : List Index},
    places? room j = some is → Place.toIndices t is = .ok js →
      ∀ i ∈ js, ∀ e, i.symbolic? = some e → e.Worded
  | 0, _, _, _, h, _ => by cases h
  | room + 1, j, is, js, h, hjs => by
      unfold places? at h
      split at h
      · rename_i items hroom
        cases hroom
        intro i hi
        obtain ⟨place, hplace, hpi⟩ := exists_of_forall₂_right (toIndices_eq_ok.mp hjs) hi
        obtain ⟨item, -, hitem⟩ := exists_of_forall₂_right (mapM_eq_some.mp h) hplace
        split at hitem
        · exact worded_toIndex hitem hpi
        · cases hitem
      · cases h

theorem worded_toIndex : ∀ {room : Nat} {j : Json} {p : Place} {i : Index},
    place? room j = some p → p.toIndex t = .ok i → ∀ e, i.symbolic? = some e → e.Worded
  | room, j, p, i, h, hi => by
      unfold place? at h
      split at h
      · cases h
        obtain ⟨d, -, hi⟩ := bind_eq_ok.mp hi
        cases hi
        exact fun _ he => nomatch he
      · split at h
        · cases h
          obtain ⟨d, -, hi⟩ := bind_eq_ok.mp hi
          cases hi
          exact fun _ he => nomatch he
        · obtain ⟨shift, hshift, rfl⟩ := Option.map_eq_some_iff.mp h
          obtain ⟨d, -, hi⟩ := bind_eq_ok.mp hi
          obtain ⟨x, hx, hi⟩ := bind_eq_ok.mp hi
          cases hi
          have hx := worded_toExpr hshift hx
          unfold Index.displaced
          split
          · exact fun _ he => nomatch he
          · intro e he
            cases he
            exact hx
      · cases h

end

end Problem

/-! ## Folded and unfolded -/

namespace Scope

/-- What a problem joins under a key by an operator, with any number of operands, has the outcome of
the operands joined one after another. -/
def JoinsInTurn (s : Scope) (tag : String) (op : BinOp) : Prop :=
  ∀ (t : DimTable) (room : Nat) (body : Json) (e : Problem.Term),
    Problem.term? (room + 1) (.object [(tag, body)]) = some e →
      ∃ es, Problem.terms? room body = some es ∧
        ∀ x xs, Problem.Term.toExprs t es = .ok (x :: xs) →
          ∃ y, e.toExpr t = .ok y ∧ s.Agree y (xs.foldl (Expr.binary op) x)

/-- Expressions that are built folded have the outcomes of those that are not. -/
structure FoldsFaithfully (s : Scope) : Prop where
  binary : ∀ (op : BinOp) (a b : Expr), a.Worded → b.Worded →
    s.Agree (Expr.fold op a b) (.binary op a b)
  negated : ∀ a : Expr, a.Worded → s.Agree a.negated (.neg a)
  sums : s.JoinsInTurn "add" .add
  products : s.JoinsInTurn "mul" .mul

variable {s : Scope}

theorem agree_foldl_of_read {t : DimTable} {room : Nat} {body : Json} {es : List Problem.Term}
    (hs : s.Worded) (op : BinOp) (hes : Problem.terms? room body = some es) {x : Expr}
    {xs : List Expr} (hxs : Problem.Term.toExprs t es = .ok (x :: xs)) :
    s.Agree (xs.foldl (Expr.fold op) x) (xs.foldl (Expr.binary op) x) := by
  have hfits : ∀ y ∈ x :: xs, s.Fits y := fun y hy =>
    fits_of_int hs y (Problem.worded_toExprs hes hxs y hy)
  obtain ⟨hx, hrest⟩ := List.forall_mem_cons.mp hfits
  exact .of_int (int_foldl_fold hx hrest rfl)

end Scope

/-- Where all values are words, folding changes no outcome. -/
theorem foldsFaithfully_of_worded {s : Scope} (hs : s.Worded) : s.FoldsFaithfully where
  binary op a b ha hb :=
    .of_int (Scope.int_fold (Scope.fits_of_int hs a ha) (Scope.fits_of_int hs b hb))
  negated a ha := .of_int (Scope.int_negated (Scope.fits_of_int hs a ha))
  sums t room body e he := by
    obtain ⟨es, hes, rfl⟩ := Option.map_eq_some_iff.mp he
    exact ⟨es, hes, fun x xs hxs => ⟨_, bind_eq_ok.mpr ⟨_, hxs, rfl⟩,
      Scope.agree_foldl_of_read hs .add hes hxs⟩⟩
  products t room body e he := by
    obtain ⟨es, hes, rfl⟩ := Option.map_eq_some_iff.mp he
    exact ⟨es, hes, fun x xs hxs => ⟨_, bind_eq_ok.mpr ⟨_, hxs, rfl⟩,
      Scope.agree_foldl_of_read hs .mul hes hxs⟩⟩

/-- A point at the least word, with a scalar at the greatest one. -/
def atTheEnds : Scope :=
  ⟨.empty, [("n", Word.greatest)], [(⟨0⟩, Word.least)]⟩

/-- The sum of one, `n` and minus one, as a problem writes it. -/
def overflowingSum : Json :=
  .array [.object [("int", .int 1)], .object [("symbol", .text "n")], .object [("int", .int (-1))]]

theorem foldsFaithfully_of_worded_atTheEnds :
    atTheEnds.Worded ∧
      -- `d - -1` is folded to `d + 1`; the least word has no opposite, so `n - least` stays.
      atTheEnds.int (Expr.fold .sub (.dim ⟨0⟩) (.int (-1))) = .ok (Word.least + 1) ∧
      atTheEnds.int (.binary .sub (.dim ⟨0⟩) (.int (-1))) = .ok (Word.least + 1) ∧
      atTheEnds.int (Expr.fold .sub (.symbol "n") (.int Word.least)) = .error .overflow ∧
      ∃ e y, Problem.term? 3 (.object [("add", overflowingSum)]) = some e ∧
        e.toExpr .empty = .ok y ∧ atTheEnds.int y = .error .overflow ∧
        atTheEnds.Agree y
          (.binary .add (.binary .add (.int 1) (.symbol "n")) (.int (-1))) := by
  have hs : atTheEnds.Worded := by
    constructor <;> decide
  have folds := foldsFaithfully_of_worded hs
  have hdim : Expr.Worded (.dim ⟨0⟩) :=
    Expr.worded_of_parts (fun _ h => by cases h) (fun _ hp => nomatch hp)
  have hsymbol : Expr.Worded (.symbol "n") :=
    Expr.worded_of_parts (fun _ h => by cases h) (fun _ hp => nomatch hp)
  have hone := folds.binary .sub (.dim ⟨0⟩) (.int (-1)) hdim (Expr.worded_int (by decide))
  have hleast := folds.binary .sub (.symbol "n") (.int Word.least) hsymbol
    (Expr.worded_int (by decide))
  obtain ⟨es, hes, hjoin⟩ := folds.sums .empty 2 overflowingSum _ rfl
  cases hes
  obtain ⟨y, hy, hagree⟩ := hjoin _ _ rfl
  refine ⟨hs, hone.int.trans rfl, rfl, hleast.int.trans rfl, _, y, rfl, hy, ?_, hagree⟩
  exact hagree.int.trans rfl

end LoopNest
