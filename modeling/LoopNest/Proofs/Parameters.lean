import LoopNest.Proofs.Fusion
import LoopNest.Proofs.NamesApart
/-!
# Parameters by name

A run binds parameters by name, and the name of a parameter is that of its dimension and an ending
that tells what it sets.  Names of dimensions are any texts but the empty one and may have such an
ending themselves.  Still two parameters never share a name: no ending of a parameter's name ends in
another (`ParameterKind.eq_of_append_ending`), and names of dimensions are distinct.

So the table of defaults, which is by name as well, gives each parameter its own default, and a
binding gives its value to the one parameter that it names (`DimTable.parameters_apart`).  Scalars
are bound by name too; whether one of them is called like a parameter is no matter of this.
-/

namespace LoopNest

/-! ## Names of parameters -/

namespace ParameterKind

/-- What the name of a parameter ends in. -/
def ending : ParameterKind → String
  | .min => "_m"
  | .max => "_M"
  | .leftThickness => "_ltkn"
  | .rightThickness => "_rtkn"
  | .factor => "_factor"

theorem eq_of_ending_suffix {k k' : ParameterKind}
    (h : k.ending.toList <:+ k'.ending.toList) : k = k' := by
  revert h
  cases k <;> cases k' <;> decide

/-- No ending is that of another kind's names as well. -/
theorem eq_of_append_ending {k k' : ParameterKind} {name name' : String}
    (h : name ++ k.ending = name' ++ k'.ending) : k = k' ∧ name = name' := by
  have hlists : name.toList ++ k.ending.toList = name'.toList ++ k'.ending.toList := by
    rw [← String.toList_append, h, String.toList_append]
  obtain rfl : k = k' := by
    have hk : k.ending.toList <:+ name'.toList ++ k'.ending.toList := ⟨_, hlists⟩
    rcases List.suffix_or_suffix_of_suffix hk (List.suffix_append _ _) with h | h
    · exact eq_of_ending_suffix h
    · exact (eq_of_ending_suffix h).symm
  exact ⟨rfl, String.toList_injective (List.append_cancel_right hlists)⟩

end ParameterKind

namespace DimTable

variable {t : DimTable} {d : DimId} {q : Parameter}

theorem name_of_mem_parameters : ∀ q ∈ t.parameters d,
    q.name = t.name d ++ q.kind.ending ∧ q.dim = d := by
  unfold parameters
  dsimp only
  split <;> simp [ParameterKind.ending, name, Dimension.minName, Dimension.maxName,
    Dimension.leftName, Dimension.rightName, Dimension.factorName]

theorem left_mem_parameters {p : DimId} {side : Side} {left right : Int}
    (h : (t.get d).kind = .sub p side left right) (hside : side ≠ .right) :
    ⟨(t.get d).leftName, .leftThickness, d, some left⟩ ∈ t.parameters d := by
  unfold parameters
  cases side <;> simp_all

theorem right_mem_parameters {p : DimId} {side : Side} {left right : Int}
    (h : (t.get d).kind = .sub p side left right) (hside : side ≠ .left) :
    ⟨(t.get d).rightName, .rightThickness, d, some right⟩ ∈ t.parameters d := by
  unfold parameters
  cases side <;> simp_all

theorem nodup_kinds (t : DimTable) (d : DimId) : ((t.parameters d).map Parameter.kind).Nodup := by
  unfold parameters
  dsimp only
  split <;> simp

theorem parameter_eq_of_name_eq {d' : DimId} {q' : Parameter} (hd : t.contains d = true)
    (hd' : t.contains d' = true) (hq : q ∈ t.parameters d) (hq' : q' ∈ t.parameters d')
    (h : q.name = q'.name) : q = q' := by
  rw [(name_of_mem_parameters q hq).1, (name_of_mem_parameters q' hq').1] at h
  obtain ⟨hkind, hname⟩ := ParameterKind.eq_of_append_ending h
  obtain rfl := eq_of_name_eq hd hd' hname
  exact List.inj_on_of_nodup_map (nodup_kinds t d) hq hq' hkind

theorem nodup_ids (t : DimTable) : t.ids.Nodup :=
  List.nodup_range.map fun _ _ h => congrArg DimId.index h

theorem nodup_parameters (t : DimTable) : (t.ids.flatMap t.parameters).Nodup := by
  refine List.nodup_flatMap.mpr ⟨fun d _ => (nodup_kinds t d).of_map _, ?_⟩
  refine (nodup_ids t).imp fun hne q hq hq' => hne ?_
  exact (name_of_mem_parameters q hq).2.symm.trans (name_of_mem_parameters q hq').2

theorem nodup_parameterNames (t : DimTable) :
    ((t.ids.flatMap t.parameters).map Parameter.name).Nodup := by
  refine (nodup_parameters t).map_on fun q hq q' hq' h => ?_
  obtain ⟨d, hd, hq⟩ := List.mem_flatMap.mp hq
  obtain ⟨d', hd', hq'⟩ := List.mem_flatMap.mp hq'
  exact parameter_eq_of_name_eq (mem_ids_iff.mp hd) (mem_ids_iff.mp hd') hq hq' h

end DimTable

/-! ## Values by name -/

namespace Bindings

theorem find?_of_forall {b : Bindings} {name : String} {v : Int} (h : (name, v) ∈ b)
    (hunique : ∀ w, (name, w) ∈ b → w = v) : b.find? name = some v := by
  unfold find?
  cases hf : b.reverse.find? fun pair => pair.1 == name with
  | none => simpa using List.find?_eq_none.mp hf (name, v) (List.mem_reverse.mpr h)
  | some pair =>
      have hname : pair.1 = name := by simpa using List.find?_some hf
      have hmem := List.mem_reverse.mp (List.mem_of_find?_eq_some hf)
      exact congrArg some (hunique pair.2 (hname ▸ hmem))

theorem find?_eq_none {b : Bindings} {name : String} (h : ∀ w, (name, w) ∉ b) :
    b.find? name = none := by
  refine Option.map_eq_none_iff.mpr (List.find?_eq_none.mpr fun pair hp hname => ?_)
  obtain rfl := beq_iff_eq.mp hname
  exact h pair.2 (List.mem_reverse.mp hp)

/-- Later bindings override earlier ones. -/
theorem find?_append (b c : Bindings) (name : String) :
    Bindings.find? (b ++ c) name = (c.find? name).or (b.find? name) := by
  unfold find?
  rw [List.reverse_append, List.find?_append, Option.map_or]

theorem find?_singleton (name other : String) (v : Int) :
    Bindings.find? [(name, v)] other = if other = name then some v else none := by
  by_cases h : other = name
  · simp [find?, h]
  · simp [find?, h, Ne.symm h]

end Bindings

theorem find?_defaultBindings_of_nodup {qs : List Parameter} {q : Parameter}
    (h : (qs.map Parameter.name).Nodup) (hq : q ∈ qs) :
    (defaultBindings qs).find? q.name = q.default? := by
  have hmem : ∀ v, (q.name, v) ∈ defaultBindings qs ↔ q.default? = some v := by
    intro v
    rw [defaultBindings, List.mem_filterMap]
    constructor
    · rintro ⟨q', hq', hv⟩
      obtain ⟨w, hw, heq⟩ := Option.map_eq_some_iff.mp hv
      obtain ⟨hname, rfl⟩ := Prod.mk.inj heq
      exact List.inj_on_of_nodup_map h hq' hq hname ▸ hw
    · intro hv
      exact ⟨q, hq, Option.map_eq_some_iff.mpr ⟨v, hv, rfl⟩⟩
  cases hv : q.default? with
  | none =>
      refine Bindings.find?_eq_none fun w hw => ?_
      cases hv.symm.trans ((hmem w).mp hw)
  | some v =>
      refine Bindings.find?_of_forall ((hmem v).mpr hv) fun w hw => ?_
      exact Option.some.inj (((hmem w).mp hw).symm.trans hv)

namespace DimTable

variable {t : DimTable} {d : DimId} {q : Parameter}

/-- Parameters with defaults are bound to these. -/
def AtDefaults (t : DimTable) (b : Bindings) : Prop :=
  ∀ d, t.contains d = true → ∀ q ∈ t.parameters d, ∀ v, q.default? = some v →
    b.find? q.name = some v

theorem withStride_name (options : Options) (q : Parameter) :
    (Plan.withStride options q).name = q.name := by
  unfold Plan.withStride
  split <;> rfl

/-- A parameter's own default comes first, and a stride without one has that of the options. -/
theorem withStride_default? (options : Options) (q : Parameter) :
    (Plan.withStride options q).default? =
      q.default?.or (if q.kind = .factor then some options.defaultFactor else none) := by
  unfold Plan.withStride
  split
  · rename_i hkind
    rw [if_pos hkind]
    cases q.default? <;> rfl
  · rename_i hkind
    rw [if_neg hkind, Option.or_none]

theorem names_of_parameters (t : DimTable) (options : Options) :
    (Plan.parameters t options).map Parameter.name =
      (t.ids.flatMap t.parameters).map Parameter.name := by
  rw [Plan.parameters, List.map_map]
  exact List.map_congr_left fun q _ => withStride_name options q

theorem find?_defaultBindings (options : Options) (hd : t.contains d = true)
    (hq : q ∈ t.parameters d) :
    (defaultBindings (Plan.parameters t options)).find? q.name =
      (Plan.withStride options q).default? := by
  have hnodup : ((Plan.parameters t options).map Parameter.name).Nodup :=
    names_of_parameters t options ▸ nodup_parameterNames t
  rw [← withStride_name options q]
  refine find?_defaultBindings_of_nodup hnodup (List.mem_map_of_mem ?_)
  exact List.mem_flatMap.mpr ⟨d, mem_ids_iff.mpr hd, hq⟩

theorem atDefaults_defaultBindings (t : DimTable) (options : Options) :
    t.AtDefaults (defaultBindings (Plan.parameters t options)) := by
  intro d hd q hq v hv
  rw [find?_defaultBindings options hd hq, withStride_default?, hv, Option.some_or]

end DimTable

/-! ## One parameter for each name -/

/-- What a run with these bindings evaluates expressions in, at a point. -/
def ScheduleTree.scopeAt (t : DimTable) (tree : ScheduleTree) (b : Bindings) (pt : Point) : Scope :=
  ⟨t, defaultBindings tree.parameters ++ b, pt⟩

/-- A name tells which parameter of which dimension is meant. -/
structure DimTable.NamesParameters (t : DimTable) : Prop where
  distinct : ((t.ids.flatMap t.parameters).map Parameter.name).Nodup
  owner : ∀ d q, t.contains d = true → q ∈ t.parameters d →
    ∀ d' q', t.contains d' = true → q' ∈ t.parameters d' → q'.name = q.name → d' = d ∧ q' = q

/-- The schedule has the parameters of all dimensions, and a run finds each of them on its own. -/
structure ScheduleTree.BindsParameters (t : DimTable) (options : Options) (tree : ScheduleTree) :
    Prop where
  listed : tree.parameters.map Parameter.name = (t.ids.flatMap t.parameters).map Parameter.name
  /-- The table of defaults holds the default of the parameter itself, for a stride without one that
  of the options. -/
  defaults : ∀ d q, t.contains d = true → q ∈ t.parameters d →
    (defaultBindings tree.parameters).find? q.name =
      q.default?.or (if q.kind = .factor then some options.defaultFactor else none)
  /-- A binding reaches the parameter it names, and no other. -/
  bound : ∀ b v pt d q, t.contains d = true → q ∈ t.parameters d →
    ∀ d' q', t.contains d' = true → q' ∈ t.parameters d' →
      (tree.scopeAt t (b ++ [(q.name, v)]) pt).int (.symbol q'.name) =
        if q' = q then .ok v else (tree.scopeAt t b pt).int (.symbol q'.name)

namespace DimTable

theorem namesParameters (t : DimTable) : t.NamesParameters where
  distinct := nodup_parameterNames t
  owner d q hd hq d' q' hd' hq' hname := by
    obtain rfl := parameter_eq_of_name_eq hd' hd hq' hq hname
    exact ⟨(name_of_mem_parameters q' hq').2.symm.trans (name_of_mem_parameters q' hq).2, rfl⟩

theorem bindsParameters (t : DimTable) {options : Options} {tree : ScheduleTree}
    (h : tree.parameters = Plan.parameters t options) : tree.BindsParameters t options where
  listed := h ▸ names_of_parameters t options
  defaults d q hd hq := by
    rw [h, find?_defaultBindings options hd hq, withStride_default?]
  bound b v pt d q hd hq d' q' hd' hq' := by
    have hname : q'.name = q.name ↔ q' = q :=
      ⟨fun heq => ((namesParameters t).owner d q hd hq d' q' hd' hq' heq).2, congrArg _⟩
    simp only [ScheduleTree.scopeAt, Scope.int]
    rw [← List.append_assoc, Bindings.find?_append, Bindings.find?_singleton]
    by_cases heq : q' = q
    · rw [if_pos (hname.mpr heq), if_pos heq, Option.some_or, known]
    · rw [if_neg (mt hname.mp heq), if_neg heq, Option.none_or]

/-- Parameters never share a name, so that a run gives each of them its own default unless a binding
names it. -/
theorem parameters_apart (t : DimTable) :
    t.NamesParameters ∧ ∀ (program : Program) (options : Options) (tree : ScheduleTree),
      program.dims = t → (program.schedule options).result = .ok tree →
        tree.BindsParameters t options := by
  refine ⟨namesParameters t, ?_⟩
  rintro program options tree rfl htree
  exact bindsParameters program.dims (parameters_of_schedule htree)

end DimTable

/-- A part that is called like the first bound of its parent, a stride that is called like the
thickness of that part, and a range without a last point. -/
def namedLikeParameters : Program where
  dims := (do
    let (t, x) ← DimTable.empty.space "x" (some 4)
    let (t, part) ← t.subLeft "x_m" x 2
    let (t, _) ← t.conditional "x_m_ltkn" part none none
    let (t, _) ← t.space "x_m_ltkn_factor" none
    return t : Except ModelError DimTable).toOption.getD .empty
  scalars := []
  equations := [⟨⟨"u", [.fixed ⟨1⟩ 0]⟩, .int 0, [], [⟨2⟩]⟩]

theorem parameters_apart_namedLikeParameters :
    let t := namedLikeParameters.dims
    let thickness : Parameter := ⟨"x_m_ltkn", .leftThickness, ⟨1⟩, some 2⟩
    let factor : Parameter := ⟨"x_m_ltkn_factor", .factor, ⟨2⟩, none⟩
    thickness ∈ t.parameters ⟨1⟩ ∧ factor ∈ t.parameters ⟨2⟩ ∧
      ∃ tree, (namedLikeParameters.schedule ⟨3, true, true⟩).result = .ok tree ∧
        tree.parameters.map Parameter.name =
          ["x_m", "x_M", "x_m_ltkn", "x_m_ltkn_factor", "x_m_ltkn_factor_m",
            "x_m_ltkn_factor_M"] ∧
        (tree.parameters.map Parameter.name).Nodup ∧
        (tree.scopeAt t [(thickness.name, 1)] []).int (.symbol thickness.name) = .ok 1 ∧
        (tree.scopeAt t [(thickness.name, 1)] []).int (.symbol factor.name) = .ok 3 := by
  intro t thickness factor
  obtain ⟨tree, htree⟩ : ∃ tree,
      (namedLikeParameters.schedule ⟨3, true, true⟩).result = .ok tree := ⟨_, rfl⟩
  obtain ⟨hnames, hbinds⟩ := DimTable.parameters_apart t
  have h := hbinds namedLikeParameters ⟨3, true, true⟩ tree rfl htree
  have hpart : t.contains ⟨1⟩ = true := by decide +kernel
  have hstride : t.contains ⟨2⟩ = true := by decide +kernel
  have hthickness : thickness ∈ t.parameters ⟨1⟩ := by decide +kernel
  have hfactor : factor ∈ t.parameters ⟨2⟩ := by decide +kernel
  have hbound := h.bound [] 1 [] ⟨1⟩ thickness hpart hthickness
  refine ⟨hthickness, hfactor, tree, htree, ?_, h.listed ▸ hnames.distinct, ?_, ?_⟩
  · rw [h.listed]
    decide +kernel
  · exact (hbound ⟨1⟩ thickness hpart hthickness).trans (if_pos rfl)
  · refine (hbound ⟨2⟩ factor hstride hfactor).trans ((if_neg (by decide)).trans ?_)
    simp only [ScheduleTree.scopeAt, Scope.int]
    rw [List.append_nil, h.defaults ⟨2⟩ factor hstride hfactor]
    rfl

end LoopNest
