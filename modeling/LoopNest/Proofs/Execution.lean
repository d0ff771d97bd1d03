import LoopNest.Proofs.Places
import LoopNest.Proofs.Turns
/-!
# The order of execution

A run of a tree executes instances, equations at values of the loops around them.  `Executes` says
which runs a tree admits when nothing is known of its bounds and guards: a loop visits any values
in its direction, and a guard may be passed or not.  The events of a trace are such a run, and of
a tree whose guards read tensors, which no trace can evaluate, the runs are there all the same.

Whatever the run, of two instances the one comes first that a loop around both visits at an
earlier value, or whose statement stands first (`Executes.pairwise`).
-/

namespace LoopNest

/-- An equation at values of the loops around it, outermost first. -/
structure Instance where
  equation : Nat
  values : List Int
deriving DecidableEq, Repr

namespace Instance

/-- The instance inside more loops. -/
def within (outer : List Int) (x : Instance) : Instance := ⟨x.equation, outer ++ x.values⟩

theorem within_within (us vs : List Int) (x : Instance) :
    (x.within vs).within us = x.within (us ++ vs) := by
  simp [within]

end Instance

def Event.instance (event : Event) : Instance := ⟨event.equation, event.point.map Prod.snd⟩

/-! ## Instances in their place -/

/-- The instance is one of the statement's, at some value of each loop around it. -/
def Placement.Runs (q : Placement) (x : Instance) : Prop :=
  x.equation = q.statement.equation ∧ x.values.length = q.loops.length

/-- The instance runs in the body of the loop, at value `v` of the loop and values `us` of those
around it. -/
def Site.Runs (site : Site) (us : List Int) (v : Int) (x : Instance) : Prop :=
  us.length = site.outer.length ∧ ∃ q ∈ Node.placementsOf site.body, ∃ y : Instance,
    q.Runs y ∧ x = y.within (us ++ [v])

instance (q : Placement) (x : Instance) : Decidable (q.Runs x) :=
  inferInstanceAs (Decidable (x.equation = q.statement.equation ∧ x.values.length = q.loops.length))

/-- The instances that run in the body of a loop have the values of the loops outside in front. -/
theorem Site.runs_iff {site : Site} {us : List Int} {v : Int} {x : Instance} :
    site.Runs us v x ↔ us.length = site.outer.length ∧
      x.values.take (us.length + 1) = us ++ [v] ∧ ∃ q ∈ Node.placementsOf site.body,
        q.Runs ⟨x.equation, x.values.drop (us.length + 1)⟩ := by
  have hlength : us.length + 1 = (us ++ [v]).length := by simp
  constructor
  · rintro ⟨hlen, q, hq, y, hy, rfl⟩
    refine ⟨hlen, ?_, q, hq, ?_⟩
    · rw [hlength]
      exact List.take_left
    · rw [hlength]
      exact (congrArg q.Runs (congrArg (Instance.mk y.equation) List.drop_left)).mpr hy
  · rintro ⟨hlen, htake, q, hq, hy⟩
    refine ⟨hlen, q, hq, _, hy, ?_⟩
    show x = ⟨x.equation, us ++ [v] ++ x.values.drop (us.length + 1)⟩
    rw [← htake, List.take_append_drop]

instance (site : Site) (us : List Int) (v : Int) (x : Instance) : Decidable (site.Runs us v x) :=
  decidable_of_iff _ Site.runs_iff.symm

theorem Site.Runs.inLoop {site : Site} {us : List Int} {v : Int} {x : Instance}
    (h : site.Runs us v x) (l : Loop) (u : Int) :
    (site.inLoop l).Runs (u :: us) v (x.within [u]) := by
  obtain ⟨hlen, q, hq, y, hy, rfl⟩ := h
  exact ⟨congrArg (· + 1) hlen, q, hq, y, hy, Instance.within_within _ _ _⟩

theorem Site.Runs.value_unique {site : Site} {us : List Int} {v w : Int} {x : Instance}
    (hv : site.Runs us v x) (hw : site.Runs us w x) : v = w := by
  obtain ⟨_, _, _, y, _, hy⟩ := hv
  obtain ⟨_, _, _, z, _, hz⟩ := hw
  have hvalues : us ++ v :: y.values = us ++ w :: z.values := by
    simpa [Instance.within] using congrArg Instance.values (hy.symm.trans hz)
  exact (List.cons.inj (List.append_cancel_left hvalues)).1

/-! ## Runs -/

/-- A run of nodes as far as loops and guards alone decide. -/
inductive Executes : List Node → List Instance → Prop where
  | nil : Executes [] []
  | statement {s : Statement} {ns : List Node} {xs : List Instance} :
      Executes ns xs → Executes (.statement s :: ns) (⟨s.equation, []⟩ :: xs)
  | skip {e : Expr} {ds : List DimId} {body ns : List Node} {xs : List Instance} :
      Executes ns xs → Executes (.guard e ds body :: ns) xs
  | enter {e : Expr} {ds : List DimId} {body ns : List Node} {xs ys : List Instance} :
      Executes body xs → Executes ns ys → Executes (.guard e ds body :: ns) (xs ++ ys)
  /-- `f v` is what the body executes at the value `v`. -/
  | loop {l : Loop} {body ns : List Node} {vs : List Int} {f : Int → List Instance}
      {ys : List Instance} :
      vs.Pairwise l.direction.Before → (∀ v ∈ vs, Executes body (f v)) → Executes ns ys →
      Executes (.loop l body :: ns) ((vs.flatMap fun v => (f v).map (Instance.within [v])) ++ ys)

/-- What decides which of two instances of nodes comes first. -/
def Node.Before (ns : List Node) (x y : Instance) : Prop :=
  (∃ site ∈ Node.sitesOf ns, ∃ us v w, site.Runs us v x ∧ site.Runs us w y ∧
      site.loop.direction.Before v w) ∨
    [x.equation, y.equation].Sublist (Node.equationsOf ns)

theorem lt_of_pairwise {α : Type} {r : α → α → Prop} {xs : List α} (h : xs.Pairwise r) {i j : Nat}
    {x y : α} (hi : xs[i]? = some x) (hj : xs[j]? = some y) (hxy : x ≠ y) (hnot : ¬r y x) :
    i < j := by
  obtain ⟨hil, rfl⟩ := List.getElem?_eq_some_iff.mp hi
  obtain ⟨hjl, rfl⟩ := List.getElem?_eq_some_iff.mp hj
  rcases Nat.lt_trichotomy i j with hlt | rfl | hgt
  · exact hlt
  · exact absurd rfl hxy
  · exact absurd (List.pairwise_iff_getElem.mp h j i hjl hil hgt) hnot

namespace Executes

variable {ns : List Node} {xs : List Instance}

theorem exists_placement (h : Executes ns xs) :
    ∀ x ∈ xs, ∃ q ∈ Node.placementsOf ns, q.Runs x := by
  induction h with
  | nil =>
      intro x hx
      exact absurd hx List.not_mem_nil
  | @statement s ns xs _ ih =>
      intro x hx
      rcases List.mem_cons.mp hx with rfl | hx
      · exact ⟨_, List.mem_append_left _ (List.mem_singleton.mpr rfl), rfl, rfl⟩
      · obtain ⟨q, hq, hr⟩ := ih x hx
        exact ⟨q, List.mem_append_right _ hq, hr⟩
  | skip _ ih =>
      intro x hx
      obtain ⟨q, hq, hr⟩ := ih x hx
      exact ⟨q, List.mem_append_right _ hq, hr⟩
  | @enter e _ _ _ _ _ _ _ ihbody ih =>
      intro x hx
      rcases List.mem_append.mp hx with hx | hx
      · obtain ⟨q, hq, hr⟩ := ihbody x hx
        exact ⟨q.inGuard e, List.mem_append_left _ (List.mem_map_of_mem hq), hr⟩
      · obtain ⟨q, hq, hr⟩ := ih x hx
        exact ⟨q, List.mem_append_right _ hq, hr⟩
  | @loop l _ _ _ _ _ _ _ _ ihbody ih =>
      intro x hx
      rcases List.mem_append.mp hx with hx | hx
      · obtain ⟨v, hv, hx⟩ := List.mem_flatMap.mp hx
        obtain ⟨y, hy, rfl⟩ := List.mem_map.mp hx
        obtain ⟨q, hq, he, hlen⟩ := ihbody v hv y hy
        exact ⟨q.inLoop l, List.mem_append_left _ (List.mem_map_of_mem hq), he,
          congrArg (· + 1) hlen⟩
      · obtain ⟨q, hq, hr⟩ := ih x hx
        exact ⟨q, List.mem_append_right _ hq, hr⟩

theorem equation_mem (h : Executes ns xs) {x : Instance} (hx : x ∈ xs) :
    x.equation ∈ Node.equationsOf ns := by
  obtain ⟨q, hq, he, _⟩ := h.exists_placement x hx
  exact List.mem_map.mpr ⟨q.statement, List.mem_map_of_mem hq, he.symm⟩

end Executes

namespace Node

variable {ns ms : List Node} {x y : Instance}

theorem Before.cons (h : Before ns x y) (n : Node) : Before (n :: ns) x y := by
  rcases h with ⟨site, hs, h⟩ | h
  · exact Or.inl ⟨site, List.mem_append_right _ hs, h⟩
  · rw [Before, equationsOf_cons]
    exact Or.inr (h.trans (List.sublist_append_right _ _))

theorem Before.inGuard (h : Before ns x y) (e : Expr) (ds : List DimId) (ms : List Node) :
    Before (.guard e ds ns :: ms) x y := by
  rcases h with ⟨site, hs, h⟩ | h
  · exact Or.inl ⟨site, List.mem_append_left _ hs, h⟩
  · rw [Before, equationsOf_cons, equationsOf_guard]
    exact Or.inr (h.trans (List.sublist_append_left _ _))

theorem Before.inLoop (h : Before ns x y) (l : Loop) (u : Int) (ms : List Node) :
    Before (.loop l ns :: ms) (x.within [u]) (y.within [u]) := by
  rcases h with ⟨site, hs, us, v, w, hx, hy, hd⟩ | h
  · exact Or.inl ⟨site.inLoop l,
      List.mem_append_left _ (List.mem_cons_of_mem _ (List.mem_map_of_mem hs)), u :: us, v, w,
      hx.inLoop l u, hy.inLoop l u, hd⟩
  · rw [Before, equationsOf_cons, equationsOf_loop]
    exact Or.inr (h.trans (List.sublist_append_left _ _))

theorem Before.of_mem {n : Node} (hx : x.equation ∈ equationsOf [n])
    (hy : y.equation ∈ equationsOf ns) : Before (n :: ns) x y := by
  rw [Before, equationsOf_cons]
  exact Or.inr ((List.singleton_sublist.mpr hx).append (List.singleton_sublist.mpr hy))

end Node

/-- A run keeps to the order that loops and statements decide. -/
theorem Executes.pairwise {ns : List Node} {xs : List Instance} (h : Executes ns xs) :
    xs.Pairwise (Node.Before ns) := by
  induction h with
  | nil => exact .nil
  | statement h ih =>
      refine List.pairwise_cons.mpr ⟨fun y hy => ?_, ih.imp fun hb => hb.cons _⟩
      exact .of_mem (List.mem_singleton.mpr rfl) (h.equation_mem hy)
  | skip _ ih => exact ih.imp fun hb => hb.cons _
  | enter hbody h ihbody ih =>
      refine List.pairwise_append.mpr ⟨ihbody.imp fun hb => hb.inGuard _ _ _,
        ih.imp fun hb => hb.cons _, fun x hx y hy => ?_⟩
      refine .of_mem ?_ (h.equation_mem hy)
      rw [Node.equationsOf_guard]
      exact hbody.equation_mem hx
  | @loop l body ns vs f ys hvs hbody h ihbody ih =>
      refine List.pairwise_append.mpr ⟨List.pairwise_flatMap.mpr ⟨fun v hv => ?_, ?_⟩,
        ih.imp fun hb => hb.cons _, fun x hx y hy => ?_⟩
      · exact List.pairwise_map.mpr ((ihbody v hv).imp fun hb => hb.inLoop l v ns)
      · -- Two iterations of the loop itself: the site that decides is the loop at the top.
        refine hvs.imp_of_mem fun {v w} hv hw hvw x hx y hy => ?_
        obtain ⟨x', hx', rfl⟩ := List.mem_map.mp hx
        obtain ⟨y', hy', rfl⟩ := List.mem_map.mp hy
        obtain ⟨q, hq, hqx⟩ := (hbody v hv).exists_placement x' hx'
        obtain ⟨r, hr, hry⟩ := (hbody w hw).exists_placement y' hy'
        exact Or.inl ⟨⟨[], l, body⟩, List.mem_cons_self, [], v, w, ⟨rfl, q, hq, x', hqx, rfl⟩,
          ⟨rfl, r, hr, y', hry, rfl⟩, hvw⟩
      · obtain ⟨v, hv, hx⟩ := List.mem_flatMap.mp hx
        obtain ⟨x', hx', rfl⟩ := List.mem_map.mp hx
        refine .of_mem ?_ (h.equation_mem hy)
        rw [Node.equationsOf_loop]
        exact (hbody v hv).equation_mem (x := x') hx'

/-! ## Loops around two instances

Which of two iterations comes first, the outermost loop decides along which they are apart.  In the
order of a run this says more than `Executes.pairwise`: where the statements of a body stand in
some order, that order counts only between instances of one iteration.
-/

/-- Loops, outermost first, come to the first point no later than to the second. -/
inductive Loop.InOrder : List Loop → List Int → List Int → Prop where
  | nil {xs ys : List Int} : InOrder [] xs ys
  | apart {l : Loop} {ls : List Loop} {v w : Int} {xs ys : List Int} :
      l.direction.Before v w → InOrder (l :: ls) (v :: xs) (w :: ys)
  | same {l : Loop} {ls : List Loop} {v : Int} {xs ys : List Int} :
      InOrder ls xs ys → InOrder (l :: ls) (v :: xs) (v :: ys)

/-- The loops that lead to the body of a site. -/
def Site.loops (site : Site) : List Loop := site.outer ++ [site.loop]

/-- The loops around the equations of two instances run the first no later than the second. -/
def Node.InOrder (ns : List Node) (x y : Instance) : Prop :=
  ∀ site ∈ Node.sitesOf ns, x.equation ∈ Node.equationsOf site.body →
    y.equation ∈ Node.equationsOf site.body → Loop.InOrder site.loops x.values y.values

namespace Node

variable {n : Node} {ns : List Node} {x y : Instance}

theorem InOrder.of_disjoint (hn : (equationsOf (n :: ns)).Nodup)
    (hx : x.equation ∈ equationsOf [n]) (hy : y.equation ∈ equationsOf ns) :
    InOrder (n :: ns) x y := by
  rw [equationsOf_cons] at hn
  have hdisjoint := (List.nodup_append.mp hn).2.2
  intro site hs hxs hys
  rcases List.mem_append.mp hs with hs | hs
  · have hy' : y.equation ∈ equationsOf [n] := equationsOf_body_sites n site hs hys
    exact absurd rfl (hdisjoint _ hy' _ hy)
  · have hx' : x.equation ∈ equationsOf ns := equationsOf_body_sitesOf ns site hs hxs
    exact absurd rfl (hdisjoint _ hx _ hx')

theorem InOrder.cons (h : InOrder ns x y) (hn : (equationsOf (n :: ns)).Nodup)
    (hx : x.equation ∈ equationsOf ns) : InOrder (n :: ns) x y := by
  rw [equationsOf_cons] at hn
  have hdisjoint := (List.nodup_append.mp hn).2.2
  intro site hs hxs hys
  rcases List.mem_append.mp hs with hs | hs
  · have hx' : x.equation ∈ equationsOf [n] := equationsOf_body_sites n site hs hxs
    exact absurd rfl (hdisjoint _ hx' _ hx)
  · exact h site hs hxs hys

theorem InOrder.append (h : InOrder [n] x y) (hn : (equationsOf (n :: ns)).Nodup)
    (hx : x.equation ∈ equationsOf [n]) : InOrder (n :: ns) x y := by
  rw [equationsOf_cons] at hn
  have hdisjoint := (List.nodup_append.mp hn).2.2
  intro site hs hxs hys
  rcases List.mem_append.mp hs with hs | hs
  · exact h site (List.mem_append_left _ hs) hxs hys
  · have hx' : x.equation ∈ equationsOf ns := equationsOf_body_sitesOf ns site hs hxs
    exact absurd rfl (hdisjoint _ hx _ hx')

theorem sitesOf_guard (e : Expr) (ds : List DimId) (body : List Node) :
    sitesOf [.guard e ds body] = sitesOf body := by
  rw [sitesOf, sitesOf, sites, List.append_nil]

/-- What the loops of a body decide between two instances, they decide in each iteration of a loop
around it. -/
theorem InOrder.inLoop (h : InOrder ns x y) (l : Loop) (u : Int) :
    InOrder [.loop l ns] (x.within [u]) (y.within [u]) := by
  intro site hs hxs hys
  rw [sitesOf, sitesOf, sites, List.append_nil] at hs
  rcases List.mem_cons.mp hs with rfl | hs
  · exact .same .nil
  · obtain ⟨inner, hi, rfl⟩ := List.mem_map.mp hs
    exact .same (h inner hi hxs hys)

theorem InOrder.of_before {l : Loop} {v w : Int} (h : l.direction.Before v w) (ns : List Node)
    (x y : Instance) : InOrder [.loop l ns] (x.within [v]) (y.within [w]) := by
  intro site hs _ _
  rw [sitesOf, sitesOf, sites, List.append_nil] at hs
  rcases List.mem_cons.mp hs with rfl | hs
  · exact .apart h
  · obtain ⟨inner, _, rfl⟩ := List.mem_map.mp hs
    exact .apart h

end Node

/-- A run comes to iterations in the order of the loops, if each equation stands in one place. -/
theorem Executes.inOrder {ns : List Node} {xs : List Instance} (h : Executes ns xs)
    (hn : (Node.equationsOf ns).Nodup) : xs.Pairwise (Node.InOrder ns) := by
  induction h with
  | nil => exact .nil
  | statement h ih =>
      have hn' := hn
      rw [Node.equationsOf_cons] at hn'
      have hrest := ih (List.nodup_append.mp hn').2.1
      refine List.pairwise_cons.mpr ⟨fun y hy => ?_, hrest.imp_of_mem fun hx _ ho => ?_⟩
      · exact .of_disjoint hn (List.mem_singleton.mpr rfl) (h.equation_mem hy)
      · exact ho.cons hn (h.equation_mem hx)
  | skip h ih =>
      have hn' := hn
      rw [Node.equationsOf_cons] at hn'
      have hrest := ih (List.nodup_append.mp hn').2.1
      exact hrest.imp_of_mem fun hx _ ho => ho.cons hn (h.equation_mem hx)
  | @enter e ds body ns xs ys hbody h ihbody ih =>
      have hn' := hn
      rw [Node.equationsOf_cons] at hn'
      obtain ⟨hguard, hns, _⟩ := List.nodup_append.mp hn'
      have hmem : ∀ {x : Instance}, x ∈ xs → x.equation ∈ Node.equationsOf [.guard e ds body] := by
        intro x hx
        rw [Node.equationsOf_guard]
        exact hbody.equation_mem hx
      rw [Node.equationsOf_guard] at hguard
      refine List.pairwise_append.mpr ⟨(ihbody hguard).imp_of_mem fun hx _ ho => ?_,
        (ih hns).imp_of_mem fun hx _ ho => ho.cons hn (h.equation_mem hx), fun x hx y hy => ?_⟩
      · refine Node.InOrder.append ?_ hn (hmem hx)
        rw [Node.InOrder, Node.sitesOf_guard]
        exact ho
      · exact .of_disjoint hn (hmem hx) (h.equation_mem hy)
  | @loop l body ns vs f ys hvs hbody h ihbody ih =>
      have hn' := hn
      rw [Node.equationsOf_cons] at hn'
      obtain ⟨hloop, hns, _⟩ := List.nodup_append.mp hn'
      have hmem : ∀ {v x}, v ∈ vs → x ∈ (f v).map (Instance.within [v]) →
          x.equation ∈ Node.equationsOf [.loop l body] := by
        intro v x hv hx
        obtain ⟨x', hx', rfl⟩ := List.mem_map.mp hx
        rw [Node.equationsOf_loop]
        exact (hbody v hv).equation_mem (x := x') hx'
      rw [Node.equationsOf_loop] at hloop
      refine List.pairwise_append.mpr ⟨List.pairwise_flatMap.mpr ⟨fun v hv => ?_, ?_⟩,
        (ih hns).imp_of_mem fun hx _ ho => ho.cons hn (h.equation_mem hx), fun x hx y hy => ?_⟩
      · refine List.pairwise_map.mpr ((ihbody v hv hloop).imp_of_mem fun hx _ ho => ?_)
        exact (ho.inLoop l v).append hn (hmem hv (List.mem_map_of_mem hx))
      · refine hvs.imp_of_mem fun {v w} hv _ hvw x hx y hy => ?_
        have hx' := hmem hv hx
        obtain ⟨x', _, rfl⟩ := List.mem_map.mp hx
        obtain ⟨y', _, rfl⟩ := List.mem_map.mp hy
        exact (Node.InOrder.of_before hvw body x' y').append hn hx'
      · obtain ⟨v, hv, hx⟩ := List.mem_flatMap.mp hx
        exact .of_disjoint hn (hmem hv hx) (h.equation_mem hy)

/-! ## Traces are runs -/

theorem Statement.event_eq_ok {s : Scope} {st : Statement} {event : Event}
    (h : st.event s = .ok event) :
    ∃ tensor indices, st.lhs = .element tensor indices ∧ event.equation = st.equation ∧
      event.point = s.namedPoint ∧ event.tensor = tensor ∧
      indices.mapM s.int = .ok event.index := by
  rw [Statement.event] at h
  split at h
  · obtain ⟨index, hi, h⟩ := bind_eq_ok.mp h
    cases h
    exact ⟨_, _, by assumption, rfl, rfl, rfl, hi⟩
  · cases h

theorem Scope.map_snd_namedPoint (s : Scope) :
    s.namedPoint.map Prod.snd = s.point.map Prod.snd := by
  rw [Scope.namedPoint, List.map_map]
  rfl

namespace Node

theorem runAll_concat_eq_ok {s : Scope} {ns : List Node} {n : Node} {events : List Event} :
    runAll s (ns ++ [n]) = .ok events ↔
      ∃ first rest, runAll s ns = .ok first ∧ n.run s = .ok rest ∧ events = first ++ rest := by
  rw [runAll_append, runAll_singleton, bind_eq_ok]
  refine exists_congr fun first => ⟨?_, ?_⟩
  · rintro ⟨hfirst, h⟩
    obtain ⟨rest, hrest, rfl⟩ := map_eq_ok.mp h
    exact ⟨rest, hfirst, hrest, rfl⟩
  · rintro ⟨rest, hfirst, hrest, rfl⟩
    exact ⟨hfirst, map_eq_ok.mpr ⟨rest, hrest, rfl⟩⟩

theorem run_guard_eq_ok {s : Scope} {e : Expr} {ds : List DimId} {body : List Node}
    {events : List Event} (h : run s (.guard e ds body) = .ok events) :
    (s.truth e = .ok true ∧ runAll s body = .ok events) ∨
      (s.truth e = .ok false ∧ events = []) := by
  obtain ⟨holds, he, h⟩ := bind_eq_ok.mp h
  cases holds with
  | true => exact Or.inl ⟨he, h⟩
  | false =>
      cases h
      exact Or.inr ⟨he, rfl⟩

theorem run_loop_eq_ok {s : Scope} {l : Loop} {body : List Node} {events : List Event}
    (h : run s (.loop l body) = .ok events) :
    ∃ lo hi, s.int l.bounds.min = .ok lo ∧ s.int l.bounds.max = .ok hi ∧
      ∃ (vs : List Int) (f : Int → List Event), vs.Pairwise l.direction.Before ∧
        (∀ v, v ∈ vs ↔ lo ≤ v ∧ v ≤ hi) ∧
        (∀ v ∈ vs, runAll (s.bind l.dim v) body = .ok (f v)) ∧ events = vs.flatMap f := by
  rw [run_loop] at h
  obtain ⟨lo, hlo, h⟩ := bind_eq_ok.mp h
  obtain ⟨hi, hhi, h⟩ := bind_eq_ok.mp h
  obtain ⟨hok, rfl⟩ := inTurn_eq_ok h
  refine ⟨lo, hi, hlo, hhi, l.direction.values lo hi, _, l.direction.values_pairwise lo hi,
    fun _ => Direction.mem_values_iff, fun v hv => ?_, rfl⟩
  obtain ⟨ys, hys⟩ := hok v hv
  rw [hys]
  rfl

mutual

/-- What a node runs is one way for it to execute. -/
theorem executes_of_run (s : Scope) : ∀ (n : Node) {events : List Event},
    n.run s = .ok events →
      ∃ xs, events.map Event.instance = xs.map (Instance.within (s.point.map Prod.snd)) ∧
        ∀ ns ys, Executes ns ys → Executes (n :: ns) (xs ++ ys)
  | .statement st, events, h => by
      obtain ⟨event, he, h⟩ := bind_eq_ok.mp h
      cases h
      obtain ⟨_, _, _, heq, hpt, _, _⟩ := Statement.event_eq_ok he
      refine ⟨[⟨st.equation, []⟩], ?_, fun ns ys hys => .statement hys⟩
      simp [Event.instance, Instance.within, heq, hpt, Scope.map_snd_namedPoint]
  | .guard e ds body, events, h => by
      rcases run_guard_eq_ok h with ⟨_, h⟩ | ⟨_, rfl⟩
      · obtain ⟨xs, hxs, hmap⟩ := executes_of_runAll s body h
        exact ⟨xs, hmap, fun ns ys hys => .enter hxs hys⟩
      · exact ⟨[], rfl, fun ns ys hys => .skip hys⟩
  | .loop l body, events, h => by
      obtain ⟨_, _, _, _, vs, f, hvs, _, hbody, rfl⟩ := run_loop_eq_ok h
      have hxs : ∀ v, ∃ xs, v ∈ vs → Executes body xs ∧ (f v).map Event.instance =
          xs.map (Instance.within (s.point.map Prod.snd ++ [v])) := by
        intro v
        by_cases hv : v ∈ vs
        · obtain ⟨xs, hxs, hmap⟩ := executes_of_runAll (s.bind l.dim v) body (hbody v hv)
          exact ⟨xs, fun _ => ⟨hxs, by simpa [Scope.bind] using hmap⟩⟩
        · exact ⟨[], fun h => absurd h hv⟩
      choose g hg using hxs
      refine ⟨vs.flatMap fun v => (g v).map (Instance.within [v]), ?_,
        fun ns ys hys => .loop hvs (fun v hv => (hg v hv).1) hys⟩
      rw [List.map_flatMap, List.map_flatMap]
      refine List.flatMap_congr ?_
      intro v hv
      rw [(hg v hv).2, List.map_map]
      exact List.map_congr_left fun x _ => (Instance.within_within _ _ x).symm

theorem executes_of_runAll (s : Scope) : ∀ (ns : List Node) {events : List Event},
    runAll s ns = .ok events →
      ∃ xs, Executes ns xs ∧
        events.map Event.instance = xs.map (Instance.within (s.point.map Prod.snd))
  | [], events, h => by
      cases h
      exact ⟨[], .nil, rfl⟩
  | n :: ns, events, h => by
      obtain ⟨first, hfirst, h⟩ := bind_eq_ok.mp h
      obtain ⟨rest, hrest, h⟩ := bind_eq_ok.mp h
      cases h
      obtain ⟨xs, hmap, hxs⟩ := executes_of_run s n hfirst
      obtain ⟨ys, hys, hmap'⟩ := executes_of_runAll s ns hrest
      exact ⟨xs ++ ys, hxs ns ys hys, by rw [List.map_append, List.map_append, hmap, hmap']⟩

end

/-- The instances of a run from the top, in its order, are a run of the nodes. -/
theorem executes_of_events {t : DimTable} {b : Bindings} {ns : List Node} {events : List Event}
    (h : runAll ⟨t, b, []⟩ ns = .ok events) : Executes ns (events.map Event.instance) := by
  obtain ⟨xs, hxs, hmap⟩ := executes_of_runAll _ ns h
  rw [hmap]
  have : xs.map (Instance.within []) = xs := List.map_id _
  exact this.symm ▸ hxs

end Node

end LoopNest
