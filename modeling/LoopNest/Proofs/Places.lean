import LoopNest.Tree.Basic
/-!
# Statements and loops in their places

The equations of a tree stand in the order of its statements.  A site is a loop together with the
loops around it and its body, as a placement is a statement together with what is around it.
-/

namespace LoopNest

/-- A loop of a tree with the loops around it and its body. -/
structure Site where
  outer : List Loop
  loop : Loop
  body : List Node

/-- The site inside one more loop. -/
def Site.inLoop (l : Loop) (site : Site) : Site := ⟨l :: site.outer, site.loop, site.body⟩

namespace Node

mutual

/-- The loops of a node in their places, each before those inside it. -/
def sites : Node → List Site
  | .loop l body => ⟨[], l, body⟩ :: (sitesOf body).map (Site.inLoop l)
  | .guard _ _ body => sitesOf body
  | .statement _ => []

def sitesOf : List Node → List Site
  | [] => []
  | n :: ns => n.sites ++ sitesOf ns

end

theorem sitesOf_append (ns ms : List Node) : sitesOf (ns ++ ms) = sitesOf ns ++ sitesOf ms := by
  induction ns with
  | nil => rfl
  | cons n ns ih => rw [List.cons_append, sitesOf, sitesOf, ih, List.append_assoc]

mutual

theorem map_loop_sites : ∀ n : Node, n.sites.map Site.loop = n.loops
  | .loop l body => by
      rw [sites, loops, List.map_cons, List.map_map, ← map_loop_sitesOf body]
      rfl
  | .guard _ _ body => map_loop_sitesOf body
  | .statement _ => rfl

theorem map_loop_sitesOf : ∀ ns : List Node, (sitesOf ns).map Site.loop = loopsOf ns
  | [] => rfl
  | n :: ns => by rw [sitesOf, loopsOf, List.map_append, map_loop_sites n, map_loop_sitesOf ns]

end

theorem placementsOf_append (ns ms : List Node) :
    placementsOf (ns ++ ms) = placementsOf ns ++ placementsOf ms := by
  simp only [placementsOf_eq_flatMap, List.flatMap_append]

/-- The equations of the statements, in their order. -/
def equationsOf (ns : List Node) : List Nat := (statementsOf ns).map Statement.equation

theorem statementsOf_append (ns ms : List Node) :
    statementsOf (ns ++ ms) = statementsOf ns ++ statementsOf ms := by
  simp only [statementsOf, placementsOf_append, List.map_append]

theorem statementsOf_loop (l : Loop) (body : List Node) :
    statementsOf [.loop l body] = statementsOf body := by
  simp only [statementsOf, placementsOf, placements, List.append_nil, List.map_map]
  rfl

theorem statementsOf_guard (e : Expr) (ds : List DimId) (body : List Node) :
    statementsOf [.guard e ds body] = statementsOf body := by
  simp only [statementsOf, placementsOf, placements, List.append_nil, List.map_map]
  rfl

theorem equationsOf_append (ns ms : List Node) :
    equationsOf (ns ++ ms) = equationsOf ns ++ equationsOf ms := by
  rw [equationsOf, statementsOf_append, List.map_append]
  rfl

theorem equationsOf_cons (n : Node) (ns : List Node) :
    equationsOf (n :: ns) = equationsOf [n] ++ equationsOf ns := equationsOf_append [n] ns

theorem equationsOf_loop (l : Loop) (body : List Node) :
    equationsOf [.loop l body] = equationsOf body :=
  congrArg (List.map Statement.equation) (statementsOf_loop l body)

theorem equationsOf_guard (e : Expr) (ds : List DimId) (body : List Node) :
    equationsOf [.guard e ds body] = equationsOf body :=
  congrArg (List.map Statement.equation) (statementsOf_guard e ds body)

mutual

theorem equationsOf_body_sites : ∀ (n : Node), ∀ site ∈ n.sites,
    equationsOf site.body ⊆ equationsOf [n]
  | .loop l body, site, hs => by
      rw [equationsOf_loop]
      rcases List.mem_cons.mp hs with rfl | hs
      · exact List.Subset.refl _
      · obtain ⟨inner, hi, rfl⟩ := List.mem_map.mp hs
        exact equationsOf_body_sitesOf body inner hi
  | .guard e ds body, site, hs => by
      rw [equationsOf_guard]
      exact equationsOf_body_sitesOf body site hs
  | .statement _, site, hs => absurd hs List.not_mem_nil

theorem equationsOf_body_sitesOf : ∀ (ns : List Node), ∀ site ∈ sitesOf ns,
    equationsOf site.body ⊆ equationsOf ns
  | [], site, hs => absurd hs List.not_mem_nil
  | n :: ns, site, hs => by
      rw [equationsOf_cons]
      rcases List.mem_append.mp hs with hs | hs
      · exact List.subset_append_of_subset_left _ (equationsOf_body_sites n site hs)
      · exact List.subset_append_of_subset_right _ (equationsOf_body_sitesOf ns site hs)

end

mutual

theorem outer_sites : ∀ (n : Node), ∀ site ∈ n.sites, site.outer ⊆ n.loops
  | .loop l body, site, hs => by
      rcases List.mem_cons.mp hs with rfl | hs
      · exact List.nil_subset _
      · obtain ⟨inner, hi, rfl⟩ := List.mem_map.mp hs
        exact List.cons_subset_cons l (outer_sitesOf body inner hi)
  | .guard _ _ body, site, hs => outer_sitesOf body site hs
  | .statement _, site, hs => absurd hs List.not_mem_nil

theorem outer_sitesOf : ∀ (ns : List Node), ∀ site ∈ sitesOf ns, site.outer ⊆ loopsOf ns
  | [], site, hs => absurd hs List.not_mem_nil
  | n :: ns, site, hs => by
      rcases List.mem_append.mp hs with hs | hs
      · exact List.subset_append_of_subset_left _ (outer_sites n site hs)
      · exact List.subset_append_of_subset_right _ (outer_sitesOf ns site hs)

end

end Node

end LoopNest
