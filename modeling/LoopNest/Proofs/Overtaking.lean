import Mathlib.Data.List.Induction
import LoopNest.Proofs.Clustering
/-!
# Which equations overtake others

Equations are placed in the order of declaration as far as edges allow, except that one which
continues the last signature, or stands under the last conditions, is drawn forward.  So in the
finished list each equation belongs with the one before it or is declared before all that come
after (`Cluster.order_inTurn`), and from that alone it follows what overtakes what: before an
equation declared earlier there comes only one that belongs with an equation declared earlier still
(`Cluster.InTurn.overtakes`).
-/

namespace LoopNest

/-- An equation with this signature may be drawn forward to come after one with the other. -/
def Signature.Follows (s last : Signature) : Prop :=
  s = last ∨ last.conditions ≠ [] ∧ s.conditions = last.conditions

instance (s last : Signature) : Decidable (s.Follows last) :=
  inferInstanceAs (Decidable (s = last ∨ last.conditions ≠ [] ∧ s.conditions = last.conditions))

theorem Signature.Follows.trans {r s last : Signature} (h : r.Follows s) (h' : s.Follows last) :
    r.Follows last := by
  rcases h with rfl | ⟨hne, heq⟩
  · exact h'
  · rcases h' with rfl | ⟨hne', heq'⟩
    · exact Or.inr ⟨hne, heq⟩
    · exact Or.inr ⟨hne', heq.trans heq'⟩

namespace Cluster

open Lowered

variable {g : DependenceGraph} {es : List Lowered}

/-- Each equation follows the one before it, or is declared before all that come after. -/
def InTurn : Option Lowered → List Lowered → Prop
  | _, [] => True
  | last, e :: rest =>
    ((∃ l ∈ last, e.signature.Follows l.signature) ∨ ∀ w ∈ rest, e.index < w.index) ∧
      InTurn (some e) rest

/-! ## The choice of the next equation -/

theorem prefer_cases {last : Option Signature} {ready : List Lowered} {e : Lowered}
    (h : prefer last ready = some e) :
    (∃ s ∈ last, e.signature.Follows s) ∨ ready.head? = some e := by
  rw [prefer] at h
  cases hc : ready.find? fun e => continues last e.signature with
  | some a =>
      rw [hc] at h
      cases h
      have hlast := List.find?_some hc
      simp only [continues, beq_iff_eq] at hlast
      exact Or.inl ⟨e.signature, hlast, Or.inl rfl⟩
  | none =>
      cases hs : ready.find? fun e => sameConditions last e.signature with
      | some a =>
          rw [hc, hs] at h
          cases h
          have hsame := List.find?_some hs
          cases last with
          | none => cases hsame
          | some l =>
              simp only [sameConditions, Bool.and_eq_true, Bool.not_eq_true',
                List.isEmpty_eq_false_iff, beq_iff_eq] at hsame
              exact Or.inl ⟨l, rfl, Or.inr ⟨hsame.1, hsame.2.symm⟩⟩
      | none =>
          rw [hc, hs] at h
          exact Or.inr h

/-- What is placed next follows the last, or is declared before all that go on waiting. -/
theorem Arranged.next?_cases {waiting placed : List Lowered} (h : Arranged g es waiting placed)
    (hn : Numbered es) (hf : Forward es.length g) {e : Lowered}
    (hnext : next? g waiting placed = some e) :
    (∃ l ∈ placed.getLast?, e.signature.Follows l.signature) ∨
      ∀ w ∈ waiting, w.index ≠ e.index → e.index < w.index := by
  rcases prefer_cases hnext with ⟨s, hs, hfollows⟩ | hhead
  · obtain ⟨l, hl, rfl⟩ := Option.map_eq_some_iff.mp hs
    exact Or.inl ⟨l, hl, hfollows⟩
  · obtain ⟨a, rest, rfl⟩ := List.exists_cons_of_ne_nil (List.ne_nil_of_mem (next?_eq_some hnext).1)
    have hready : isReady g (placed.map index) a.index = true := h.isReady_first hn hf
    rw [List.filter_cons, if_pos hready] at hhead
    cases hhead
    refine Or.inr fun w hw hne => ?_
    rcases List.mem_cons.mp hw with rfl | hw
    · exact absurd rfl hne
    · exact (List.pairwise_cons.mp h.ascending).1 w hw

theorem arrange_inTurn (hn : Numbered es) (hf : Forward es.length g) :
    ∀ {n : Nat} {waiting placed : List Lowered}, Arranged g es waiting placed →
      ∃ rest, arrange g n waiting placed = placed ++ rest ∧ rest ⊆ waiting ∧
        InTurn placed.getLast? rest
  | 0, waiting, placed, _ => ⟨[], (List.append_nil _).symm, List.nil_subset _, trivial⟩
  | n + 1, waiting, placed, h => by
      rw [arrange]
      cases hnext : next? g waiting placed with
      | some e =>
          obtain ⟨rest, heq, hsub, hturn⟩ := arrange_inTurn hn hf (n := n) (h.place hn hnext)
          rw [List.getLast?_concat] at hturn
          refine ⟨e :: rest, by simp only [heq, List.append_assoc, List.singleton_append],
            List.cons_subset.mpr ⟨(next?_eq_some hnext).1, fun w hw =>
              (List.mem_filter.mp (hsub hw)).1⟩, ?_, hturn⟩
          refine (h.next?_cases hn hf hnext).imp_right fun hfirst w hw => ?_
          obtain ⟨hw, hne⟩ := List.mem_filter.mp (hsub hw)
          exact hfirst w hw (bne_iff_ne.mp hne)
      | none =>
          have hw : waiting = [] := Decidable.byContradiction fun hw => by
            have := h.next?_isSome hn hf hw
            rw [hnext] at this
            cases this
          subst hw
          exact ⟨[], rfl, List.nil_subset _, trivial⟩

/-- The order in which equations are placed draws none forward without a reason. -/
theorem order_inTurn (hn : Numbered es) (hf : Forward es.length g) : InTurn none (order g es) := by
  obtain ⟨rest, heq, _, hturn⟩ := arrange_inTurn hn hf (n := es.length)
    (⟨List.Perm.refl _, hn.pairwise, by simp, List.Pairwise.nil⟩ : Arranged g es es [])
  rw [order, heq]
  exact hturn

/-! ## Overtaking -/

namespace InTurn

variable {a b l : Lowered} {after : List Lowered}

theorem drop : ∀ {last : Option Lowered} {before : List Lowered},
    InTurn last (before ++ l :: after) → InTurn (some l) after
  | _, [], h => h.2
  | _, _ :: _, h => h.2.drop

/-- An equation that comes before one declared earlier follows one declared earlier still. -/
theorem overtakes {before : List Lowered} (h : InTurn none (before ++ b :: after))
    (hn : ((before ++ b :: after).map index).Nodup) {w : Lowered} (hw : w ∈ after)
    (hlt : w.index < b.index) :
    ∃ k ∈ before, b.signature.Follows k.signature ∧ k.index < w.index := by
  -- From `b` the way goes back through equations that each follow the one before.
  induction before using List.reverseRecOn generalizing b after with
  | nil =>
      rcases h.1 with ⟨_, hl, _⟩ | hfirst
      · cases hl
      · have := hfirst w hw
        omega
  | append_singleton before l ih =>
      rw [List.append_assoc, List.singleton_append] at h hn
      rcases h.drop.1 with ⟨_, hl, hfollows⟩ | hfirst
      · cases hl
        rcases Nat.lt_trichotomy l.index w.index with hl | hl | hl
        · exact ⟨l, List.mem_append_right _ List.mem_cons_self, hfollows, hl⟩
        · rw [List.map_append, List.map_cons, List.nodup_append] at hn
          exact absurd (hl ▸ List.mem_map_of_mem (List.mem_cons_of_mem _ hw))
            (List.nodup_cons.mp hn.2.1).1
        · obtain ⟨k, hk, hkl, hlt⟩ := ih h hn (List.mem_cons_of_mem _ hw) hl
          exact ⟨k, List.mem_append_left _ hk, hfollows.trans hkl, hlt⟩
      · have := hfirst w hw
        omega

/-- From one equation to another all have a property, if those have it that follow one with the
property and those that are declared before the other. -/
theorem forall_between {P : Lowered → Prop} :
    ∀ {between : List Lowered} {b : Lowered}, InTurn (some b) (between ++ a :: after) → P b →
      (∀ l, P l → ∀ e ∈ between, e.signature.Follows l.signature → P e) →
      (∀ e ∈ between, e.index < a.index → P e) → ∀ e ∈ between, P e
  | [], _, _, _, _, _ => fun e he => absurd he List.not_mem_nil
  | e :: between, b, h, hb, hfollow, hbefore => by
      have he : P e := by
        rcases h.1 with ⟨_, hl, hfollows⟩ | hfirst
        · cases hl
          exact hfollow _ hb e List.mem_cons_self hfollows
        · exact hbefore e List.mem_cons_self
            (hfirst a (List.mem_append_right _ List.mem_cons_self))
      refine List.forall_mem_cons.mpr ⟨he, h.2.forall_between he ?_ ?_⟩
      · exact fun l hl e' he' => hfollow l hl e' (List.mem_cons_of_mem _ he')
      · exact fun e' he' => hbefore e' (List.mem_cons_of_mem _ he')

end InTurn

end Cluster

end LoopNest
