import JoinOrder.Proofs.Run

/-!
# Turned edges

Between members that share no columns it does not matter which way an edge is turned: it connects
the same plans, and stands in their join turned in the same way. So a search does exactly the same
with turned edges (`Search.solve_turned`).
-/

namespace JoinOrder

/-- What comes after a step matters only where the step succeeds. -/
theorem Action.bind_congr {σ α β : Type} {x y : Action σ α} {k l : α → Action σ β} {a : σ}
    (hxy : x a = y a) (h : ∀ r b, y a = .ok r b → k r b = l r b) : (x >>= k) a = (y >>= l) a := by
  change EStateM.bind x k a = EStateM.bind y l a
  unfold EStateM.bind
  rw [hxy]
  cases hy : y a with
  | ok r b => exact h r b hy
  | error f b => rfl

theorem connecting_turned {E E' : List Edge} (h : E'.map Edge.ends = E.map Edge.ends) {l r : Node}
    (hap : l.Apart r) : connecting E' l r = connecting E l r := by
  induction E' generalizing E with
  | nil => rw [List.map_eq_nil_iff.1 h.symm]
  | cons e' E' ih =>
    cases E with
    | nil => cases h
    | cons e E =>
      rw [List.map_cons, List.map_cons, List.cons.injEq] at h
      have htail := ih h.2
      unfold connecting at htail ⊢
      rw [List.filterMap_cons, List.filterMap_cons, Edge.orient?_of_ends hap h.1, htail]

theorem Node.apart_join {tag : Tag} {j : Join} {l r n : Node} (hl : l.Apart n) (hr : r.Apart n) :
    (join tag j l r).Apart n := by
  intro c hc hn
  rw [produces_join, Bool.or_eq_true] at hc
  exact hc.elim (fun h => hl c h hn) fun h => hr c h hn

/-- No two trees of the growth share a column. -/
def Growth.Apart {ν : Type} (g : Growth ν) : Prop :=
  (g.tree :: g.remaining).Pairwise fun t u => t.plan.Apart u.plan

namespace Search
variable {ν σ : Type} {s : Search ν σ} {E' : List Edge}

theorem candidates_turned (hE : E'.map Edge.ends = s.edges.map Edge.ends) {tree : Tree ν}
    {rest : List (Tree ν)} (hap : ∀ m ∈ rest, tree.plan.Apart m.plan) (pending : List Expr)
    (i : Nat) : Search.candidates { s with edges := E' } tree pending i rest =
      s.candidates tree pending i rest := by
  induction rest generalizing i with
  | nil => rfl
  | cons m rest ih =>
    obtain ⟨hm, hrest⟩ := List.forall_mem_cons.1 hap
    have hfound : Search.candidate? { s with edges := E' } tree pending i m =
        s.candidate? tree pending i m := by
      unfold candidate?
      dsimp only
      rw [connecting_turned hE hm]
      rfl
    rw [candidates, candidates, hfound, ih hrest]

variable [CostScale ν]

theorem apart_commit {g : Growth ν} {a b : Session ν σ} {cs : List (Candidate ν)} {c : Candidate ν}
    (hg : g.Apart) (h : s.candidates g.tree g.pending 0 g.remaining a = .ok cs b)
    (hc : cheapest? cs = some c) : (g.commit c).Apart := by
  obtain ⟨m, hm, -, -, ⟨tag, hplan⟩, -, -⟩ := joins_of_cheapest? h hc
  obtain ⟨hi, hget⟩ := List.getElem?_eq_some_iff.1 hm
  have hperm := perm_commit hm
  obtain ⟨htree, hrest⟩ := List.pairwise_cons.1 hg
  have hsymm : ∀ {t u : Tree ν}, t.plan.Apart u.plan → u.plan.Apart t.plan := fun h => h.symm
  obtain ⟨hmember, hothers⟩ := List.pairwise_cons.1 (hrest.perm hperm.symm hsymm)
  refine List.pairwise_cons.2 ⟨fun u hu => ?_, hothers⟩
  change c.tree.plan.Apart u.plan
  rw [hplan]
  exact Node.apart_join (htree u (hperm.subset (List.mem_cons_of_mem _ hu))) (hmember u hu)

theorem grow_turned (hE : E'.map Edge.ends = s.edges.map Edge.ends) (k : Nat) {g : Growth ν}
    (hg : g.Apart) (a : Session ν σ) :
    Search.grow { s with edges := E' } k g a = s.grow k g a := by
  induction k generalizing g a with
  | zero => rfl
  | succ k ih =>
    have hcs := candidates_turned hE (List.pairwise_cons.1 hg).1 g.pending 0
    refine Action.bind_congr (congrFun hcs a) fun cs b hcs => ?_
    cases hc : cheapest? cs with
    | none => rfl
    | some c => exact ih (apart_commit hg hcs hc) b

theorem sublist_remaining_of_grow {k : Nat} {g g' : Growth ν} {a b : Session ν σ}
    (h : s.grow k g a = .ok g' b) : g'.remaining.Sublist g.remaining := by
  induction k generalizing g a with
  | zero =>
    obtain ⟨rfl, -⟩ := Action.pure_eq_ok.1 h
    exact .refl _
  | succ k ih =>
    unfold grow at h
    obtain ⟨cs, u, -, h⟩ := Action.bind_eq_ok.1 h
    cases hc : cheapest? cs with
    | none =>
      rw [hc] at h
      obtain ⟨rfl, -⟩ := Action.pure_eq_ok.1 h
      exact .refl _
    | some c =>
      rw [hc] at h
      exact (ih h).trans (List.eraseIdx_sublist ..)

theorem growAll_turned (hE : E'.map Edge.ends = s.edges.map Edge.ends) (k : Nat)
    {trees : List (Tree ν)} (ht : trees.Pairwise fun t u => t.plan.Apart u.plan)
    (pending : List Expr) (a : Session ν σ) :
    Search.growAll { s with edges := E' } k trees pending a = s.growAll k trees pending a := by
  induction k generalizing trees pending a with
  | zero => rfl
  | succ k ih =>
    cases trees with
    | nil => rfl
    | cons seed rest =>
      have hseed : (⟨seed, rest, pending⟩ : Growth ν).Apart := ht
      refine Action.bind_congr (grow_turned hE rest.length hseed a) fun g b hg => ?_
      have hrest := (List.pairwise_cons.1 ht).2.sublist (sublist_remaining_of_grow hg)
      exact Action.bind_congr (ih hrest g.pending b) fun _ _ _ => rfl

/-- A search does the same whichever way its edges are turned. -/
theorem solve_turned (hE : E'.map Edge.ends = s.edges.map Edge.ends) {members : List Node}
    (hap : members.Pairwise Node.Apart) (residuals : List Expr) :
    Search.solve { s with edges := E' } members residuals = s.solve members residuals := by
  funext a
  refine Action.bind_congr rfl fun trees b htrees => ?_
  have hplans : (trees.map Tree.plan).Pairwise Node.Apart := by
    rw [map_plan_of_appraise htrees]
    exact hap
  refine Action.bind_congr rfl fun order c horder => ?_
  have hranked := (List.pairwise_map.1 hplans).perm
    (ranked_perm (ranking_eq_ok.1 horder).1).symm fun h => h.symm
  exact Action.bind_congr (growAll_turned hE trees.length hranked residuals c) fun _ _ _ => rfl

end Search

end JoinOrder
