import JoinOrder.Proofs.Journal

/-!
# Forests

In a forest of join trees over the members of a group, every join carries all edges between its
inputs or none, and every residual condition is attached to one join or pending. A search ends with
such a forest of a single tree (`Search.forest_of_solve`), and it is smooth if and only if no two of
the trees that it has grown are connected (`Search.smooth_iff_pairwise`). A search that weighs no
join at or above the ceiling is smooth (`Search.Affordable.smooth`).
-/

namespace JoinOrder

/-- The trees `ts` over `members`, with what is pending of the given conditions. -/
structure Forest (E : List Edge) (members : List Node) (conditions : List Expr)
    (ts : List JoinTree) (pending : List Expr) : Prop where
  built : ∀ t ∈ ts, t.Built E
  leaves : (ts.flatMap JoinTree.leaves).Perm members
  residuals : (ts.flatMap JoinTree.residuals ++ pending).Perm conditions
  pending : pending = conditions.filter fun e => !ts.any (·.covers e)

section Growing
variable {ν σ : Type} [CostScale ν] {s : Search ν σ} {g : Growth ν} {a d : Session ν σ}
  {plans : List Node} {left : List Expr}

namespace Search

theorem Runs.produces (h : s.Runs g a plans left d) (c : Column) :
    (∃ p ∈ plans, p.produces c = true) ↔
      g.tree.plan.produces c = true ∨ ∃ m ∈ g.remaining, m.plan.produces c = true := by
  induction h with
  | @join g a b d cs k plans left hcs hk _ ih =>
    obtain ⟨m, hm, -, hj⟩ := joins_of_cheapest? hcs hk
    obtain ⟨tag, hp⟩ := hj.plan
    rw [ih, Growth.commit, hp, Node.produces_join, Bool.or_eq_true, or_assoc]
    refine or_congr_right ?_
    constructor
    · rintro (h | ⟨n, hn, h⟩)
      · exact ⟨m, List.mem_of_getElem? hm, h⟩
      · exact ⟨n, (perm_commit hm).subset (List.mem_cons_of_mem _ hn), h⟩
    · rintro ⟨n, hn, h⟩
      rcases List.mem_cons.1 ((perm_commit hm).symm.subset hn) with rfl | hn
      · exact .inl h
      · exact .inr ⟨n, hn, h⟩
  | close _ _ hr _ ih =>
    rw [hr, List.exists_mem_cons_iff, ih, List.exists_mem_cons_iff]
  | finish _ _ hr =>
    rw [hr]
    simp

/-- A run does not stall if and only if no two of the trees it ends with are connected. -/
theorem Runs.unhindered_iff (h : s.Runs g a plans left d) :
    s.Unhindered (g, a) ↔ plans.Pairwise (connecting s.edges · · = []) := by
  induction h with
  | join hcs hk _ ih => rw [unhindered_of_join hcs hk, ih]
  | @close g a b d cs seed others plans left hcs hk hr hrest ih =>
    rw [unhindered_of_close hcs hk hr, List.pairwise_cons, ih]
    refine and_congr_left' ?_
    have hprod := hrest.produces
    rw [← List.forall_mem_map (f := Tree.plan) (P := fun n => connecting s.edges g.tree.plan n = []),
      hr]
    refine forall_connecting_eq_nil fun c => ?_
    rw [hprod]
    simp
  | finish hcs hk hr => exact iff_of_true (unhindered_of_finish hcs hk hr) (List.pairwise_singleton ..)

end Search

end Growing

namespace Assembly

theorem pairUp_cons (l r : Node) (rest : List Node) (pending : List Expr) (a : Supply) :
    pairUp (l :: r :: rest) pending a =
      let join := Node.join ⟨a.nextId, a.nextCell⟩ (.attaching [] pending l r) l r
      let others := pairUp rest (pendingAbove pending l r) ⟨a.nextId + 1, a.nextCell + 1⟩
      ((join :: others.1.1, others.1.2), others.2) := rfl

theorem rounds_succ (k : Nat) (l r : Node) (rest : List Node) (pending : List Expr) (a : Supply) :
    rounds (k + 1) (l :: r :: rest) pending a =
      let paired := pairUp (l :: r :: rest) pending a
      rounds k paired.1.1 paired.1.2 paired.2 := rfl

end Assembly

section Solving
variable {ν σ : Type} [CostScale ν] {s : Search ν σ} {members : List Node} {residuals : List Expr}
  {a b : Session ν σ}

namespace Search

/-- No moment of the search for an order of the members stalls. -/
def Smooth (s : Search ν σ) (members : List Node) (residuals : List Expr) (a : Session ν σ) : Prop :=
  ∀ trees seed others b, members.mapM s.appraise a = .ok trees b →
    ranked trees = some (seed :: others) →
    s.Unhindered (⟨seed, others, residuals⟩, b)

/-- Every join that the search for an order of the members weighs costs less than the ceiling. -/
def Affordable (s : Search ν σ) (members : List Node) (residuals : List Expr) (a : Session ν σ) :
    Prop :=
  ∀ trees seed others b, members.mapM s.appraise a = .ok trees b →
    ranked trees = some (seed :: others) →
    ∀ m, Relation.ReflTransGen s.Next (⟨seed, others, residuals⟩, b) m →
      ∀ cs d, s.candidates m.1.tree m.1.pending 0 m.1.remaining m.2 = .ok cs d →
        ∀ c ∈ cs, CostScale.less c.tree.cost CostScale.ceiling = true

theorem Affordable.smooth (h : s.Affordable members residuals a) :
    s.Smooth members residuals a := by
  intro trees seed others b htrees hr m hm ⟨cs, d, hcs, hne, hall⟩
  obtain ⟨c, hc⟩ := List.exists_mem_of_ne_nil cs hne
  have hless := h trees seed others b htrees hr m hm cs d hcs c hc
  exact absurd hless (Bool.eq_false_iff.1 (hall c hc))

theorem affordable_of_less (h : ∀ n l r e c e', s.model.join s.estimator n l r e = .ok c e' →
      CostScale.less c CostScale.ceiling = true) (members : List Node) (residuals : List Expr)
    (a : Session ν σ) : s.Affordable members residuals a := by
  intro _ _ _ _ _ _ m _ cs d hcs c hc
  obtain ⟨_, -, hj⟩ := exists_of_mem_right (candidates_spec hcs) hc
  obtain ⟨e, e', hcost⟩ := hj.cost
  exact h _ _ _ _ _ _ hcost

/-- The trees of a group that is not empty are grown in a run. -/
theorem exists_runs {trees order : List (Tree ν)} {plans : List Node} {pending : List Expr}
    {u v : Session ν σ} (hne : members ≠ []) (htrees : members.mapM s.appraise a = .ok trees u)
    (hr : ranked trees = some order)
    (hgrow : s.growAll trees.length order residuals u = .ok (plans, pending) v) :
    ∃ seed others, order = seed :: others ∧
      s.Runs ⟨seed, others, residuals⟩ u plans pending v := by
  have hlen := (ranked_perm hr).length_eq
  cases order with
  | nil =>
    have hnil : trees = [] := List.length_eq_zero_iff.1 hlen.symm
    rw [← map_plan_of_appraise htrees, hnil] at hne
    exact absurd rfl hne
  | cons seed others =>
    rw [List.length_cons] at hlen
    exact ⟨seed, others, rfl, runs_of_growAll hgrow (by omega)⟩

/-- A search is smooth if and only if no two of the trees that it grows are connected. -/
theorem smooth_iff_pairwise {trees : List (Tree ν)} {plans : List Node} {pending : List Expr}
    {u v : Session ν σ} {seed : Tree ν} {others : List (Tree ν)}
    (htrees : members.mapM s.appraise a = .ok trees u) (hr : ranked trees = some (seed :: others))
    (hrun : s.Runs ⟨seed, others, residuals⟩ u plans pending v) :
    s.Smooth members residuals a ↔ plans.Pairwise (connecting s.edges · · = []) := by
  rw [← hrun.unhindered_iff]
  constructor
  · exact fun hs => hs _ _ _ _ htrees hr
  · intro hu trees' seed' others' b' htrees' hr'
    rw [htrees] at htrees'
    cases htrees'
    rw [hr] at hr'
    cases hr'
    exact hu

/-- What a search finds is a single tree over all members. It was assembled from the trees that its
run ends with. These have grown leaf by leaf, and the search is smooth if and only if no two of them
are connected. -/
theorem forest_of_solve {found : Option Solution} (hne : members ≠ [])
    (h : s.solve members residuals a = .ok found b) :
    ∃ (ts : List JoinTree) (t : JoinTree) (left : List Expr), found = some ⟨t.plan, left⟩ ∧
      Forest s.edges members residuals [t] left ∧
      (ts.flatMap JoinTree.leaves).Perm members ∧ (∀ u ∈ ts, u.Grown s.edges) ∧
      (∀ e, t.uses e = (ts.map (·.uses e)).sum) ∧
      (s.Smooth members residuals a ↔
        ts.Pairwise fun t u => connecting s.edges t.plan u.plan = []) ∧
      ∃ trees seed others u pending v, members.mapM s.appraise a = .ok trees u ∧
        ranked trees = some (seed :: others) ∧
        s.Runs ⟨seed, others, residuals⟩ u (ts.map JoinTree.plan) pending v := by
  obtain ⟨t, left, Js, rfl, hleaves, hgrown, -, hjs, hcom, trees, u, order, pending, v, htrees, hr,
    hgrow⟩ := journal_of_solve hne h
  have hcovers : ∀ J ∈ t.joints, ∀ e ∈ J.residuals, J.plan.covers e = true := fun J hJ e he =>
    hcom.covers_of_mem (hjs.mem_iff.2 hJ) he
  have hforest : Forest s.edges members residuals [t] left := by
    refine ⟨?_, ?_, ?_, ?_⟩
    · exact List.forall_mem_singleton.2 (JoinTree.built_of_cut hgrown hcovers)
    · rwa [List.flatMap_singleton]
    · rw [List.flatMap_singleton, t.residuals_eq_flatMap]
      exact ((hjs.symm.flatMap_right _).append_right left).trans hcom.residuals_perm
    · rw [hcom.left_eq]
      refine List.filter_congr fun e _ => ?_
      rw [List.any_cons, List.any_nil, Bool.or_false, t.covers_eq_any, hjs.any_eq]
  obtain ⟨seed, others, rfl, hrun⟩ := exists_runs hne htrees hr hgrow
  have hsmooth := smooth_iff_pairwise htrees hr hrun
  rw [List.pairwise_map] at hsmooth
  exact ⟨t.cut, t, left, rfl, hforest, t.leaves_cut ▸ hleaves, hgrown,
    fun e => (t.sum_uses_cut e).symm, hsmooth, trees, seed, others, u, pending, v, htrees, hr, hrun⟩

end Search

end Solving

end JoinOrder
