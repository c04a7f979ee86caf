import JoinOrder.Proofs.ConditionCount
import JoinOrder.Proofs.ExactCosts
import JoinOrder.Proofs.Totality

/-!
# Edges that touch more than two members

A plan that is not sparse gets more conditions if only the costs are chosen for it. They are chosen
for an edge that touches more than two members: the search begins with a member that has its left
end, and then joins one that has its right end. With both ends in the tree, every further member that
has one of them is joined on the edge again.

So the condition on plans under which no costs repeat a condition is exactly that they are sparse
(`Reorder.conditionCount_repeated`).
-/

namespace JoinOrder

theorem Edge.exists_between {e : Edge} {members ns : List Node} {x : Node}
    (hc : e.connects members = true) (hp : members.Perm (x :: ns)) (hx : x.produces e.left = true) :
    ∃ n ∈ ns, e.between x n = true := by
  obtain ⟨_, k, rest, hp', -, hk⟩ := exists_perm_of_connects hc
  have hk' : k ∈ x :: ns := hp.subset (hp'.symm.subset (by simp))
  rcases List.mem_cons.1 hk' with rfl | hkn
  · have htwo := two_le_countP_touches hc
    have hone : (if e.touches k = true then 1 else 0) ≤ 1 := by split <;> omega
    rw [hp.countP_eq, List.countP_cons] at htwo
    obtain ⟨n, hn, ht⟩ := List.countP_pos_iff.1 (by omega : 0 < ns.countP e.touches)
    refine ⟨n, hn, ?_⟩
    rw [between, hx, hk, Bool.true_and, Bool.and_true, Bool.or_comm]
    exact ht
  · refine ⟨k, hkn, ?_⟩
    rw [between, hx, hk, Bool.true_and, Bool.true_or]

theorem eq_or_of_append_singleton {α : Type} {as rest : List α} {a x y : α} (hne : as ≠ [])
    (h : as ++ [a] = x :: y :: rest) : as = [x] ∨ ∃ bs, as = x :: y :: bs := by
  match as with
  | [] => exact absurd rfl hne
  | [z] =>
    obtain ⟨rfl, -⟩ := List.cons.inj h
    exact .inl rfl
  | z :: w :: as =>
    obtain ⟨rfl, h'⟩ := List.cons.inj h
    obtain ⟨rfl, -⟩ := List.cons.inj h'
    exact .inr ⟨as, rfl⟩

namespace JoinTree
variable {E : List Edge} {t u : JoinTree} {ts : List JoinTree} {members : List Node} {e : Edge}

/-- A tree that begins with the two ends of an edge uses the edge for every further leaf that the
edge touches. -/
theorem Grown.countP_touches_le (h : t.Grown E) {x y : Node} {rest : List Node}
    (ht : t.leaves = x :: y :: rest) (hx : x.produces e.left = true)
    (hy : x.produces e.right = true ∨ y.produces e.right = true) :
    t.leaves.countP e.touches ≤ t.uses e + 1 := by
  induction h generalizing rest with
  | leaf n => cases ht
  | @join l m rs tag hl hne _ ih =>
    have hsplit : l.leaves ++ [m] = x :: y :: rest := ht
    have hlx : x ∈ l.leaves ∧ l.leaves.countP e.touches ≤ l.uses e + 1 := by
      rcases eq_or_of_append_singleton l.leaves_ne_nil hsplit with hls | ⟨ls, hls⟩
      · rw [hls]
        exact ⟨List.mem_cons_self .., List.countP_le_length.trans (Nat.le_add_left ..)⟩
      · exact ⟨by rw [hls]; exact List.mem_cons_self .., ih hls⟩
    obtain ⟨hlx, hcount⟩ := hlx
    -- the tree so far has the left end, and with the new leaf both: if the leaf has one, it is used
    rw [leaves, leaves, List.countP_append, List.countP_singleton, uses]
    by_cases hm : e.touches m = true
    · have hl : e.touches l.plan = true := by
        have hl : l.plan.produces e.left = true := produces_plan_iff.2 ⟨x, hlx, hx⟩
        rw [Edge.touches, hl, Bool.true_or]
      have hw : e.within (JoinTree.join tag (connecting E l.plan m) rs l (.leaf m)).plan = true := by
        refine Bool.and_eq_true_iff.2 ⟨produces_plan_iff.2 ⟨x, by rw [ht]; simp, hx⟩, ?_⟩
        rcases hy with hy | hy
        · exact produces_plan_iff.2 ⟨x, by rw [ht]; simp, hy⟩
        · exact produces_plan_iff.2 ⟨y, by rw [ht]; simp, hy⟩
      have hb : e.between l.plan m = true := Edge.between_of_within hw hl hm
      simp only [plan, hb, List.isEmpty_eq_false_iff.2 hne, if_pos hm, Bool.not_false, Bool.and_self,
        Bool.toNat_true]
      omega
    · rw [if_neg hm]
      omega

theorem Built.length_edges (h : t.Built E) : t.edges.length = (E.map (t.uses ·)).sum := by
  have := h.map_ends_edges.length_eq
  simpa [List.length_flatMap] using this

theorem Built.le_length_edges (h : t.Built E) (hall : ∀ f ∈ E, 0 < t.uses f) :
    E.length ≤ t.edges.length ∧ (∀ e ∈ E, 2 ≤ t.uses e → E.length < t.edges.length) := by
  rw [h.length_edges]
  clear h
  induction E with
  | nil => simp
  | cons f E ih =>
    rw [List.forall_mem_cons] at hall
    obtain ⟨hle, hlt⟩ := ih hall.2
    rw [List.map_cons, List.sum_cons, List.length_cons, List.forall_mem_cons]
    refine ⟨by omega, fun h => by omega, fun e he h => ?_⟩
    have := hlt e he h
    omega

end JoinTree

/-- Two costs that tell the plans that put out a column from the others. -/
def CostModel.columnCost {ν : Type} (low high : ν) (c : Column) (n : Node) : ν :=
  if n.produces c then low else high

/-- Costs by which a search begins with the left end of an edge, and goes on with the right end. -/
def CostModel.eager {ν σ : Type} (low high : ν) (e : Edge) : CostModel ν σ :=
  ⟨fun _ n => pure (columnCost low high e.left n), fun _ n _ _ => pure (columnCost low high e.right n)⟩

namespace Search
variable {ν σ : Type} {s : Search ν σ} {a b : Session ν σ}

theorem Runs.members [CostScale ν] {g : Growth ν} {d : Session ν σ} {plans : List Node}
    {left : List Expr} (h : s.Runs g a plans left d) :
    ∃ p ps rest, plans = p :: ps ∧ p.members = g.tree.plan.members ++ rest := by
  induction h with
  | @join g a b d cs c plans left hcs hc _ ih =>
    obtain ⟨m, -, -, hj⟩ := joins_of_cheapest? hcs hc
    obtain ⟨tag, hplan⟩ := hj.plan
    obtain ⟨p, ps, rest, hp, hmem⟩ := ih
    rw [Growth.commit, hplan, Node.members, Join.attaching, Join.isInner_inner, if_pos rfl,
      List.append_assoc] at hmem
    exact ⟨p, ps, m.plan.members ++ rest, hp, hmem⟩
  | close => exact ⟨_, _, [], rfl, (List.append_nil _).symm⟩
  | finish => exact ⟨_, _, [], rfl, (List.append_nil _).symm⟩

section Eager
open CostScale CostModel
variable [CostScale ν] [LawfulCosts ν] {low high : ν} (hlow : Below low) (hhigh : Below high)
  (hlt : less low high = true)
include hlow hhigh hlt

omit hlt [LawfulCosts ν] in
theorem below_columnCost (c : Column) (n : Node) : Below (columnCost low high c n) := by
  unfold columnCost
  split
  · exact hlow
  · exact hhigh

omit hlow hhigh [LawfulCosts ν] in
theorem less_columnCost {c : Column} {m n : Node} (hm : m.produces c = true)
    (hn : n.produces c = false) :
    less (columnCost low high c m) (columnCost low high c n) = true := by
  rw [columnCost, columnCost, if_pos hm, if_neg (by rw [hn]; exact Bool.false_ne_true)]
  exact hlt

theorem produces_of_ranked {c : Column} {trees others : List (Tree ν)} {seed : Tree ν}
    (hcost : ∀ t ∈ trees, t.cost = columnCost low high c t.plan)
    (hex : ∃ t ∈ trees, t.plan.produces c = true) (h : ranked trees = some (seed :: others)) :
    seed.plan.produces c = true := by
  have hbelow : AllBelow trees := fun t ht => by
    rw [hcost t ht]
    exact below_columnCost hlow hhigh c t.plan
  have hperm := ranked_perm h
  have hasc := ascending_sorted hbelow
  rw [Option.some.inj ((ranked_of_allBelow hbelow).symm.trans h)] at hasc
  obtain ⟨t, ht, hc⟩ := hex
  rcases List.mem_cons.1 (hperm.symm.subset ht) with rfl | hto
  · exact hc
  · by_contra hseed
    have hless := less_columnCost hlt hc (Bool.eq_false_iff.2 hseed)
    rw [← hcost t ht, ← hcost seed (hperm.subset (List.mem_cons_self ..))] at hless
    exact Bool.false_ne_true (((List.pairwise_cons.1 hasc).1 t hto).symm.trans hless)

theorem produces_of_cheapest? {c : Column} {cs : List (Candidate ν)} {k : Candidate ν}
    (hcost : ∀ d ∈ cs, d.tree.cost = columnCost low high c d.tree.plan)
    (hex : ∃ d ∈ cs, d.tree.plan.produces c = true) (h : cheapest? cs = some k) :
    k.tree.plan.produces c = true := by
  have hbelow : ∀ d ∈ cs, Below d.tree.cost := fun d hd => by
    rw [hcost d hd]
    exact below_columnCost hlow hhigh c d.tree.plan
  have hk := hcost k (mem_of_cheapestBelow h)
  obtain ⟨pre, post, rfl, hpre, hpost⟩ := (cheapest?_eq_some_iff hbelow).1 h
  obtain ⟨d, hd, hc⟩ := hex
  by_contra hnot
  have hless := less_columnCost hlt hc (Bool.eq_false_iff.2 hnot)
  rw [← hcost d hd, ← hk] at hless
  rcases List.mem_append.1 hd with hd | hd
  · exact Bool.false_ne_true ((AsymmetricCosts.asymm _ _ (hpre d hd)).symm.trans hless)
  · rcases List.mem_cons.1 hd with rfl | hd
    · exact hnot hc
    · exact Bool.false_ne_true ((hpost d hd).symm.trans hless)

variable {e : Edge} (hmodel : s.model = .eager low high e)
include hmodel

omit hlow hhigh hlt [LawfulCosts ν] [CostScale ν] in
theorem cost_of_candidates {tree : Tree ν} {pending : List Expr} {i : Nat} {rest : List (Tree ν)}
    {cs : List (Candidate ν)} (h : s.candidates tree pending i rest a = .ok cs b) :
    ∀ c ∈ cs, c.tree.cost = columnCost low high e.right c.tree.plan := by
  intro c hc
  obtain ⟨m, -, hj⟩ := exists_of_mem_right (candidates_spec h) hc
  obtain ⟨_, _, hcost⟩ := hj.cost
  rw [hmodel] at hcost
  exact (Action.pure_eq_ok.1 hcost).1.symm

omit hlt [LawfulCosts ν] in
theorem smooth_of_eager (members : List Node) (residuals : List Expr) (a : Session ν σ) :
    s.Smooth members residuals a := by
  refine smooth_of_less (fun n l r _ c _ h => ?_) members residuals a
  rw [hmodel] at h
  rw [← (Action.pure_eq_ok.1 h).1]
  exact below_columnCost hlow hhigh e.right n

/-- A run that begins with the left end of the edge goes on with the right end. -/
theorem Runs.starts {seed m : Tree ν} {others : List (Tree ν)} {pending left : List Expr}
    {plans : List Node} {d : Session ν σ} (h : s.Runs ⟨seed, others, pending⟩ a plans left d)
    (he : e ∈ s.edges) (hm : m ∈ others) (hb : e.between seed.plan m.plan = true)
    (hinner : ∀ t ∈ seed :: others, t.plan.isInnerJoin = false) :
    ∃ p ps y rest, plans = p :: ps ∧ p.members = seed.plan :: y :: rest ∧
      (seed.plan.produces e.right = true ∨ y.produces e.right = true) := by
  rw [List.forall_mem_cons] at hinner
  have hcandidate : ∀ {cs u}, s.candidates seed pending 0 others a = .ok cs u →
      ∃ c ∈ cs, c.tree.plan.produces e.right = true := by
    intro cs u hcs
    obtain ⟨i, hi⟩ := List.mem_iff_getElem?.1 hm
    have hconn : connecting s.edges seed.plan m.plan ≠ [] := fun hnil => by
      rw [connecting_eq_nil.1 hnil e he] at hb
      cases hb
    have hmem : (m, i) ∈ connectedFrom s.edges seed.plan 0 others := mem_connectedFrom.2 ⟨hi, hconn⟩
    obtain ⟨c, hc, hj⟩ := exists_of_mem_left (candidates_spec hcs) hmem
    obtain ⟨tag, hplan⟩ := hj.plan
    refine ⟨c, hc, ?_⟩
    rw [hplan, Node.produces_join]
    unfold Edge.between at hb
    rcases Bool.or_eq_true_iff.1 hb with h | h
    · rw [(Bool.and_eq_true_iff.1 h).2, Bool.or_true]
    · rw [(Bool.and_eq_true_iff.1 h).2, Bool.true_or]
  -- all costs are below the ceiling, so that there is a choice
  have hnone : ∀ {cs u}, s.candidates seed pending 0 others a = .ok cs u → cheapest? cs ≠ none := by
    intro cs u hcs hc
    obtain ⟨c, hmem, -⟩ := hcandidate hcs
    have hbelow : ∀ d ∈ cs, Below d.tree.cost := fun d hd => by
      rw [cost_of_candidates hmodel hcs d hd]
      exact below_columnCost hlow hhigh e.right d.tree.plan
    rw [(cheapest?_eq_none_iff hbelow).1 hc] at hmem
    cases hmem
  cases h with
  | close hcs hc => exact absurd hc (hnone hcs)
  | finish hcs hc => exact absurd hc (hnone hcs)
  | @join _ _ u _ cs c _ _ hcs hc hrest =>
    have hright := produces_of_cheapest? hlow hhigh hlt (cost_of_candidates hmodel hcs)
      (hcandidate hcs) hc
    obtain ⟨y, hy, -, hj⟩ := joins_of_cheapest? hcs hc
    obtain ⟨tag, hplan⟩ := hj.plan
    obtain ⟨p, ps, rest, hp, hmem⟩ := hrest.members
    rw [hplan, Node.produces_join, Bool.or_eq_true] at hright
    rw [Growth.commit, hplan, Node.members, Join.attaching, Join.isInner_inner, if_pos rfl,
      Node.members_of_not_inner hinner.1,
      Node.members_of_not_inner (hinner.2 y (List.mem_of_getElem? hy))] at hmem
    exact ⟨p, ps, y.plan, rest, hp, hmem, hright⟩

/-- A search that is eager for an edge attaches all edges, and more if the edge touches more than two
members. -/
theorem length_edges_of_solve {members : List Node} {residuals : List Expr}
    {found : Option Solution} (hne : members ≠ [])
    (hinner : ∀ m ∈ members, m.isInnerJoin = false)
    (hconn : ∀ f ∈ s.edges, f.connects members = true)
    (h : s.solve members residuals a = .ok found b) :
    ∃ t left, found = some ⟨JoinTree.plan t, left⟩ ∧ Forest s.edges members residuals [t] left ∧
      s.edges.length ≤ t.edges.length ∧
      (e ∈ s.edges → 2 < members.countP e.touches → s.edges.length < t.edges.length) := by
  obtain ⟨ts, t, left, rfl, hf, hleaves, hgrown, huses, hsmooth, trees, seed, others, u, pending, v,
    htrees, hranked, hrun⟩ := forest_of_solve hne h
  have hpair := hsmooth.1 (smooth_of_eager hlow hhigh hmodel members residuals a)
  have hall : ∀ f ∈ s.edges, 0 < t.uses f := fun f hf => by
    rw [huses]
    exact JoinTree.sum_uses_pos hleaves hpair hgrown hf (hconn f hf)
  obtain ⟨hle, hlt'⟩ := (hf.built t (by simp)).le_length_edges hall
  refine ⟨t, left, rfl, hf, hle, fun he hcrowd => hlt' e he ?_⟩
  -- the tree that takes all members with an end of the edge is the first one
  have hplans := map_plan_of_appraise htrees
  have hperm : members.Perm (seed.plan :: others.map Tree.plan) := by
    rw [← hplans, ← List.map_cons]
    exact ((ranked_perm hranked).map _).symm
  have hseed : seed.plan.produces e.left = true := by
    refine produces_of_ranked hlow hhigh hlt (fun t ht => ?_) ?_ hranked
    · obtain ⟨_, _, hbase⟩ := base_of_mem_appraise htrees t ht
      rw [hmodel] at hbase
      exact (Action.pure_eq_ok.1 hbase).1.symm
    · obtain ⟨m, _, rest, hp, hm, -⟩ := Edge.exists_perm_of_connects (hconn e he)
      have hmem : m ∈ trees.map Tree.plan := by
        rw [hplans]
        exact hp.symm.subset (List.mem_cons_self ..)
      obtain ⟨t, ht, rfl⟩ := List.mem_map.1 hmem
      exact ⟨t, ht, hm⟩
  obtain ⟨n, hn, hb⟩ := Edge.exists_between (hconn e he) hperm hseed
  obtain ⟨m, hm, rfl⟩ := List.mem_map.1 hn
  have hinner' : ∀ t ∈ seed :: others, t.plan.isInnerJoin = false := fun t ht =>
    hinner t.plan (hperm.symm.subset (List.mem_map_of_mem (f := Tree.plan) ht))
  obtain ⟨p, ps, y, rest, hts, hmem, hy⟩ := hrun.starts hlow hhigh hlt hmodel he hm hb hinner'
  obtain ⟨w, ws, rfl, rfl, -⟩ := List.map_eq_cons_iff.1 hts
  have hwleaves : ∀ m ∈ w.leaves, m.isInnerJoin = false := fun m hm =>
    hinner m (hleaves.subset (List.mem_flatMap.2 ⟨w, List.mem_cons_self .., hm⟩))
  rw [JoinTree.members_plan hwleaves] at hmem
  have hcount := (hgrown w (List.mem_cons_self ..)).countP_touches_le hmem hseed hy
  have hwleft : w.plan.produces e.left = true :=
    JoinTree.produces_plan_iff.2 ⟨seed.plan, by rw [hmem]; exact List.mem_cons_self .., hseed⟩
  rw [JoinTree.countP_touches_of_unconnected hleaves hpair he (hconn e he) hwleft] at hcount
  rw [huses, List.map_cons, List.sum_cons]
  omega

end Eager

end Search

theorem Node.exists_crowded {config : Config} {n : Node} (h : ¬ n.Sparse config) :
    ∃ g ∈ n.groups, config.admits g.members.length = true ∧
      ∃ e ∈ (JoinGroup.ofPlan g).edges, 2 < g.members.countP e.touches := by
  unfold Sparse at h
  push Not at h
  exact h

namespace Reorder
variable {ν σ : Type} [CostScale ν]

/-- The plan `q` stands for `n` and has no fewer conditions. -/
structure NoFewerConditions (n q : Node) : Prop where
  stands : q.StandsFor n
  count : n.conditionCount ≤ q.conditionCount

theorem sum_conditionCount_ge {ns ms : List Node} (h : List.Forall₂ NoFewerConditions ns ms) :
    (ns.map Node.conditionCount).sum ≤ (ms.map Node.conditionCount).sum := by
  induction h with
  | nil => exact le_rfl
  | cons hm _ ih =>
    have := hm.count
    simp only [List.map_cons, List.sum_cons]
    omega

section Eager
open CostScale
variable [LawfulCosts ν] {low high : ν} (hlow : Below low) (hhigh : Below high)
  (hlt : less low high = true)
include hlow hhigh hlt

/-- Joining a group anew, by costs that are eager for an edge, gives no fewer conditions, and more if
the edge is one of the group and touches more than two members. -/
theorem conditionCount_of_joined {config : Config} {e : Edge} {estimator : Estimator ν σ} {n q : Node}
    {ms : List Node} {a b : Session ν σ} {s : Solution}
    (hms : List.Forall₂ NoFewerConditions n.members ms)
    (hs : Search.solve ⟨estimator, .eager low high e, (JoinGroup.ofPlan n).edges⟩ ms
      (JoinGroup.ofPlan n).residuals a = .ok (some s) b)
    (hq : Dresses config n s q) : n.SameColumns q ∧ n.conditionCount ≤ q.conditionCount ∧
      (e ∈ (JoinGroup.ofPlan n).edges → 2 < n.members.countP e.touches →
        n.conditionCount < q.conditionCount) := by
  have hsame : List.Forall₂ Node.SameColumns n.members ms := hms.imp fun _ _ h => h.stands.produces
  have hinner := not_inner_of_standsFor (hms.imp fun _ _ h => h.stands)
  obtain ⟨t, left, hfound, hf, hle, hmore⟩ := Search.length_edges_of_solve hlow hhigh hlt rfl
    (ne_nil_of_members hms) hinner (connects_of_mem_ofPlan hsame) hs
  cases hfound
  have hl : t.leaves.Perm ms := by simpa using hf.leaves
  have hres := hf.residuals.length_eq
  have hsum := (hl.map Node.conditionCount).sum_eq
  have hgroup := JoinGroup.length_ofPlan n
  have hbelow := sum_conditionCount_ge hms
  rw [List.flatMap_singleton, List.length_append] at hres
  rw [countP_touches_congr hsame, hq.conditionCount, t.conditionCount_plan, n.conditionCount_eq]
  simp only at hle hres hmore ⊢
  refine ⟨hq.produces (JoinTree.sameColumns_plan hl hsame), by omega, fun he htouch => ?_⟩
  have := hmore he htouch
  omega

theorem noFewerConditions (estimator : Estimator ν σ) (config : Config) (e : Edge) :
    Invariant ⟨estimator, .eager low high e, config⟩ False NoFewerConditions where
  refl n := ⟨.refl n, le_rfl⟩
  unary tag tag' op h := by
    refine ⟨h.stands.unary .., ?_⟩
    have := h.count
    simp only [Node.conditionCount]
    omega
  outer tag tag' _ hl hr := by
    refine ⟨hl.stands.join hr.stands .., ?_⟩
    have := hl.count
    have := hr.count
    simp only [Node.conditionCount]
    omega
  kept hn ha h := by
    refine ⟨.of_inner hn (h.sameColumns fun _ _ h => h.stands.produces), ?_⟩
    clear hn ha
    induction h with
    | member _ hR => exact hR.count
    | join _ _ _ ihl ihr =>
      simp only [Node.conditionCount]
      omega
  joined hn _ hms hs _ hq := by
    obtain ⟨hcols, hcount, -⟩ := conditionCount_of_joined hlow hhigh hlt hms hs hq
    exact ⟨.of_inner hn hcols, hcount⟩

omit hlt in
/-- The costs are below the ceiling, so that they compare. -/
theorem not_panics_of_eager (config : Config) (e : Edge) (estimator : Estimator ν σ) (n : Node) :
    ¬ Panics ⟨estimator, .eager low high e, config⟩ n := by
  rintro ⟨g, -, -, ms, -, h⟩
  obtain ⟨-, m, -, n, -, c, d, _, _, _, _, hc, hd, hnone⟩ := h.incomparable
  have hc : Below c := by
    rw [← (Action.pure_eq_ok.1 hc).1]
    exact Search.below_columnCost hlow hhigh e.left m
  have hd : Below d := by
    rw [← (Action.pure_eq_ok.1 hd).1]
    exact Search.below_columnCost hlow hhigh e.left n
  have hsome := LawfulCosts.comparable c d hc hd
  rw [hnone] at hsome
  cases hsome

theorem conditionCount_lt_of_eager {config : Config} {e : Edge} {estimator : Estimator ν σ}
    {n q : Node} {a b : Session ν σ} (hn : n.isInnerJoin = true)
    (ha : config.admits n.members.length = true) (he : e ∈ (JoinGroup.ofPlan n).edges)
    (htouch : 2 < n.members.countP e.touches)
    (h : rewrite ⟨estimator, .eager low high e, config⟩ n a = .ok q b) :
    n.conditionCount < q.conditionCount := by
  obtain ⟨ms, u, hms, hq⟩ := Action.bind_eq_ok.1 h
  have hms := (noFewerConditions hlow hhigh hlt estimator config e).rewriteMembers False.elim hms
  obtain ⟨s, v, hs, hd⟩ := of_settle_admitted hn (by rwa [← hms.length_eq]) (ne_nil_of_members hms) hq
  exact (conditionCount_of_joined hlow hhigh hlt hms hs hd).2.2 he htouch

end Eager

open CostScale in
/-- However often a sparse plan is reordered, and by whatever costs, it never gets more conditions.
Only sparse plans are like that: if a plan is not sparse, then one of its groups gets more conditions
when it is reordered once by certain costs, and these may be made of any two costs that differ. -/
theorem conditionCount_repeated {config : Config} {n : Node} :
    (n.Sparse config → ∀ (context : Context ν σ), context.config = config →
      ∀ k a q b, repeated context k n a = .ok q b → q.conditionCount ≤ n.conditionCount) ∧
    (n.WellFormed → ¬ n.Sparse config → LawfulCosts ν → ∃ g ∈ n.groups, ∃ e : Edge,
      ∀ (estimator : Estimator ν σ) (low high : ν), (∀ m inputs, Action.Total (estimator m inputs)) →
        Below low → Below high → less low high = true → ∀ a, ∃ q b,
          rewrite ⟨estimator, .eager low high e, config⟩ g a = .ok q b ∧
            g.conditionCount < q.conditionCount) := by
  constructor
  · rintro hn context rfl k a q b h
    exact conditionCount_le_of_sparse hn h
  · intro hw hn _
    obtain ⟨g, hg, ha, e, he, htouch⟩ := Node.exists_crowded hn
    refine ⟨g, hg, e, fun estimator low high hestimator hlow hhigh hlt a => ?_⟩
    have hrel : Context.Reliable ⟨estimator, .eager low high e, config⟩ :=
      ⟨hestimator, fun _ => .pure _, fun _ _ _ => .pure _⟩
    have hpanic := not_panics_of_eager hlow hhigh config e estimator g
    obtain ⟨hi, hgw⟩ := Node.of_mem_groups (P := Node.WellFormed) (fun h => h.2) (fun h => h) hw hg
    obtain ⟨q, b, hq⟩ := total_rewrite hrel hpanic hgw a
    exact ⟨q, b, hq, conditionCount_lt_of_eager hlow hhigh hlt hi ha he htouch hq⟩

/-- The first of two joined tables, taken once more without a condition. -/
def tableTwice : Node := .join ⟨4, 4⟩ .cross .twoTables (.scan ⟨3, 3⟩ (.ofNames "a" ["x"] none))

theorem conditionCount_repeated_twoTables :
    (∃ q b, repeated (.constant 1) 3 .twoTables (.unused 3) = .ok q b ∧
      q.conditionCount ≤ Node.twoTables.conditionCount) ∧
    ∃ g ∈ tableTwice.groups, ∃ e q b,
      rewrite ⟨.constant (.ofRows 10), .eager 1 2 e, {}⟩ g (.unused 5) = .ok q b ∧
        g.conditionCount < q.conditionCount := by
  have hsparse : Node.twoTables.Sparse (Context.constant 1).config := by decide
  have hcrowded : ¬ tableTwice.Sparse {} := by decide
  have hwell : tableTwice.WellFormed := ⟨⟨trivial, trivial⟩, trivial⟩
  have hrun : ((repeated (.constant 1) 3 .twoTables).result? (.unused 3)).isSome = true := by
    decide +kernel
  obtain ⟨q, b, hq⟩ := Action.exists_of_result? hrun
  obtain ⟨g, hg, e, hall⟩ := (@conditionCount_repeated ℕ Unit _ _ _).2 hwell hcrowded inferInstance
  obtain ⟨q', b', hq', hlt⟩ := hall (.constant (.ofRows 10)) 1 2 (fun _ _ => .pure _) rfl rfl rfl
    (.unused 5)
  exact ⟨⟨q, b, hq, conditionCount_repeated.1 hsparse (.constant 1) rfl 3 _ q b hq⟩,
    g, hg, e, q', b', hq', hlt⟩

/-- A plan that is not sparse may get more conditions each time that it is reordered. -/
theorem conditionCount_repeated_tableTwice : tableTwice.conditionCount = 1 ∧
    ((repeated (.constant 1) 3 tableTwice).result? (.unused 5)).map Node.conditionCount = some 8 := by
  decide +kernel

end Reorder

end JoinOrder
