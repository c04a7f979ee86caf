import Mathlib.Data.Nat.Choose.Basic
import JoinOrder.Proofs.Bushy
import JoinOrder.Proofs.ExactCosts
import JoinOrder.Proofs.Refusal
import JoinOrder.Proofs.Turning

/-!
# What a search spends

Every candidate takes one id and asks once what a join costs. A *tallied* search counts these calls:
it has the same collaborators, except that the cost of a join is counted when it is asked for. A
step `Spends` as many ids as calls until the trees are assembled.

Each size of the list of remaining members is scanned at most once, so that the calls are no more
than the pairs of members (`Search.spending_of_solve`). The same sizes bound the two loops: any
bounds that cover the lists they go through lead to the same result (`Search.grow_congr`,
`Search.growAll_congr`).
-/

namespace JoinOrder

section Tallying
variable {ν σ α β : Type}

/-- The step, after that many calls have been counted. -/
def Estimating.tallied (calls : Nat) (x : Estimating ν σ α) : Estimating ν (σ × Nat) α :=
  Action.onPart (fun e => ⟨e.memo, e.env.1⟩) (fun e e' => e.watched (e'.env.2 + calls)) x

/-- The search, which counts how often it is asked for the cost of a join. -/
def Search.tallied (s : Search ν σ) : Search ν (σ × Nat) where
  estimator n inputs := Action.onPart Prod.fst (fun env e => (env, e.2)) (s.estimator n inputs)
  model := ⟨fun _ n => (s.model.base s.estimator n).tallied 0,
    fun _ n left right => (s.model.join s.estimator n left right).tallied 1⟩
  edges := s.edges

theorem Estimating.tallied_eq_ok {x : Estimating ν σ α} {e e' : Estimates ν σ} {r : α}
    (h : x e = .ok r e') (calls n : Nat) :
    x.tallied calls (e.watched n) = .ok r (e'.watched (n + calls)) :=
  Action.onPart_eq_ok.2 ⟨e', h, rfl⟩

/-- Estimates beside the same with a count. -/
def counted (n : Nat) : Correspondence Unit (Estimates ν σ) (Estimates ν (σ × Nat)) where
  holds _ e e' := e' = e.watched n
  fails _ _ _ _ := True

/-- Estimating a plan is not counted. -/
theorem Search.estimate_tallied {s : Search ν σ} {m : Node} {e e' : Estimates ν σ}
    {r : Statistics ν} (h : Estimating.estimate s.estimator m e = .ok r e') (n : Nat) :
    Estimating.estimate s.tallied.estimator m (e.watched n) = .ok r (e'.watched n) := by
  have hmemo : (counted (ν := ν) (σ := σ) n).SameMemo :=
    ⟨fun h => congrArg Estimates.memo h, fun c t h => by rw [h]; rfl⟩
  have hcall : ∀ k inputs, (counted (ν := ν) n).Relates () (Estimating.ofEnv (s.estimator k inputs))
      (Estimating.ofEnv (s.tallied.estimator k inputs)) fun _ t u => t = u := by
    rintro k inputs e _ rfl
    unfold Estimating.ofEnv Search.tallied Action.onPart Estimates.watched
    dsimp only
    cases s.estimator k inputs e.env with
    | ok t env => exact .ok (v := ()) trivial rfl rfl
    | error f env => exact .error (v := ()) trivial trivial
  have hend := hmemo.estimate (u := ()) hcall m e (e.watched n) rfl
  rw [h] at hend
  generalize Estimating.estimate s.tallied.estimator m (e.watched n) = y at hend ⊢
  cases hend with
  | ok _ h hr => rw [h, hr]

/-- Going from `a` to `b`, the step takes `count` ids and asks for the cost of `count` joins. -/
structure Spends (y : Planning ν (σ × Nat) α) (a : Session ν σ) (r : α) (b : Session ν σ)
    (count : Nat) : Prop where
  ids : b.supply = a.supply.advance count
  calls (n : Nat) : y (a.watched n) = .ok r (b.watched (n + count))

namespace Spends
variable {a b b' : Session ν σ} {r : α} {t : β} {c d : Nat}

theorem pure (a : Session ν σ) (r : α) : Spends (Pure.pure r) a r a 0 := ⟨rfl, fun _ => rfl⟩

theorem bind {y : Planning ν (σ × Nat) α} {k : α → Planning ν (σ × Nat) β}
    (h : Spends y a r b c) (h' : Spends (k r) b t b' d) : Spends (y >>= k) a t b' (c + d) := by
  refine ⟨?_, fun n => Action.bind_eq_ok.2 ⟨r, _, h.calls n, ?_⟩⟩
  · rw [h'.ids, h.ids, Supply.advance_advance]
  · rw [h'.calls, Nat.add_assoc]

end Spends

end Tallying

namespace Search
variable {ν σ : Type} {s : Search ν σ} {tree : Tree ν} {pending : List Expr} {a b : Session ν σ}

theorem spends_appraise {m : Node} {t : Tree ν} (h : s.appraise m a = .ok t b) :
    Spends (s.tallied.appraise m) a t b 0 := by
  unfold appraise Planning.estimating at h ⊢
  obtain ⟨e', hx, rfl⟩ := Action.onPart_eq_ok.1 h
  obtain ⟨_, e, hest, hx⟩ := Action.bind_eq_ok.1 hx
  obtain ⟨cost, _, hcost, hx⟩ := Action.bind_eq_ok.1 hx
  obtain ⟨rfl, rfl⟩ := Action.pure_eq_ok.1 hx
  refine ⟨rfl, fun n => Action.onPart_eq_ok.2 ⟨_, ?_, rfl⟩⟩
  refine Action.bind_eq_ok.2 ⟨_, _, estimate_tallied hest n, ?_⟩
  exact Action.bind_eq_ok.2 ⟨_, _, Estimating.tallied_eq_ok hcost 0 n, rfl⟩

theorem spends_appraiseAll {members : List Node} {trees : List (Tree ν)}
    (h : members.mapM s.appraise a = .ok trees b) :
    Spends (members.mapM s.tallied.appraise) a trees b 0 := by
  induction members generalizing a trees with
  | nil =>
    obtain ⟨rfl, rfl⟩ := Action.pure_eq_ok.1 h
    exact .pure a _
  | cons m ms ih =>
    rw [List.mapM_cons] at h ⊢
    obtain ⟨t, u, ht, h⟩ := Action.bind_eq_ok.1 h
    obtain ⟨ts, v, hts, h⟩ := Action.bind_eq_ok.1 h
    obtain ⟨rfl, rfl⟩ := Action.pure_eq_ok.1 h
    refine Spends.bind (d := 0) (spends_appraise ht) ?_
    exact Spends.bind (d := 0) (ih hts) (.pure _ _)

/-- Asking for the cost of a join makes no node. -/
theorem joinCost_tallied {join : Node} {l r : Tree ν} {cost : ν}
    (h : s.joinCost join l r a = .ok cost b) : b.supply = a.supply ∧
      ∀ n, s.tallied.joinCost join l r (a.watched n) = .ok cost (b.watched (n + 1)) := by
  unfold joinCost Planning.estimating at h ⊢
  obtain ⟨e', hx, rfl⟩ := Action.onPart_eq_ok.1 h
  obtain ⟨_, e, hest, hx⟩ := Action.bind_eq_ok.1 hx
  refine ⟨rfl, fun n => Action.onPart_eq_ok.2 ⟨_, ?_, rfl⟩⟩
  exact Action.bind_eq_ok.2 ⟨_, _, estimate_tallied hest n, Estimating.tallied_eq_ok hx 1 n⟩

theorem spends_candidate? {i : Nat} {m : Tree ν} {found : Option (Candidate ν)}
    (h : s.candidate? tree pending i m a = .ok found b) :
    Spends (s.tallied.candidate? tree pending i m) a found b found.toList.length := by
  by_cases hc : connecting s.edges tree.plan m.plan = []
  · rw [candidate?_of_nil hc] at h
    rw [candidate?_of_nil (s := s.tallied) hc]
    obtain ⟨rfl, rfl⟩ := Action.pure_eq_ok.1 h
    exact .pure a _
  · rw [candidate?_of_ne_nil hc] at h
    rw [candidate?_of_ne_nil (s := s.tallied) hc]
    obtain ⟨join, u, hj, h⟩ := Action.bind_eq_ok.1 h
    rw [Planning.newJoin_eq] at hj
    cases hj
    obtain ⟨cost, v, hcost, h⟩ := Action.bind_eq_ok.1 h
    obtain ⟨rfl, rfl⟩ := Action.pure_eq_ok.1 h
    obtain ⟨hsupply, htallied⟩ := joinCost_tallied hcost
    refine ⟨hsupply, fun n => Action.bind_eq_ok.2 ⟨_, _, Planning.newJoin_eq .., ?_⟩⟩
    exact Action.bind_eq_ok.2 ⟨cost, _, htallied n, rfl⟩

/-- Each candidate is one new node and one call. -/
theorem spends_candidates {i : Nat} {rest : List (Tree ν)} {cs : List (Candidate ν)}
    (h : s.candidates tree pending i rest a = .ok cs b) :
    Spends (s.tallied.candidates tree pending i rest) a cs b cs.length := by
  induction rest generalizing i cs a with
  | nil =>
    obtain ⟨rfl, rfl⟩ := Action.pure_eq_ok.1 h
    exact .pure a _
  | cons m rest ih =>
    unfold candidates at h ⊢
    obtain ⟨found, u, hf, h⟩ := Action.bind_eq_ok.1 h
    obtain ⟨others, v, ho, h⟩ := Action.bind_eq_ok.1 h
    obtain ⟨rfl, rfl⟩ := Action.pure_eq_ok.1 h
    rw [List.length_append]
    refine Spends.bind (spends_candidate? hf) ?_
    exact Spends.bind (d := 0) (ih ho) (.pure _ _)

theorem length_candidates_le {i : Nat} {rest : List (Tree ν)} {cs : List (Candidate ν)}
    (h : s.candidates tree pending i rest a = .ok cs b) : cs.length ≤ rest.length := by
  have hle : (connectedFrom s.edges tree.plan i rest).length ≤ (rest.zipIdx i).length :=
    List.length_filter_le ..
  rwa [(candidates_spec h).length_eq, List.length_zipIdx] at hle

theorem choose_two_succ (n : Nat) : (n + 1).choose 2 = n + n.choose 2 := by
  rw [Nat.choose_succ_succ, Nat.choose_one_right]

variable [CostScale ν] {g g' : Growth ν}

/-- The members that remain are scanned again only if there is one less of them. So what has been
spent, with what scans of smaller lists may still spend, never exceeds the budget. -/
theorem spends_grow {k : Nat} (h : s.grow k g a = .ok g' b) :
    ∃ count, Spends (s.tallied.grow k g) a g' b count ∧
      count + g'.remaining.length.choose 2 ≤ (g.remaining.length + 1).choose 2 ∧
      g.remaining.length ≤ g'.remaining.length + count := by
  induction k generalizing g a with
  | zero =>
    obtain ⟨rfl, rfl⟩ := Action.pure_eq_ok.1 h
    refine ⟨0, .pure a _, ?_, le_rfl⟩
    rw [choose_two_succ]
    omega
  | succ k ih =>
    unfold grow at h ⊢
    obtain ⟨cs, u, hcs, h⟩ := Action.bind_eq_ok.1 h
    have hspends := spends_candidates hcs
    have hscan := length_candidates_le hcs
    cases hc : cheapest? cs with
    | none =>
      rw [hc] at h
      obtain ⟨rfl, rfl⟩ := Action.pure_eq_ok.1 h
      refine ⟨cs.length, hspends.bind (d := 0) ?_, ?_, Nat.le_add_right ..⟩
      · rw [hc]
        exact .pure _ _
      · rw [choose_two_succ]
        omega
    | some c =>
      rw [hc] at h
      have hlen := length_commit hcs hc
      -- the candidate that is chosen has cost an id at least
      have hpos := List.length_pos_of_mem (mem_of_cheapestBelow hc)
      obtain ⟨count, hgrow, hmost, hleast⟩ := ih h
      refine ⟨cs.length + count, hspends.bind ?_, ?_, ?_⟩
      · rw [hc]
        exact hgrow
      · rw [hlen] at hmost
        rw [choose_two_succ]
        omega
      · omega

theorem spends_growAll {k : Nat} {trees : List (Tree ν)} {plans : List Node} {left : List Expr}
    (h : s.growAll k trees pending a = .ok (plans, left) b) (hk : trees.length ≤ k) :
    ∃ count, Spends (s.tallied.growAll k trees pending) a (plans, left) b count ∧
      count ≤ trees.length.choose 2 ∧ trees.length ≤ count + plans.length := by
  induction k generalizing trees pending a plans with
  | zero =>
    rw [List.length_eq_zero_iff.1 (Nat.le_zero.1 hk)] at h ⊢
    obtain ⟨h, rfl⟩ := Action.pure_eq_ok.1 h
    cases h
    exact ⟨0, .pure a _, le_rfl, le_rfl⟩
  | succ k ih =>
    cases trees with
    | nil =>
      obtain ⟨h, rfl⟩ := Action.pure_eq_ok.1 h
      cases h
      exact ⟨0, .pure a _, le_rfl, le_rfl⟩
    | cons seed others =>
      unfold growAll at h ⊢
      obtain ⟨g', u, hg, h⟩ := Action.bind_eq_ok.1 h
      obtain ⟨⟨plans', left'⟩, v, hrest, h⟩ := Action.bind_eq_ok.1 h
      obtain ⟨h, rfl⟩ := Action.pure_eq_ok.1 h
      cases h
      rw [List.length_cons] at hk ⊢
      obtain ⟨c, hgrow, hmost, hleast⟩ := spends_grow hg
      have hlen := length_grow hg
      dsimp only at hlen hmost hleast
      obtain ⟨c', hall, hmost', hleast'⟩ := ih hrest (by omega)
      refine ⟨c + c', hgrow.bind (hall.bind (d := 0) (.pure _ _)), ?_, ?_⟩
      · omega
      · rw [List.length_cons]
        omega

/-- The loop that grows a tree ends by itself: any two bounds that cover the remaining members lead
to the same result. -/
theorem grow_congr {j k : Nat} (hj : g.remaining.length ≤ j) (hk : g.remaining.length ≤ k) :
    s.grow j g = s.grow k g := by
  have hnone : ∀ (g : Growth ν) k, g.remaining = [] → s.grow k g = pure g := by
    intro g k hr
    cases k with
    | zero => rfl
    | succ k =>
      rw [grow, hr]
      rfl
  induction j generalizing g k with
  | zero =>
    have hr := List.length_eq_zero_iff.1 (Nat.le_zero.1 hj)
    rw [hnone g 0 hr, hnone g k hr]
  | succ j ih =>
    cases k with
    | zero =>
      have hr := List.length_eq_zero_iff.1 (Nat.le_zero.1 hk)
      rw [hnone g 0 hr, hnone g _ hr]
    | succ k =>
      funext a
      unfold grow
      refine Action.bind_congr rfl fun cs b hcs => ?_
      cases hc : cheapest? cs with
      | none => rfl
      | some c =>
        have hlen := length_commit hcs hc
        exact congrFun (ih (by omega) (by omega)) b

theorem growAll_congr {j k : Nat} {trees : List (Tree ν)} (hj : trees.length ≤ j)
    (hk : trees.length ≤ k) : s.growAll j trees pending = s.growAll k trees pending := by
  induction j generalizing k trees pending with
  | zero =>
    rw [List.length_eq_zero_iff.1 (Nat.le_zero.1 hj)]
    cases k <;> rfl
  | succ j ih =>
    match trees, k with
    | [], k => cases k <;> rfl
    | seed :: others, k + 1 =>
      funext a
      unfold growAll
      refine Action.bind_congr rfl fun g b hg => ?_
      have hlen := length_grow hg
      rw [List.length_cons] at hj hk
      dsimp only at hlen
      rw [ih (k := k) (by omega) (by omega)]

/-- From a group of `n` members, a search that succeeds asks for the cost of at most `n (n - 1) / 2`
joins. Beside these it takes ids for the joins that assemble the trees. Neither loop of the growth
needs the bound that it is given, whether it succeeds or not. -/
theorem spending_of_solve (s : Search ν σ) :
    (∀ (members : List Node) (residuals : List Expr) (a b : Session ν σ) (found : Option Solution),
      members ≠ [] → s.solve members residuals a = .ok found b →
      ∃ (calls : Nat) (trees order : List (Tree ν)) (plans : List Node) (left : List Expr)
        (u v : Session ν σ),
        s.tallied.solve members residuals (a.watched 0) = .ok found (b.watched calls) ∧
        calls ≤ members.length * (members.length - 1) / 2 ∧
        members.mapM s.appraise a = .ok trees u ∧ ranked trees = some order ∧
        s.growAll trees.length order residuals u = .ok (plans, left) v ∧
        Assembly.assemble plans left v.supply = (found, b.supply) ∧
        b.supply = a.supply.advance (calls + (plans.length - 1)) ∧
        a.supply.nextId + (members.length - 1) ≤ b.supply.nextId ∧
        b.supply.nextId ≤
          a.supply.nextId + (members.length * (members.length - 1) / 2 + (plans.length - 1))) ∧
    (∀ (g : Growth ν) (j k : Nat), g.remaining.length ≤ j → g.remaining.length ≤ k →
      s.grow j g = s.grow k g) ∧
    ∀ (trees : List (Tree ν)) (pending : List Expr) (j k : Nat), trees.length ≤ j →
      trees.length ≤ k → s.growAll j trees pending = s.growAll k trees pending := by
  refine ⟨?_, fun _ _ _ => grow_congr, fun _ _ _ _ => growAll_congr⟩
  intro members residuals a b found hne h
  unfold solve at h
  obtain ⟨trees, u, htrees, h⟩ := Action.bind_eq_ok.1 h
  obtain ⟨order, _, hr, h⟩ := Action.bind_eq_ok.1 h
  obtain ⟨horder, rfl⟩ := ranking_eq_ok.1 hr
  obtain ⟨⟨plans, left⟩, v, hg, h⟩ := Action.bind_eq_ok.1 h
  unfold Planning.build at h
  obtain ⟨w, hassemble, rfl⟩ := Action.onPart_eq_ok.1 h
  have hperm := ranked_perm horder
  have hlen : order.length = members.length := by
    rw [hperm.length_eq, ← map_plan_of_appraise htrees, List.length_map]
  have hpos := List.length_pos_iff.2 hne
  have happraised := spends_appraiseAll htrees
  obtain ⟨calls, hgrown, hmost, hleast⟩ := spends_growAll hg hperm.length_eq.le
  rw [hlen, Nat.choose_two_right] at hmost
  have hw := Action.ofState_eq_ok.1 hassemble
  have hsupply : w = a.supply.advance (calls + (plans.length - 1)) := by
    have hu : u.supply = a.supply := happraised.ids
    rw [← Supply.advance_advance, ← hu, ← hgrown.ids, ← Assembly.supply_assemble plans left, hw]
  have htallied : s.tallied.solve members residuals (a.watched 0) =
      .ok found (Session.watched { v with supply := w } calls) := by
    have hcalls := hgrown.calls 0
    rw [Nat.zero_add] at hcalls
    refine Action.bind_eq_ok.2 ⟨trees, u.watched 0, happraised.calls 0, ?_⟩
    refine Action.bind_eq_ok.2 ⟨order, u.watched 0, ranking_eq_ok.2 ⟨horder, rfl⟩, ?_⟩
    refine Action.bind_eq_ok.2 ⟨(plans, left), v.watched calls, hcalls, ?_⟩
    exact Action.onPart_eq_ok.2 ⟨w, hassemble, rfl⟩
  have hids : w.nextId = a.supply.nextId + (calls + (plans.length - 1)) := by
    rw [hsupply]
    rfl
  refine ⟨calls, trees, order, plans, left, u, v, htallied, hmost, htrees, horder, hg, hw, hsupply,
    ?_, ?_⟩
  · simp only [hids]
    omega
  · simp only [hids]
    omega

/-- Of the six pairs of tables, three are weighed. -/
theorem spending_of_solve_fourTables : ∃ (found : Option Solution) (b : Session ℕ Unit)
    (plans : List Node),
    triangle.solve fourTables [] (.unused 4) = .ok found b ∧
    triangle.tallied.solve fourTables [] (Session.watched (.unused 4) 0) =
      .ok found (b.watched 3) ∧
    3 ≤ fourTables.length * (fourTables.length - 1) / 2 ∧ 7 ≤ b.supply.nextId ∧
    b.supply.nextId ≤ 4 + (6 + (plans.length - 1)) ∧
    ∀ g, triangle.grow (g.remaining.length + 1) g = triangle.grow g.remaining.length g := by
  obtain ⟨found, b, h⟩ := Action.exists_of_result? (x := triangle.solve fourTables [])
    (a := .unused 4) (by decide +kernel)
  obtain ⟨hsolve, hgrow, -⟩ := triangle.spending_of_solve
  obtain ⟨calls, _, _, plans, _, _, _, hcalls, hmost, -, -, -, -, -, hleast, hids⟩ :=
    hsolve _ _ _ _ _ (by decide) h
  have hcount : (match triangle.tallied.solve fourTables [] (Session.watched (.unused 4) 0) with
      | .ok _ d => d.estimates.env.2
      | .error _ _ => 0) = 3 := by
    decide +kernel
  rw [hcalls] at hcount
  obtain rfl : calls = 3 := hcount
  exact ⟨found, b, plans, h, hcalls, hmost, hleast, hids, fun g => hgrow g _ _ (by omega) le_rfl⟩

end Search

end JoinOrder
