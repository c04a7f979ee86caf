import JoinOrder.Proofs.ExactCosts
import JoinOrder.Proofs.Oracles
import JoinOrder.Proofs.Replay

/-!
# Searches that follow prices

Collaborators are *structural* if they never fail and go by the structure of a plan alone: an
estimate is derived from the operator and the estimates of the inputs, and costs are prices. With
such collaborators a search gives, up to tags, what the search with these prices gives
(`Structural.solve`). What is remembered plays no part, as long as it agrees.
-/

namespace JoinOrder

section Estimating
variable {ν σ : Type} {derive : Node → List (Statistics ν) → Statistics ν} {h : Heap}
  {e : Estimates ν σ} {n : Node}

/-- The step succeeds with this result, and the estimates still agree. -/
def Appraises {α : Type} (derive : Node → List (Statistics ν) → Statistics ν) (h : Heap)
    (x : Estimating ν σ α) (r : α) : Prop :=
  ∀ e : Estimates ν σ, e.Agrees derive h → ∃ e', x e = .ok r e' ∧ e'.Agrees derive h

theorem derived?_ok (derive : Node → List (Statistics ν) → Statistics ν) (n : Node) :
    derived? (fun n inputs => .ok (derive n inputs)) n = .ok (derived derive n) := by
  induction n with
  | scan => rfl
  | unary tag op i ih =>
    rw [derived?, ih]
    rfl
  | join tag j l r ihl ihr =>
    rw [derived?, ihl, ihr]
    rfl

theorem agrees_iff_accords :
    e.Agrees derive h ↔ e.Accords (fun n inputs => .ok (derive n inputs)) h := by
  have hcell : ∀ n (s : Statistics ν), s = derived derive n ↔
      derived? (fun n inputs => .ok (derive n inputs)) n = .ok s := fun n s => by
    rw [derived?_ok, Except.ok.injEq, eq_comm]
  constructor
  · exact fun ha => ⟨ha.size, fun c n s hn hs => (hcell n s).1 (ha.memo c n s hn hs)⟩
  · exact fun ha => ⟨ha.size, fun c n s hn hs => (hcell n s).2 (ha.memo c n s hn hs)⟩

theorem appraises_iff_answers {α : Type} {x : Estimating ν σ α} {r : α} :
    Appraises derive h x r ↔
      Answers (Estimates.Accords (fun n inputs => .ok (derive n inputs)) h) x (.ok r) := by
  unfold Appraises Answers
  simp only [agrees_iff_accords]
  exact Iff.rfl

theorem Appraises.pure {α : Type} (r : α) : Appraises (σ := σ) derive h (Pure.pure r) r :=
  appraises_iff_answers.2 (.pure r)

theorem Appraises.bind {α β : Type} {x : Estimating ν σ α} {k : α → Estimating ν σ β} {r : α} {c : β}
    (hx : Appraises derive h x r) (hk : Appraises derive h (k r) c) :
    Appraises derive h (x >>= k) c := by
  rw [appraises_iff_answers] at hx hk ⊢
  have hbind : Answers (Estimates.Accords (fun n inputs => .ok (derive n inputs)) h) (x >>= k)
      (Except.ok r >>= fun _ => Except.ok c) := hx.bind fun s hs => by
    cases hs
    exact hk
  exact hbind

theorem appraises_estimate {estimator : Estimator ν σ}
    (hest : ∀ n inputs env, ∃ env', estimator n inputs env = .ok (derive n.bare inputs) env')
    (hn : h.Holds n) :
    Appraises derive h (Estimating.estimate estimator n) (derived derive n.bare) := by
  rw [appraises_iff_answers, ← derived?_ok]
  exact answers_estimate hest hn

theorem appraises_rows {estimator : Estimator ν σ}
    (hest : ∀ n inputs env, ∃ env', estimator n inputs env = .ok (derive n.bare inputs) env')
    (hn : h.Holds n) :
    Appraises derive h (CostModel.rows estimator n) (derived derive n.bare).rows :=
  (appraises_estimate hest hn).bind (.pure _)

end Estimating

/-- The estimator and the cost model never fail, and go by the structure of plans alone. -/
structure Structural {ν σ : Type} (estimator : Estimator ν σ) (model : CostModel ν σ)
    (derive : Node → List (Statistics ν) → Statistics ν) (p : Pricing ν) : Prop where
  estimate : ∀ n inputs env, ∃ env', estimator n inputs env = .ok (derive n.bare inputs) env'
  base : ∀ (h : Heap) n, h.Holds n → Appraises derive h (model.base estimator n) (p.base n.bare)
  join : ∀ (h : Heap) n l r, h.Holds n →
    Appraises derive h (model.join estimator n l r) (p.join n.bare l r)

/-- The oracle that never fails. -/
def Oracle.certain {ν : Type} (derive : Node → List (Statistics ν) → Statistics ν) (p : Pricing ν) :
    Oracle ν where
  estimate n inputs := .ok (derive n inputs)
  base n := .ok (p.base n)
  join n left right := .ok (p.join n left right)

/-- Structural collaborators are those that are governed and never fail. -/
theorem structural_iff_governs {ν σ : Type} {estimator : Estimator ν σ} {model : CostModel ν σ}
    {derive : Node → List (Statistics ν) → Statistics ν} {p : Pricing ν} :
    Structural estimator model derive p ↔ (Oracle.certain derive p).Governs estimator model := by
  constructor
  · exact fun h => ⟨h.estimate, fun k n hn => appraises_iff_answers.1 (h.base k n hn),
      fun k n l r hn => appraises_iff_answers.1 (h.join k n l r hn)⟩
  · exact fun h => ⟨h.estimate, fun k n hn => appraises_iff_answers.2 (h.base k n hn),
      fun k n l r hn => appraises_iff_answers.2 (h.join k n l r hn)⟩

theorem structural_constant {ν σ : Type} (s : Statistics ν) (member join : ν) :
    Structural (.constant s : Estimator ν σ) (.constant member join) (fun _ _ => s)
      ⟨fun _ => member, fun _ _ _ => join⟩ where
  estimate _ _ env := ⟨env, rfl⟩
  base _ _ _ := .pure member
  join _ _ _ _ _ := .pure join

section Cumulative
variable {ν σ : Type} [Quantity ν]

/-- The derived rows of all operators of a plan. -/
def derivedRows (derive : Node → List (Statistics ν) → Statistics ν) : Node → ν
  | .scan tag s => (derived derive (.scan tag s)).rows
  | .unary tag op input => (derived derive (.unary tag op input)).rows + derivedRows derive input
  | .join tag j left right => (derived derive (.join tag j left right)).rows +
      derivedRows derive left + derivedRows derive right

/-- The standard cost model is structural if the estimator is. -/
theorem structural_cumulative {estimator : Estimator ν σ}
    {derive : Node → List (Statistics ν) → Statistics ν}
    (hest : ∀ n inputs env, ∃ env', estimator n inputs env = .ok (derive n.bare inputs) env') :
    Structural estimator .cumulative derive
      ⟨derivedRows derive, fun n left right => (derived derive n).rows + left + right⟩ where
  estimate := hest
  base h n hn := by
    induction n with
    | scan => exact appraises_rows hest hn
    | unary tag op i ih =>
      exact (appraises_rows hest hn).bind ((ih (Heap.holds_unary.1 hn).2).bind (.pure _))
    | join tag j l r ihl ihr =>
      obtain ⟨-, hl, hr⟩ := Heap.holds_join.1 hn
      exact (appraises_rows hest hn).bind ((ihl hl).bind ((ihr hr).bind (.pure _)))
  join h n _ _ hn := (appraises_rows hest hn).bind (.pure _)

end Cumulative

section Bare
variable {ν : Type}

/-- The tree with its tags blank. -/
def Tree.bare (t : Tree ν) : Tree ν := ⟨t.plan.bare, t.cost⟩

/-- The candidate with all tags blank. -/
def Candidate.bare (c : Candidate ν) : Candidate ν := ⟨c.position, c.tree.bare, c.pending⟩

/-- The growth with all tags blank. -/
def Growth.bare (g : Growth ν) : Growth ν := ⟨g.tree.bare, g.remaining.map Tree.bare, g.pending⟩

theorem Growth.bare_commit (g : Growth ν) (c : Candidate ν) :
    (g.commit c).bare = g.bare.commit c.bare := by
  unfold commit bare Candidate.bare
  simp only [List.eraseIdx_map]

theorem Pricing.candidate_bare (p : Pricing ν) (E : List Edge) (t m : Tree ν) (pending : List Expr)
    (i : Nat) : p.candidate E t.bare pending i m.bare =
      let n := .join .blank (.attaching (connecting E t.plan m.plan) pending t.plan m.plan)
        t.plan.bare m.plan.bare
      ⟨i, ⟨n, p.join n t.cost m.cost⟩, pendingAbove pending t.plan m.plan⟩ := by
  unfold candidate joined Tree.bare Join.attaching pendingAbove
  simp only [connecting_bare, Expr.coveredBy_bare]

variable [CostScale ν]

theorem cheapestBelow_map_bare (bound : ν) (cs : List (Candidate ν)) :
    Search.cheapestBelow bound (cs.map Candidate.bare) =
      (Search.cheapestBelow bound cs).map Candidate.bare := by
  induction cs generalizing bound with
  | nil => rfl
  | cons c cs ih =>
    rw [List.map_cons, Search.cheapestBelow, Search.cheapestBelow]
    have hc : c.bare.tree.cost = c.tree.cost := rfl
    rw [hc]
    split
    · rw [ih]
      cases Search.cheapestBelow c.tree.cost cs <;> rfl
    · exact ih bound

/-- Joins ranked trees into one plan. -/
def Pricing.combine (p : Pricing ν) (E : List Edge) (trees : List (Tree ν)) (residuals : List Expr) :
    Option Solution :=
  let grown := p.growAll E trees.length trees residuals
  (Assembly.assemble grown.1 grown.2 .initial).1.map Solution.bare

theorem Pricing.combine_sorted (p : Pricing ν) (E : List Edge) (members : List Node)
    (residuals : List Expr) :
    p.combine E (sorted (members.map p.appraise)) residuals = p.solve E members residuals := by
  unfold combine solve
  rw [(sorted_perm _).length_eq, List.length_map]

end Bare

namespace Assembly

theorem rounds_bare {ms ns : List Node} (hmn : ms.map Node.bare = ns.map Node.bare)
    (pending : List Expr) (a b : Supply) :
    (rounds ms.length ms pending a).1.map Solution.bare =
      (rounds ns.length ns pending b).1.map Solution.bare := by
  have hlen : ms.length = ns.length := by
    have := congrArg List.length hmn
    rwa [List.length_map, List.length_map] at this
  cases ns with
  | nil =>
    rw [List.length_eq_zero_iff.1 hlen]
    rfl
  | cons n ns =>
    -- The trees are single leaves.
    let ts : List JoinTree := ((n :: ns).map Node.bare).map .leaf
    have hts : (n :: ns).map Node.bare = ts.map JoinTree.plan := by
      rw [List.map_map]
      exact (List.map_id _).symm
    obtain ⟨t, ps, -, hrun⟩ := exists_assembles_of_rounds (n :: ns).length ts pending
      (List.cons_ne_nil _ _) (by rw [List.length_map, List.length_map])
    obtain ⟨r, hr, hrt, hrp⟩ := hrun ms pending a (hmn.trans hts) rfl
    obtain ⟨r', hr', hrt', hrp'⟩ := hrun (n :: ns) pending b hts rfl
    rw [hlen, hr, hr', Option.map_some, Option.map_some, Solution.bare, Solution.bare, hrt, hrt',
      hrp, hrp']

theorem yields_pairUp {h : Heap} {plans : List Node} (hp : ∀ n ∈ plans, h.Holds n) (pending : List Expr)
    (a : Supply) (ha : Supply.Fits h a) : ∃ h' : Heap, Supply.Fits h' (pairUp plans pending a).2 ∧
      h.Before h' ∧ ∀ n ∈ (pairUp plans pending a).1.1, h'.Holds n := by
  match plans with
  | [] => exact ⟨h, ha, .refl h, hp⟩
  | [n] => exact ⟨h, ha, .refl h, hp⟩
  | l :: r :: rest =>
    obtain ⟨hl, hp⟩ := List.forall_mem_cons.1 hp
    obtain ⟨hr, hp⟩ := List.forall_mem_cons.1 hp
    obtain ⟨n, b, h₁, hn, hb, hh, hj, -⟩ :=
      yields_join (j := .attaching [] pending l r) hl hr a ha
    cases hn
    obtain ⟨h₂, hb', hh', hrest⟩ := yields_pairUp (fun n hn => (hp n hn).mono hh)
      (pendingAbove pending l r) ⟨a.nextId + 1, a.nextCell + 1⟩ hb
    exact ⟨h₂, hb', hh.trans hh', List.forall_mem_cons.2 ⟨hj.mono hh', hrest⟩⟩

theorem yields_rounds (k : Nat) {h : Heap} {plans : List Node} (hp : ∀ n ∈ plans, h.Holds n)
    (pending : List Expr) (a : Supply) (ha : Supply.Fits h a) :
    ∃ h' : Heap, Supply.Fits h' (rounds k plans pending a).2 ∧ h.Before h' ∧
      ∀ s ∈ (rounds k plans pending a).1, h'.Holds s.plan := by
  induction k generalizing h plans pending a with
  | zero =>
    match plans with
    | [] => exact ⟨h, ha, .refl h, fun s hs => nomatch hs⟩
    | [n] => exact ⟨h, ha, .refl h, fun s hs => Option.some.inj hs ▸ hp n (by simp)⟩
    | l :: r :: rest => exact ⟨h, ha, .refl h, fun s hs => Option.some.inj hs ▸ hp l (by simp)⟩
  | succ k ih =>
    match plans with
    | [] => exact ⟨h, ha, .refl h, fun s hs => nomatch hs⟩
    | [n] => exact ⟨h, ha, .refl h, fun s hs => Option.some.inj hs ▸ hp n (by simp)⟩
    | l :: r :: rest =>
      obtain ⟨h₁, hb, hh, hplans⟩ := yields_pairUp hp pending a ha
      obtain ⟨h₂, hb', hh', hs⟩ := ih hplans (pairUp (l :: r :: rest) pending a).1.2 _ hb
      exact ⟨h₂, hb', hh.trans hh', hs⟩

theorem yields_assemble {h : Heap} {plans : List Node} (hp : ∀ n ∈ plans, h.Holds n) (pending : List Expr) :
    Yields Supply.Fits h (Action.ofState (assemble plans pending)) fun h' found =>
      (∀ s ∈ found, h'.Holds s.plan) ∧ found.map Solution.bare =
        (assemble (plans.map Node.bare) pending .initial).1.map Solution.bare := fun a ha => by
  obtain ⟨h', hb, hh, hs⟩ := yields_rounds plans.length hp pending a ha
  refine ⟨_, _, h', Action.ofState_eq_ok.2 rfl, hb, hh, hs, ?_⟩
  refine rounds_bare ?_ pending a .initial
  rw [List.map_map]
  exact List.map_congr_left fun n _ => n.bare_bare.symm

end Assembly

namespace Structural
variable {ν σ : Type} {s : Search ν σ} {derive : Node → List (Statistics ν) → Statistics ν}
  {p : Pricing ν} (hs : Structural s.estimator s.model derive p) {h : Heap}
include hs

theorem appraise {m : Node} (hm : h.Holds m) :
    Yields (Session.Fits derive) h (s.appraise m) fun _ t => t = ⟨m, p.base m.bare⟩ :=
  yields_estimating ((appraises_estimate hs.estimate hm).bind ((hs.base h m hm).bind (.pure _)))

theorem joinCost {n : Node} (hn : h.Holds n) (l r : Tree ν) :
    Yields (Session.Fits derive) h (s.joinCost n l r) fun _ c => c = p.join n.bare l.cost r.cost :=
  yields_estimating ((appraises_estimate hs.estimate hn).bind (hs.join h n _ _ hn))

theorem appraiseAll {members : List Node} (hm : ∀ m ∈ members, h.Holds m) :
    Yields (Session.Fits derive) h (members.mapM s.appraise) fun _ ts =>
      ts = members.map fun m => ⟨m, p.base m.bare⟩ := by
  induction members generalizing h with
  | nil => exact .pure rfl
  | cons m ms ih =>
    rw [List.forall_mem_cons] at hm
    rw [List.mapM_cons]
    refine (hs.appraise hm.1).bind fun h₁ _ t _ _ hb ht => ?_
    refine (ih fun m hmem => (hm.2 m hmem).mono hb).bind fun h₂ _ ts _ _ _ hts => .pure ?_
    rw [ht, hts, List.map_cons]

theorem candidate? {t m : Tree ν} (ht : h.Holds t.plan) (hm : h.Holds m.plan) (pending : List Expr)
    (i : Nat) : Yields (Session.Fits derive) h (s.candidate? t pending i m) fun h' found =>
      (∀ c ∈ found, h'.Holds c.tree.plan) ∧ found.map Candidate.bare =
        if connecting s.edges t.bare.plan m.bare.plan = [] then none
        else some (p.candidate s.edges t.bare pending i m.bare) := by
  have hsame : connecting s.edges t.bare.plan m.bare.plan = connecting s.edges t.plan m.plan :=
    connecting_bare ..
  unfold Search.candidate?
  split
  · rename_i hc
    refine .pure ⟨by simp, ?_⟩
    rw [if_pos (hsame.trans hc)]
    rfl
  · rename_i hc
    refine (yields_newJoin ht hm).bind fun h₁ _ n _ _ _ hn => ?_
    refine (hs.joinCost hn.1 t m).bind fun h₂ _ c _ _ hb hcost => .pure ⟨?_, ?_⟩
    · simpa using hn.1.mono hb
    · rw [if_neg (hsame.trans_ne hc), hcost, p.candidate_bare, ← hn.2]
      rfl

theorem candidates {t : Tree ν} {rest : List (Tree ν)} (ht : h.Holds t.plan)
    (hrest : ∀ y ∈ rest, h.Holds y.plan) (pending : List Expr) (i : Nat) :
    Yields (Session.Fits derive) h (s.candidates t pending i rest) fun h' cs =>
      (∀ c ∈ cs, h'.Holds c.tree.plan) ∧
        cs.map Candidate.bare = p.candidates s.edges t.bare pending i (rest.map Tree.bare) := by
  induction rest generalizing h i with
  | nil => exact .pure ⟨by simp, rfl⟩
  | cons m rest ih =>
    rw [List.forall_mem_cons] at hrest
    refine (hs.candidate? ht hrest.1 pending i).bind fun h₁ _ found _ _ hb hfound => ?_
    refine (ih (ht.mono hb) (fun y hy => (hrest.2 y hy).mono hb) (i + 1)).bind
      fun h₂ _ cs _ _ hb' hcs => .pure ⟨?_, ?_⟩
    · refine List.forall_mem_append.2 ⟨fun c hc => ?_, hcs.1⟩
      exact (hfound.1 c (Option.mem_toList.1 hc)).mono hb'
    · have hlist : found.toList.map Candidate.bare = (found.map Candidate.bare).toList := by
        cases found <;> rfl
      rw [List.map_append, hlist, hfound.2, hcs.2, List.map_cons, Pricing.candidates]
      split <;> rfl

variable [CostScale ν]

theorem grow (k : Nat) {g : Growth ν} (ht : h.Holds g.tree.plan)
    (hrest : ∀ y ∈ g.remaining, h.Holds y.plan) :
    Yields (Session.Fits derive) h (s.grow k g) fun h' g' => h'.Holds g'.tree.plan ∧
      (∀ y ∈ g'.remaining, h'.Holds y.plan) ∧ g'.bare = p.grow s.edges k g.bare := by
  induction k generalizing h g with
  | zero => exact .pure ⟨ht, hrest, rfl⟩
  | succ k ih =>
    refine (hs.candidates ht hrest g.pending 0).bind fun h₁ _ cs _ _ hb hcs => ?_
    have hchoice : Search.cheapest? (p.candidates s.edges g.bare.tree g.bare.pending 0
        g.bare.remaining) = (Search.cheapest? cs).map Candidate.bare := by
      refine Eq.trans ?_ (cheapestBelow_map_bare _ cs)
      rw [hcs.2]
      rfl
    rw [Pricing.grow, hchoice]
    cases hc : Search.cheapest? cs with
    | none => exact .pure ⟨ht.mono hb, fun y hy => (hrest y hy).mono hb, rfl⟩
    | some c =>
      rw [Option.map_some]
      dsimp only
      rw [← Growth.bare_commit]
      refine ih (hcs.1 c (mem_of_cheapestBelow hc)) fun y hy => ?_
      exact (hrest y ((List.eraseIdx_sublist ..).subset hy)).mono hb

theorem growAll (k : Nat) {trees : List (Tree ν)} (ht : ∀ t ∈ trees, h.Holds t.plan)
    (pending : List Expr) : Yields (Session.Fits derive) h (s.growAll k trees pending) fun h' r =>
      (∀ n ∈ r.1, h'.Holds n) ∧ r.1.map Node.bare =
        (p.growAll s.edges k (trees.map Tree.bare) pending).1 ∧
        r.2 = (p.growAll s.edges k (trees.map Tree.bare) pending).2 := by
  induction k generalizing h trees pending with
  | zero => exact .pure ⟨by simp, rfl, rfl⟩
  | succ k ih =>
    cases trees with
    | nil => exact .pure ⟨by simp, rfl, rfl⟩
    | cons seed others =>
      rw [List.forall_mem_cons] at ht
      refine (hs.grow others.length (g := ⟨seed, others, pending⟩) ht.1 ht.2).bind
        fun h₁ _ g _ _ hb hg => ?_
      refine (ih hg.2.1 g.pending).bind fun h₂ _ r _ _ hb' hr => .pure ?_
      rw [List.map_cons (f := Tree.bare), Pricing.growAll_succ, List.length_map]
      have hgb : p.grow s.edges others.length ⟨seed.bare, others.map Tree.bare, pending⟩ = g.bare :=
        hg.2.2.symm
      rw [hgb]
      refine ⟨List.forall_mem_cons.2 ⟨hg.1.mono hb', hr.1⟩, ?_, hr.2.2⟩
      rw [List.map_cons, hr.2.1]
      rfl

/-- Ranked trees are joined as the prices tell. -/
theorem combine {trees : List (Tree ν)} (ht : ∀ t ∈ trees, h.Holds t.plan) (residuals : List Expr) :
    Yields (Session.Fits derive) h (do
        let (plans, pending) ← s.growAll trees.length trees residuals
        Planning.build (Action.ofState (Assembly.assemble plans pending))) fun h' found =>
      (∀ r ∈ found, h'.Holds r.plan) ∧
        found.map Solution.bare = p.combine s.edges (trees.map Tree.bare) residuals := by
  refine (hs.growAll trees.length ht residuals).bind fun h₁ _ r _ _ _ hr => ?_
  refine (yields_build (Assembly.yields_assemble hr.1 r.2)).imp fun h₂ found _ hfound => ?_
  refine ⟨hfound.1, hfound.2.trans ?_⟩
  unfold Pricing.combine
  rw [hr.2.1, hr.2.2, List.length_map]

omit hs in
/-- Members are ranked as bare members of their prices are, or ranking either of them panics. -/
theorem rel_ranked_members (members : List Node) :
    Option.Rel (List.Forall₂ fun t u => t.bare = u)
      (ranked (members.map fun m => (⟨m, p.base m.bare⟩ : Tree ν)))
      ((rankedBy p.base (members.map Node.bare)).map (List.map p.appraise)) := by
  rw [← ranked_map p.base fun _ => rfl]
  have hcost (t u : Tree ν) (htu : t.bare = u) : t.cost = u.cost := by rw [← htu, Tree.bare]
  refine rel_ranked hcost ?_
  rw [List.map_map, List.forall₂_map_left_iff, List.forall₂_map_right_iff, List.forall₂_same]
  exact fun m _ => rfl

/-- A search gives, up to tags, what the prices give if members are ranked in this order. -/
theorem solve_ranked {members order : List Node} (hm : ∀ m ∈ members, h.Holds m)
    (hr : rankedBy p.base (members.map Node.bare) = some order) (residuals : List Expr) :
    Yields (Session.Fits derive) h (s.solve members residuals) fun h' found =>
      (∀ r ∈ found, h'.Holds r.plan) ∧
        found.map Solution.bare = p.combine s.edges (order.map p.appraise) residuals := by
  refine (hs.appraiseAll hm).bind fun h₁ _ trees _ _ hbefore htrees => ?_
  have hrel := rel_ranked_members (p := p) members
  rw [hr, Option.map_some, ← htrees] at hrel
  obtain ⟨ordered, hordered, hbare⟩ : ∃ ordered, ranked trees = some ordered ∧
      ordered.map Tree.bare = order.map p.appraise := by
    generalize ranked trees = left at hrel ⊢
    cases hrel with
    | some hrel => exact ⟨_, rfl, List.forall₂_eq_eq_eq ▸ List.forall₂_map_left_iff.2 hrel⟩
  have hheld : ∀ t ∈ ordered, h₁.Holds t.plan := fun t ht => by
    have ht := (ranked_perm hordered).subset ht
    rw [htrees] at ht
    obtain ⟨m, hmem, rfl⟩ := List.mem_map.1 ht
    exact (hm m hmem).mono hbefore
  have hranking : ranking trees = (return ordered : Planning ν σ _) := by
    unfold ranking
    rw [hordered]
    rfl
  rw [hranking, pure_bind, ← (ranked_perm hordered).length_eq, ← hbare]
  exact hs.combine hheld residuals

/-- A search panics if its members cannot be ranked. -/
theorem solve_panics {members : List Node} (hm : ∀ m ∈ members, h.Holds m)
    (hr : rankedBy p.base (members.map Node.bare) = none) (residuals : List Expr)
    {a : Session ν σ} (ha : a.Fits derive h) :
    ∃ b, s.solve members residuals a = .error .disorder b := by
  obtain ⟨trees, b, -, htrees, -, -, rfl⟩ := hs.appraiseAll hm a ha
  have hrel := rel_ranked_members (p := p) members
  rw [hr, Option.map_none] at hrel
  refine ⟨b, Action.bind_eq_error.2 (.inr ⟨_, b, htrees, Action.bind_eq_error.2 (.inl ?_)⟩)⟩
  generalize hleft : ranked (members.map fun m => (⟨m, p.base m.bare⟩ : Tree ν)) = left at hrel
  cases hrel
  exact ranking_eq_error.2 ⟨hleft, rfl, rfl⟩

/-- A search gives, up to tags, what the prices give, if members cost less than the ceiling. -/
theorem solve [LawfulCosts ν] (hb : ∀ n, CostScale.Below (p.base n)) {members : List Node}
    (hm : ∀ m ∈ members, h.Holds m) (residuals : List Expr) :
    Yields (Session.Fits derive) h (s.solve members residuals) fun h' found =>
      (∀ r ∈ found, h'.Holds r.plan) ∧
        found.map Solution.bare = p.solve s.edges (members.map Node.bare) residuals := by
  have hbelow : AllBelow ((members.map Node.bare).map p.appraise) := fun t ht => by
    obtain ⟨m, -, rfl⟩ := List.mem_map.1 ht
    exact hb m
  have hr := ranked_of_allBelow hbelow
  rw [ranked_map p.base fun _ => rfl, Option.map_eq_some_iff] at hr
  obtain ⟨order, hr, hsorted⟩ := hr
  rw [← p.combine_sorted, ← hsorted]
  exact hs.solve_ranked hm hr residuals

end Structural

/-- A heap with the four tables in its first cells. -/
def fourTables.heap (size : ℕ) : Heap := ⟨size, fun c => fourTables[c]?.map Node.bare⟩

theorem fourTables.holds_heap {size : ℕ} (h : 4 ≤ size) :
    ∀ m ∈ fourTables, (fourTables.heap size).Holds m := by
  have hcell : ∀ m ∈ fourTables, ∀ k ∈ m.preorder,
      k.cell < 4 ∧ (fourTables.heap 4).node? k.cell = some k.bare := by decide
  exact fun m hm k hk => ⟨(hcell m hm k hk).1.trans_le h, (hcell m hm k hk).2⟩

end JoinOrder
