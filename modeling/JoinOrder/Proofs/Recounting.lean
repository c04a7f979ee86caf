import JoinOrder.Proofs.Choices
import JoinOrder.Proofs.Postorder

/-!
# Costs recounted

The standard cost model finds the cost of a plan in two ways: it counts the rows of all operators of
a member, and adds the rows of a join to what was counted for its inputs. No law of addition makes
the two agree. They do because both read the rows from what is remembered, add them in the same
order, and nothing remembered is ever changed (`Search.recount_of_solve`).
-/

namespace JoinOrder

namespace Memo
variable {ν : Type}

/-- What is remembered in `M` still is in `M'`. -/
def Before (M M' : Memo ν) : Prop := ∀ c s, M c = some s → M' c = some s

variable {M M' M'' : Memo ν}

theorem Before.refl (M : Memo ν) : M.Before M := fun _ _ hs => hs

theorem Before.trans (h : M.Before M') (h' : M'.Before M'') : M.Before M'' :=
  fun c s hs => h' c s (h c s hs)

theorem Before.insert (h : M.Before M') {c : Nat} (hc : M c = none) (s : Statistics ν) :
    M.Before (M'.insert c s) := by
  intro d t ht
  have hne : d ≠ c := fun heq => by
    rw [heq, hc] at ht
    cases ht
  exact (if_neg hne).trans (h d t ht)

variable [Quantity ν]

/-- The rows put out by the operators of a plan, if all of them are remembered. -/
def total? (M : Memo ν) : Node → Option ν
  | .scan tag _ => do return (← M tag.cell).rows
  | .unary tag _ input => do return (← M tag.cell).rows + (← M.total? input)
  | .join tag _ left right => do
    return (← M tag.cell).rows + (← M.total? left) + (← M.total? right)

section Total
variable {n l r : Node} {v : ν} {tag : Tag}

theorem total?_scan {t : TableScan} :
    M.total? (.scan tag t) = some v ↔ ∃ s, M tag.cell = some s ∧ s.rows = v := by
  simp [total?, Option.bind_eq_some_iff]

theorem total?_unary {op : UnaryOp} : M.total? (.unary tag op n) = some v ↔
    ∃ s, M tag.cell = some s ∧ ∃ x, M.total? n = some x ∧ s.rows + x = v := by
  simp [total?, Option.bind_eq_some_iff]

theorem total?_join {j : Join} : M.total? (.join tag j l r) = some v ↔
    ∃ s, M tag.cell = some s ∧ ∃ x, M.total? l = some x ∧ ∃ y, M.total? r = some y ∧
      s.rows + x + y = v := by
  simp [total?, Option.bind_eq_some_iff]

theorem total?_mono (h : M.Before M') (hv : M.total? n = some v) : M'.total? n = some v := by
  induction n generalizing v with
  | scan tag t =>
    obtain ⟨s, hs, rfl⟩ := total?_scan.1 hv
    exact total?_scan.2 ⟨s, h _ _ hs, rfl⟩
  | unary tag op i ih =>
    obtain ⟨s, hs, x, hx, rfl⟩ := total?_unary.1 hv
    exact total?_unary.2 ⟨s, h _ _ hs, x, ih hx, rfl⟩
  | join tag j l r ihl ihr =>
    obtain ⟨s, hs, x, hx, y, hy, rfl⟩ := total?_join.1 hv
    exact total?_join.2 ⟨s, h _ _ hs, x, ihl hx, y, ihr hy, rfl⟩

end Total

section Counting
variable {σ : Type} {n : Node} {v : ν} {e : Estimates ν σ}

omit [Quantity ν] in
theorem rows_of_memo {s : Statistics ν} (estimator : Estimator ν σ) (hs : e.memo n.cell = some s) :
    CostModel.rows estimator n e = .ok s.rows e :=
  Action.bind_eq_ok.2 ⟨s, e, Estimating.estimate_of_memo hs, rfl⟩

/-- Where the rows of a plan are remembered, counting them asks for nothing. -/
theorem totalRows_of_total? (estimator : Estimator ν σ) (hv : e.memo.total? n = some v) :
    CostModel.totalRows estimator n e = .ok v e := by
  induction n generalizing v with
  | scan tag t =>
    obtain ⟨s, hs, rfl⟩ := total?_scan.1 hv
    exact rows_of_memo estimator hs
  | unary tag op i ih =>
    obtain ⟨s, hs, x, hx, rfl⟩ := total?_unary.1 hv
    refine Action.bind_eq_ok.2 ⟨_, e, rows_of_memo estimator hs, ?_⟩
    exact Action.bind_eq_ok.2 ⟨x, e, ih hx, rfl⟩
  | join tag j l r ihl ihr =>
    obtain ⟨s, hs, x, hx, y, hy, rfl⟩ := total?_join.1 hv
    refine Action.bind_eq_ok.2 ⟨_, e, rows_of_memo estimator hs, ?_⟩
    refine Action.bind_eq_ok.2 ⟨x, e, ihl hx, ?_⟩
    exact Action.bind_eq_ok.2 ⟨y, e, ihr hy, rfl⟩

end Counting

end Memo

/-- From a state in which `M` is remembered the step, if it succeeds, forgets nothing, and its result
is as `Q` says of what is remembered then. -/
def Learns {τ ν α : Type} (memo : τ → Memo ν) (M : Memo ν) (x : Action τ α)
    (Q : Memo ν → α → Prop) : Prop :=
  ∀ a r b, memo a = M → x a = .ok r b → M.Before (memo b) ∧ Q (memo b) r

namespace Learns
variable {τ ν α β : Type} {memo : τ → Memo ν} {M : Memo ν} {x : Action τ α}
  {Q : Memo ν → α → Prop} {R : Memo ν → β → Prop}

theorem pure {r : α} (hr : Q M r) : Learns memo M (Pure.pure r) Q := by
  rintro a r' b rfl h
  obtain ⟨rfl, rfl⟩ := Action.pure_eq_ok.1 h
  exact ⟨.refl _, hr⟩

theorem bind {k : α → Action τ β} (hx : Learns memo M x Q)
    (hk : ∀ M' r, M.Before M' → Q M' r → Learns memo M' (k r) R) : Learns memo M (x >>= k) R := by
  rintro a r b ha h
  obtain ⟨r', u, hr, h⟩ := Action.bind_eq_ok.1 h
  obtain ⟨hu, hq⟩ := hx a r' u ha hr
  obtain ⟨hb, hR⟩ := hk _ r' hu hq u r b rfl h
  exact ⟨hu.trans hb, hR⟩

end Learns

/-- The estimates remembered in a session. -/
abbrev Session.memo {ν σ : Type} (a : Session ν σ) : Memo ν := a.estimates.memo

section Steps
variable {ν σ α : Type} {M : Memo ν}

theorem learns_estimating {x : Estimating ν σ α} {Q : Memo ν → α → Prop}
    (hx : Learns Estimates.memo M x Q) :
    Learns Session.memo M (Planning.estimating x) Q := by
  rintro a r b ha h
  obtain ⟨u, hr, rfl⟩ := Action.onPart_eq_ok.1 h
  exact hx a.estimates r u ha hr

theorem learns_newJoin (j : Join) (l r : Node) :
    Learns Session.memo M (Planning.newJoin j l r : Planning ν σ Node) fun _ n =>
      ∃ tag, n = .join tag j l r := by
  rintro a n b rfl h
  rw [Planning.newJoin_eq] at h
  cases h
  exact ⟨.refl _, _, rfl⟩

theorem learns_ofEnv (x : Action σ α) :
    Learns Estimates.memo M (Estimating.ofEnv x : Estimating ν σ α) fun _ _ => True := by
  rintro e r e' rfl h
  obtain ⟨u, -, rfl⟩ := Action.onPart_eq_ok.1 h
  exact ⟨.refl _, trivial⟩

theorem learns_remember {c : Nat} {x : Estimating ν σ (Statistics ν)}
    (hx : Learns Estimates.memo M x fun _ _ => True) :
    Learns Estimates.memo M (Estimating.remember c x) fun M' s => M' c = some s := by
  rintro e s e' rfl h
  cases hc : e.memo c with
  | some t =>
    have hrun : Estimating.remember c x e = .ok t e :=
      Action.bind_eq_ok.2 ⟨e, e, rfl, by rw [hc]; rfl⟩
    rw [hrun] at h
    cases h
    exact ⟨.refl _, hc⟩
  | none =>
    rw [Estimating.remember_of_none hc] at h
    obtain ⟨t, u, ht, h⟩ := Action.bind_eq_ok.1 h
    cases h
    exact ⟨(hx e s u rfl ht).1.insert hc s, if_pos rfl⟩

theorem learns_estimate (estimator : Estimator ν σ) (n : Node) :
    Learns Estimates.memo M (Estimating.estimate estimator n) fun M' s => M' n.cell = some s := by
  induction n generalizing M with
  | scan => exact learns_remember (learns_ofEnv _)
  | unary tag op i ih =>
    exact learns_remember (ih.bind fun _ _ _ _ => learns_ofEnv _)
  | join tag j l r ihl ihr =>
    exact learns_remember (ihl.bind fun _ _ _ _ => ihr.bind fun _ _ _ _ => learns_ofEnv _)

theorem learns_rows (estimator : Estimator ν σ) (n : Node) :
    Learns Estimates.memo M (CostModel.rows estimator n) fun M' v =>
      ∃ s, M' n.cell = some s ∧ s.rows = v :=
  (learns_estimate estimator n).bind fun _ s _ hs => .pure ⟨s, hs, rfl⟩

variable [Quantity ν]

theorem learns_totalRows (estimator : Estimator ν σ) (n : Node) :
    Learns Estimates.memo M (CostModel.totalRows estimator n) fun M' v => M'.total? n = some v := by
  induction n generalizing M with
  | scan tag t =>
    rintro e v e' he h
    obtain ⟨hkept, hrows⟩ := learns_rows estimator _ e v e' he h
    exact ⟨hkept, Memo.total?_scan.2 hrows⟩
  | unary tag op i ih =>
    refine (learns_rows estimator _).bind ?_
    rintro _ _ - ⟨s, hs, rfl⟩
    refine ih.bind fun _ x hkept hx => .pure ?_
    exact Memo.total?_unary.2 ⟨s, hkept _ _ hs, x, hx, rfl⟩
  | join tag j l r ihl ihr =>
    refine (learns_rows estimator _).bind ?_
    rintro _ _ - ⟨s, hs, rfl⟩
    refine ihl.bind fun _ x hkept hx => ihr.bind fun _ y hkept' hy => .pure ?_
    have hs := hkept' _ _ (hkept _ _ hs)
    exact Memo.total?_join.2 ⟨s, hs, x, Memo.total?_mono hkept' hx, y, hy, rfl⟩

end Steps

section Counting
variable {ν σ : Type} [Quantity ν]

/-- The rows of the plan are remembered, and come to the cost of the tree. -/
def Tree.Counted (M : Memo ν) (t : Tree ν) : Prop := M.total? t.plan = some t.cost

theorem Tree.Counted.mono {M M' : Memo ν} (hM : M.Before M') {t : Tree ν} (ht : t.Counted M) :
    t.Counted M' := Memo.total?_mono hM ht

end Counting

namespace Search
variable {ν σ : Type} [CostScale ν] {s : Search ν σ} (hs : s.model = .cumulative) {M : Memo ν}
  {a b : Session ν σ}

section Steps
include hs

theorem learns_appraise (n : Node) :
    Learns Session.memo M (s.appraise n) fun M' t => t.Counted M' := by
  unfold appraise
  rw [hs]
  exact learns_estimating ((learns_estimate _ _).bind fun _ _ _ _ =>
    (learns_totalRows _ _).bind fun _ _ _ hv => .pure hv)

theorem learns_joinCost {tag : Tag} {j : Join} {t m : Tree ν} (ht : t.Counted M)
    (hm : m.Counted M) :
    Learns Session.memo M (s.joinCost (.join tag j t.plan m.plan) t m)
      fun M' c => Tree.Counted M' ⟨.join tag j t.plan m.plan, c⟩ := by
  unfold joinCost
  rw [hs]
  refine learns_estimating ((learns_estimate _ _).bind fun _ _ hkept _ =>
    (learns_rows _ _).bind ?_)
  rintro _ _ hkept' ⟨x, hx, rfl⟩
  have hkept := hkept.trans hkept'
  exact .pure (Memo.total?_join.2 ⟨x, hx, _, ht.mono hkept, _, hm.mono hkept, rfl⟩)

theorem learns_candidate? {tree m : Tree ν} (ht : tree.Counted M) (hm : m.Counted M)
    (pending : List Expr) (i : Nat) :
    Learns Session.memo M (s.candidate? tree pending i m)
      fun M' found => ∀ c ∈ found, c.tree.Counted M' := by
  unfold candidate?
  split
  · exact .pure fun c hc => nomatch hc
  · refine (learns_newJoin _ _ _).bind ?_
    rintro M' _ hkept ⟨tag, rfl⟩
    refine (learns_joinCost hs (ht.mono hkept) (hm.mono hkept)).bind fun _ _ _ hc => .pure ?_
    rintro _ ⟨⟩
    exact hc

/-- Whatever is tried next costs what its rows come to. -/
theorem learns_candidates {tree : Tree ν} {rest : List (Tree ν)} (ht : tree.Counted M)
    (hrest : ∀ m ∈ rest, m.Counted M) (pending : List Expr) (i : Nat) :
    Learns Session.memo M (s.candidates tree pending i rest)
      fun M' cs => ∀ c ∈ cs, c.tree.Counted M' := by
  induction rest generalizing M i with
  | nil => exact .pure fun c hc => nomatch hc
  | cons m rest ih =>
    obtain ⟨hm, hrest⟩ := List.forall_mem_cons.1 hrest
    unfold candidates
    refine (learns_candidate? hs ht hm pending i).bind fun M' found hkept hfound => ?_
    refine (ih (ht.mono hkept) (fun m hm => (hrest m hm).mono hkept) (i + 1)).bind
      fun M'' cs hkept' hcs => .pure ?_
    refine List.forall_mem_append.2 ⟨fun c hc => (hfound c ?_).mono hkept', hcs⟩
    exact Option.mem_toList.1 hc

theorem learns_mapM_appraise (members : List Node) :
    Learns Session.memo M (members.mapM s.appraise)
      fun M' ts => ∀ t ∈ ts, t.Counted M' := by
  induction members generalizing M with
  | nil => exact .pure fun t ht => nomatch ht
  | cons n ns ih =>
    rw [List.mapM_cons]
    refine (learns_appraise hs n).bind fun _ t _ ht => ih.bind fun _ ts hkept hts => .pure ?_
    exact List.forall_mem_cons.2 ⟨ht.mono hkept, hts⟩

/-- A step of the run leaves all trees counted. -/
theorem Next.counted {m m' : Growth ν × Session ν σ} (h : s.Next m m')
    (hm : ∀ t ∈ m.1.tree :: m.1.remaining, t.Counted m.2.estimates.memo) :
    ∀ t ∈ m'.1.tree :: m'.1.remaining, t.Counted m'.2.estimates.memo := by
  cases h with
  | @join g a b cs c hcs hc =>
    obtain ⟨ht, hrest⟩ := List.forall_mem_cons.1 hm
    obtain ⟨hkept, hcounted⟩ := learns_candidates hs ht hrest g.pending 0 a cs b rfl hcs
    refine List.forall_mem_cons.2 ⟨hcounted c (mem_of_cheapestBelow hc), fun t ht => ?_⟩
    exact (hrest t (List.mem_of_mem_eraseIdx ht)).mono hkept
  | @close g a b cs seed others hcs _ hr =>
    obtain ⟨ht, hrest⟩ := List.forall_mem_cons.1 hm
    obtain ⟨hkept, -⟩ := learns_candidates hs ht hrest g.pending 0 a cs b rfl hcs
    rw [hr] at hrest
    exact fun t ht => (hrest t ht).mono hkept

theorem counted_of_reach {m m' : Growth ν × Session ν σ} (h : Relation.ReflTransGen s.Next m m')
    (hm : ∀ t ∈ m.1.tree :: m.1.remaining, t.Counted m.2.estimates.memo) :
    ∀ t ∈ m'.1.tree :: m'.1.remaining, t.Counted m'.2.estimates.memo := by
  induction h with
  | refl => exact hm
  | tail _ hn ih => exact hn.counted hs ih

end Steps

theorem mapM_take {τ α β : Type} {f : α → Action τ β} {as : List α} {bs : List β} {c d : τ}
    (h : as.mapM f c = .ok bs d) (k : Nat) : ∃ bs' d', (as.take k).mapM f c = .ok bs' d' := by
  rw [← List.take_append_drop k as, List.mapM_append] at h
  obtain ⟨bs', d', h', -⟩ := Action.bind_eq_ok.1 h
  exact ⟨bs', d', h'⟩

omit [CostScale ν] in
/-- Candidates are tried one after the other. -/
theorem candidates_take {tree : Tree ν} {rest : List (Tree ν)} {pending : List Expr} {i : Nat}
    {cs : List (Candidate ν)} (h : s.candidates tree pending i rest a = .ok cs b) (k : Nat) :
    ∃ cs' b', s.candidates tree pending i (rest.take k) a = .ok cs' b' := by
  induction rest generalizing i k cs a b with
  | nil => exact ⟨cs, b, by rwa [List.take_nil]⟩
  | cons m rest ih =>
    cases k with
    | zero => exact ⟨[], a, rfl⟩
    | succ k =>
      obtain ⟨found, u, hfound, h⟩ := Action.bind_eq_ok.1 h
      obtain ⟨others, v, hothers, -⟩ := Action.bind_eq_ok.1 h
      obtain ⟨cs', b', h'⟩ := ih hothers k
      exact ⟨found.toList ++ cs', b', Action.bind_eq_ok.2 ⟨found, u, hfound,
        Action.bind_eq_ok.2 ⟨cs', b', h', rfl⟩⟩⟩

/-- In a search by the standard cost model that succeeds, every tree costs what counting the rows of
its plan anew comes to, and counting them asks for nothing. This holds while the members are
appraised and at every later moment of the run, also between two candidates, and of the candidates
themselves. -/
theorem recount_of_solve (hs : s.model = .cumulative) {members : List Node} {residuals : List Expr}
    {found : Option Solution} (h : s.solve members residuals a = .ok found b) :
    (∀ k, ∃ ts u, (members.take k).mapM s.appraise a = .ok ts u ∧
      ts.map Tree.plan = members.take k ∧ ∀ t ∈ ts, ∀ e : Estimates ν σ,
        u.estimates.memo.Before e.memo → s.model.base s.estimator t.plan e = .ok t.cost e) ∧
    ∃ trees order u plans left v, members.mapM s.appraise a = .ok trees u ∧
      ranked trees = some order ∧ order.Perm trees ∧
      (Assembly.assemble plans left v.supply).1 = found ∧
      ∀ first rest, order = first :: rest → s.Runs ⟨first, rest, residuals⟩ u plans left v ∧
        ∀ g d, Relation.ReflTransGen s.Next (⟨first, rest, residuals⟩, u) (g, d) → ∀ k, ∃ cs w,
          s.candidates g.tree g.pending 0 (g.remaining.take k) d = .ok cs w ∧
          ∀ t ∈ g.tree :: g.remaining ++ cs.map Candidate.tree, ∀ e : Estimates ν σ,
            w.estimates.memo.Before e.memo → s.model.base s.estimator t.plan e = .ok t.cost e := by
  have hbase {M : Memo ν} {t : Tree ν} {e : Estimates ν σ} (ht : t.Counted M)
      (he : M.Before e.memo) : s.model.base s.estimator t.plan e = .ok t.cost e := by
    rw [hs]
    exact Memo.totalRows_of_total? s.estimator (ht.mono he)
  unfold solve at h
  obtain ⟨trees, u, htrees, h⟩ := Action.bind_eq_ok.1 h
  obtain ⟨order, _, hr, h⟩ := Action.bind_eq_ok.1 h
  obtain ⟨horder, rfl⟩ := ranking_eq_ok.1 hr
  obtain ⟨⟨plans, left⟩, v, hgrow, h⟩ := Action.bind_eq_ok.1 h
  obtain ⟨w, hfound, -⟩ := Action.onPart_eq_ok.1 h
  have hperm := ranked_perm horder
  have hassemble := congrArg Prod.fst (Action.ofState_eq_ok.1 hfound)
  refine ⟨fun k => ?_, trees, order, u, plans, left, v, htrees, horder, hperm, hassemble, ?_⟩
  · obtain ⟨ts, u', hts⟩ := mapM_take htrees k
    have hcounted := (learns_mapM_appraise hs (members.take k) a ts u' rfl hts).2
    exact ⟨ts, u', hts, map_plan_of_appraise hts, fun t ht e he => hbase (hcounted t ht) he⟩
  · rintro first rest rfl
    rw [← hperm.length_eq, List.length_cons] at hgrow
    have hrun := runs_of_growAll hgrow (Nat.lt_succ_self _)
    have hcounted := (learns_mapM_appraise hs members a trees u rfl htrees).2
    have hfirst : ∀ t ∈ first :: rest, t.Counted u.estimates.memo := fun t ht =>
      hcounted t (hperm.subset ht)
    refine ⟨hrun, fun g d hreach k => ?_⟩
    have hmoment := counted_of_reach hs hreach hfirst
    obtain ⟨ht, hrest⟩ := List.forall_mem_cons.1 hmoment
    obtain ⟨later, hlater⟩ := hrun.of_reach hreach
    obtain ⟨_, _, hall⟩ := hlater.candidates
    obtain ⟨cs, w, hcs⟩ := candidates_take hall k
    obtain ⟨hkept, hcounted⟩ := learns_candidates hs ht
      (fun m hm => hrest m (List.mem_of_mem_take hm)) g.pending 0 d cs w rfl hcs
    refine ⟨cs, w, hcs, fun t htree e he => hbase ?_ he⟩
    rcases List.mem_append.1 htree with hold | hnew
    · exact (hmoment t hold).mono hkept
    · obtain ⟨c, hc, rfl⟩ := List.mem_map.1 hnew
      exact hcounted c hc

/-- The search for an order of four tables, three of them connected, with ten rows for every plan. -/
def counting : Search ℕ Unit := ⟨.constant (.ofRows 10), .cumulative, triangle.edges⟩

theorem recount_of_solve_fourTables : ∃ (found : Option Solution) (b u : Session ℕ Unit)
    (first : Tree ℕ) (rest : List (Tree ℕ)),
    counting.solve fourTables [] (.unused 4) = .ok found b ∧ (first :: rest).length = 4 ∧
      ∀ k, ∃ cs w, counting.candidates first [] 0 (rest.take k) u = .ok cs w ∧
        ∀ t ∈ first :: rest ++ cs.map Candidate.tree,
          counting.model.base counting.estimator t.plan w.estimates = .ok t.cost w.estimates := by
  obtain ⟨found, b, h⟩ := Action.exists_of_result? (x := counting.solve fourTables [])
    (a := .unused 4) (by decide +kernel)
  obtain ⟨-, trees, order, u, plans, left, v, htrees, -, hperm, -, hmoments⟩ :=
    recount_of_solve rfl h
  have hlen : order.length = 4 := by
    rw [hperm.length_eq, ← List.length_map, map_plan_of_appraise htrees]
    rfl
  obtain ⟨first, rest, hr⟩ := List.exists_cons_of_length_eq_add_one hlen
  refine ⟨found, b, u, first, rest, h, hr ▸ hlen, fun k => ?_⟩
  obtain ⟨cs, w, hcs, hcosts⟩ := (hmoments first rest hr).2 _ _ .refl k
  exact ⟨cs, w, hcs, fun t ht => hcosts t ht w.estimates (.refl _)⟩

end Search

end JoinOrder
