import JoinOrder.Proofs.Oracles
import JoinOrder.Statistics.Catalog

/-!
# What is remembered, taken at its word

What a session remembers of a plan need not be right. Another estimator may have said it, or two
nodes of one shape may have been given different estimates. A *prospect* is a plan with the estimate
of each of its nodes, where a node of which something is remembered at first has that estimate. A
*valuation* tells what collaborators answer who see nothing of a plan but its prospect
(`Valuation.Governs`), such as the standard cost model (`Valuation.governs_cumulative`).

Shapes are not enough to say what has to stand in a cell. So a stock keeps the nodes themselves.
-/

namespace JoinOrder

/-- The nodes in use. They stand in cells below `size`, each in a cell of its own. -/
structure Stock where
  size : Nat
  has : Node → Prop
  input {n i : Node} : has n → i ∈ n.inputs → has i
  below {n : Node} : has n → n.cell < size
  alone {m n : Node} : has m → has n → m.cell = n.cell → m = n

namespace Stock

/-- New nodes have come into use, in new cells. -/
structure Before (h k : Stock) : Prop where
  size : h.size ≤ k.size
  kept : ∀ n, h.has n → k.has n
  old : ∀ n, k.has n → n.cell < h.size → h.has n

instance : World Stock where
  Grows := Before
  refl _ := ⟨le_rfl, fun _ hn => hn, fun _ hn _ => hn⟩
  trans hb hb' := ⟨hb.size.trans hb'.size, fun n hn => hb'.kept n (hb.kept n hn),
    fun n hn hc => hb.old n (hb'.old n hn (hc.trans_le hb.size)) hc⟩

/-- The stock with a node in the next cell. -/
def push (h : Stock) (n : Node) (hc : n.cell = h.size) (hi : ∀ i ∈ n.inputs, h.has i) :
    Stock where
  size := h.size + 1
  has m := m = n ∨ h.has m
  input {m i} hm hmem := by
    rcases hm with rfl | hm
    · exact .inr (hi i hmem)
    · exact .inr (h.input hm hmem)
  below hm := by
    rcases hm with rfl | hm
    · exact hc.trans_lt (Nat.lt_succ_self _)
    · exact (h.below hm).trans (Nat.lt_succ_self _)
  alone hm hk heq := by
    rcases hm with rfl | hm <;> rcases hk with rfl | hk
    · rfl
    · exact absurd (h.below hk) (heq ▸ hc).not_lt
    · exact absurd (h.below hm) (heq ▸ hc).not_lt
    · exact h.alone hm hk heq

theorem before_push (h : Stock) (n : Node) (hc : n.cell = h.size) (hi : ∀ i ∈ n.inputs, h.has i) :
    h.Before (h.push n hc hi) where
  size := Nat.le_succ _
  kept _ := .inr
  old _ hm hlt := hm.resolve_left fun heq => absurd (heq ▸ hlt) hc.not_lt

end Stock

/-- The plans stand in cells given away so far, each node in a cell of its own, and nothing is
remembered in the cells to come. -/
structure Session.Houses {ν σ : Type} (a : Session ν σ) (plans : List Node) : Prop where
  below : ∀ n ∈ plans.flatMap Node.preorder, n.cell < a.supply.nextCell
  alone : ∀ m ∈ plans.flatMap Node.preorder, ∀ n ∈ plans.flatMap Node.preorder,
    m.cell = n.cell → m = n
  memo : ∀ c s, a.estimates.memo c = some s → c < a.supply.nextCell

/-- The nodes of the plans. -/
def Session.Houses.stock {ν σ : Type} {a : Session ν σ} {plans : List Node} (ha : a.Houses plans) :
    Stock where
  size := a.supply.nextCell
  has n := n ∈ plans.flatMap Node.preorder
  input {n i} hn hi := by
    obtain ⟨p, hp, hn⟩ := List.mem_flatMap.1 hn
    have hmem := Node.mem_preorder_of_input hi i.mem_preorder_self
    exact List.mem_flatMap.2 ⟨p, hp, Node.mem_preorder_trans hmem hn⟩
  below {n} hn := ha.below n hn
  alone {m n} hm hn := ha.alone m hm n hn

/-- A plan with the estimate of each of its nodes, or the reason why there is none. -/
inductive Prospect (ν : Type) where
  | scan (scan : TableScan) (estimate : Except Failure (Statistics ν))
  | unary (op : UnaryOp) (estimate : Except Failure (Statistics ν)) (input : Prospect ν)
  | join (join : Join) (estimate : Except Failure (Statistics ν)) (left right : Prospect ν)

namespace Prospect
variable {ν : Type}

def estimate : Prospect ν → Except Failure (Statistics ν)
  | scan _ e => e
  | unary _ e _ => e
  | join _ e _ _ => e

/-- The plan with blank tags. -/
def bare : Prospect ν → Node
  | scan s _ => .scan .blank s
  | unary op _ i => .unary .blank op i.bare
  | join j _ l r => .join .blank j l.bare r.bare

end Prospect

section Prospects
variable {ν σ : Type} {M : Memo ν} {estimate : Derivation ν} {h k : Stock} {e : Estimates ν σ}
  {m n : Node}

/-- What is remembered in a cell, or else the given answer. -/
def Memo.recall (M : Memo ν) (c : Nat) (answer : Except Failure (Statistics ν)) :
    Except Failure (Statistics ν) := (M c).elim answer .ok

/-- The prospect of a plan of which `M` is remembered. -/
def Node.prospect (M : Memo ν) (estimate : Derivation ν) : Node → Prospect ν
  | .scan tag s => .scan s (M.recall tag.cell (estimate (.scan .blank s) []))
  | .unary tag op input => .unary op (M.recall tag.cell do
      let s ← (input.prospect M estimate).estimate
      estimate (.unary .blank op input.bare) [s]) (input.prospect M estimate)
  | .join tag j left right => .join j (M.recall tag.cell do
      let s ← (left.prospect M estimate).estimate
      let t ← (right.prospect M estimate).estimate
      estimate (.join .blank j left.bare right.bare) [s, t]) (left.prospect M estimate)
        (right.prospect M estimate)

theorem Node.bare_prospect (M : Memo ν) (estimate : Derivation ν) (n : Node) :
    (n.prospect M estimate).bare = n.bare := by
  induction n with
  | scan => rfl
  | unary tag op i ih => exact congrArg (Node.unary .blank op) ih
  | join tag j l r ihl ihr => exact congrArg₂ (Node.join .blank j) ihl ihr

theorem Node.estimate_prospect {s : Statistics ν} (hs : M n.cell = some s) :
    (n.prospect M estimate).estimate = .ok s := by
  cases n <;> exact congrArg (Option.elim · _ _) hs

/-- A node in a fresh cell is seen as its inputs are. -/
theorem Node.prospect_join {M' : Memo ν} {t t' : Tag} (j : Join) {l l' r r' : Node}
    (ht : M t.cell = none) (ht' : M' t'.cell = none)
    (hl : l.prospect M estimate = l'.prospect M' estimate)
    (hr : r.prospect M estimate = r'.prospect M' estimate) :
    (Node.join t j l r).prospect M estimate = (Node.join t' j l' r').prospect M' estimate := by
  have hbare {m n : Node} (h : m.prospect M estimate = n.prospect M' estimate) : m.bare = n.bare := by
    rw [← m.bare_prospect M estimate, h, n.bare_prospect]
  unfold prospect Memo.recall
  rw [ht, ht', hl, hr, hbare hl, hbare hr]

/-- What was remembered at first still is, and all that is remembered of nodes in use is what their
prospects say. -/
structure Estimates.Extends (M : Memo ν) (estimate : Derivation ν) (h : Stock)
    (e : Estimates ν σ) : Prop where
  size : ∀ c s, e.memo c = some s → c < h.size
  kept : ∀ c s, M c = some s → e.memo c = some s
  memo : ∀ n s, h.has n → e.memo n.cell = some s → (n.prospect M estimate).estimate = .ok s

theorem Session.Houses.extends {a : Session ν σ} {plans : List Node} (ha : a.Houses plans) :
    Estimates.Extends a.estimates.memo estimate ha.stock a.estimates :=
  ⟨ha.memo, fun _ _ hs => hs, fun _ _ _ hs => Node.estimate_prospect hs⟩

theorem Estimates.Extends.mono (he : e.Extends M estimate h) (hb : h.Before k) :
    e.Extends M estimate k where
  size c s hs := (he.size c s hs).trans_le hb.size
  kept := he.kept
  memo n s hn hs := he.memo n s (hb.old n hn (he.size _ s hs)) hs

theorem Estimates.Extends.insert {s : Statistics ν} (he : e.Extends M estimate h) (hn : h.has n)
    (hs : (n.prospect M estimate).estimate = .ok s) :
    Estimates.Extends M estimate h { e with memo := e.memo.insert n.cell s } := by
  refine ⟨fun c t ht => ?_, fun c t ht => ?_, fun m t hm ht => ?_⟩
  · by_cases hc : c = n.cell
    · exact hc ▸ h.below hn
    · exact he.size c t ((if_neg hc).symm.trans ht)
  · by_cases hc : c = n.cell
    · -- an estimate that was there at first is what the node is seen with
      have hsame := hs.symm.trans (Node.estimate_prospect (hc ▸ ht))
      exact (if_pos hc).trans (congrArg some (Except.ok.inj hsame))
    · exact (if_neg hc).trans (he.kept c t ht)
  · by_cases hc : m.cell = n.cell
    · rw [h.alone hm hn hc, hs, Option.some.inj ((if_pos hc).symm.trans ht)]
    · exact he.memo m t hm ((if_neg hc).symm.trans ht)

theorem answers_prospect {estimator : Estimator ν σ}
    (hest : ∀ n inputs env, ∃ env',
      estimator n inputs env = Action.ofExcept (estimate n.bare inputs) env') (hn : h.has n) :
    Answers (Estimates.Extends M estimate h) (Estimating.estimate estimator n)
      (n.prospect M estimate).estimate := by
  have hcall (m : Node) (inputs : List (Statistics ν)) :
      Answers (Estimates.Extends M estimate h) (Estimating.ofEnv (estimator m inputs))
        (estimate m.bare inputs) :=
    answers_ofEnv (fun _ _ he => ⟨he.size, he.kept, he.memo⟩) (hest m inputs)
  have hremember {m : Node} {x : Estimating ν σ (Statistics ν)} (hm : h.has m)
      (hx : M m.cell = none → Answers (Estimates.Extends M estimate h) x
        (m.prospect M estimate).estimate) :
      Answers (Estimates.Extends M estimate h) (Estimating.remember m.cell x)
        (m.prospect M estimate).estimate := by
    refine answers_remember (fun e s he hs => he.memo m s hm hs)
      (fun e s he hs => he.insert hm hs) ?_
    rintro ⟨e, he, hnone⟩
    refine hx (Option.eq_none_iff_forall_ne_some.2 fun s hs => ?_)
    rw [he.kept _ s hs] at hnone
    cases hnone
  induction n with
  | scan tag s =>
    refine hremember hn fun hnone => ?_
    rw [Node.prospect, Memo.recall, show M tag.cell = none from hnone]
    exact hcall _ _
  | unary tag op i ih =>
    refine hremember hn fun hnone => ?_
    rw [Node.prospect, Memo.recall, show M tag.cell = none from hnone]
    exact (ih (h.input hn (List.mem_singleton_self i))).bind fun _ _ => hcall _ _
  | join tag j l r ihl ihr =>
    refine hremember hn fun hnone => ?_
    rw [Node.prospect, Memo.recall, show M tag.cell = none from hnone]
    exact (ihl (h.input hn (List.mem_cons_self ..))).bind fun _ _ =>
      (ihr (h.input hn (List.mem_cons_of_mem _ (List.mem_singleton_self r)))).bind fun _ _ =>
        hcall _ _

end Prospects

/-- What the collaborators answer. -/
structure Valuation (ν : Type) where
  estimate : Derivation ν
  base : Prospect ν → Except Failure ν
  join : Prospect ν → (left right : ν) → Except Failure ν

/-- What is seen of a plan of which `M` is remembered. -/
def Valuation.prospect {ν : Type} (v : Valuation ν) (M : Memo ν) (n : Node) : Prospect ν :=
  n.prospect M v.estimate

/-- The estimator goes by the structure of a plan and the estimates of its inputs, and the cost model
by prospects, whatever is remembered at first. -/
structure Valuation.Governs {ν σ : Type} (v : Valuation ν) (estimator : Estimator ν σ)
    (model : CostModel ν σ) : Prop where
  estimate : ∀ n inputs env, ∃ env',
    estimator n inputs env = Action.ofExcept (v.estimate n.bare inputs) env'
  base : ∀ (M : Memo ν) (h : Stock) n, h.has n →
    Answers (Estimates.Extends M v.estimate h) (model.base estimator n) (v.base (v.prospect M n))
  join : ∀ (M : Memo ν) (h : Stock) n l r, h.has n →
    Answers (Estimates.Extends M v.estimate h) (model.join estimator n l r)
      (v.join (v.prospect M n) l r)

section Cumulative
variable {ν σ : Type}

def Prospect.rows (p : Prospect ν) : Except Failure ν := return (← p.estimate).rows

variable [Quantity ν]

def Prospect.totalRows : Prospect ν → Except Failure ν
  | .scan s e => rows (.scan s e)
  | .unary op e i => do return (← rows (.unary op e i)) + (← i.totalRows)
  | .join j e l r => do return (← rows (.join j e l r)) + (← l.totalRows) + (← r.totalRows)

/-- Costs are counts of rows. -/
def Valuation.cumulative (estimate : Derivation ν) : Valuation ν where
  estimate := estimate
  base := Prospect.totalRows
  join p left right := do return (← p.rows) + left + right

/-- The standard cost model goes by prospects. -/
theorem Valuation.governs_cumulative {estimate : Derivation ν} {estimator : Estimator ν σ}
    (hest : ∀ n inputs env, ∃ env',
      estimator n inputs env = Action.ofExcept (estimate n.bare inputs) env') :
    (cumulative estimate).Governs estimator .cumulative := by
  have hrows {M : Memo ν} {h : Stock} {n : Node} (hn : h.has n) :
      Answers (Estimates.Extends M estimate h) (CostModel.rows estimator n)
        (n.prospect M estimate).rows := (answers_prospect hest hn).bind fun _ _ => .pure _
  refine ⟨hest, fun M h n hn => ?_, fun M h n l r hn => (hrows hn).bind fun _ _ => .pure _⟩
  induction n with
  | scan => exact hrows hn
  | unary tag op i ih =>
    have hi := h.input hn (List.mem_singleton_self i)
    exact (hrows hn).bind fun _ _ => (ih hi).bind fun _ _ => .pure _
  | join tag j l r ihl ihr =>
    have hl := h.input hn (List.mem_cons_self ..)
    have hr := h.input hn (List.mem_cons_of_mem _ (List.mem_singleton_self r))
    exact (hrows hn).bind fun _ _ => (ihl hl).bind fun _ _ => (ihr hr).bind fun _ _ => .pure _

def Catalog.estimator (c : Catalog ν) : Estimator ν σ := fun n inputs =>
  Action.ofExcept (c.estimate n inputs)

theorem Catalog.estimate_bare (c : Catalog ν) (n : Node) (inputs : List (Statistics ν)) :
    c.estimate n.bare inputs = c.estimate n inputs := by
  match n, inputs with
  | .scan .., _ => rfl
  | .unary _ op _, [] => cases op <;> rfl
  | .unary _ (.filter _) _, _ :: _ => rfl
  | .unary _ (.project _) _, _ :: _ => rfl
  | .unary _ (.limit _) _, _ :: _ => rfl
  | .join .., [] => rfl
  | .join .., [_] => rfl
  | .join _ j left _, l :: r :: _ =>
    change Except.ok (l.join left.bare.produces r j) = _
    rw [left.produces_bare]
    rfl

theorem Catalog.estimator_eq (c : Catalog ν) (n : Node) (inputs : List (Statistics ν)) (env : σ) :
    ∃ env', c.estimator n inputs env = Action.ofExcept (c.estimate n.bare inputs) env' :=
  ⟨env, by rw [c.estimate_bare]; rfl⟩

/-- Plans that are estimated from a catalog and cost the rows of their operators. -/
theorem Valuation.governs_catalog (c : Catalog ν) :
    (cumulative c.estimate).Governs (c.estimator : Estimator ν σ) .cumulative :=
  governs_cumulative c.estimator_eq

end Cumulative

end JoinOrder
