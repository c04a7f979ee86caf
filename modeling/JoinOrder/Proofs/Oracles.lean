import JoinOrder.Proofs.Heap

/-!
# Answers that go by structure

An oracle tells what collaborators answer, be it a value or a failure, where the answers go by the
structure of plans and the estimates of inputs alone (`Oracle.Governs`). What is remembered then
plays no part, as long as it accords with the oracle (`answers_estimate`). The standard cost model is
governed if the estimator is (`governs_cumulative`).
-/

namespace JoinOrder

/-- How an operator is estimated from the estimates of its inputs, if it can be. -/
abbrev Derivation (ν : Type) := Node → List (Statistics ν) → Except Failure (Statistics ν)

/-- What the collaborators answer. -/
structure Oracle (ν : Type) where
  estimate : Derivation ν
  base : Node → Except Failure ν
  join : Node → (left right : ν) → Except Failure ν

/-- The estimate of a plan that is derived operator by operator, or the failure of the first operator
for which there is none. -/
def derived? {ν : Type} (estimate : Derivation ν) : Node → Except Failure (Statistics ν)
  | .scan tag s => estimate (.scan tag s) []
  | .unary tag op input => do
    let i ← derived? estimate input
    estimate (.unary tag op input) [i]
  | .join tag j left right => do
    let l ← derived? estimate left
    let r ← derived? estimate right
    estimate (.join tag j left right) [l, r]

section Answers
variable {ν σ τ α β : Type} {I : Estimates ν σ → Prop}

/-- The step gives this answer, and what holds of the estimates before holds after. -/
def Answers (I : Estimates ν σ → Prop) (x : Estimating ν σ α) (answer : Except Failure α) : Prop :=
  ∀ e, I e → ∃ e', x e = Action.ofExcept answer e' ∧ I e'

theorem Answers.pure (r : α) : Answers I (Pure.pure r) (.ok r) := fun e he => ⟨e, rfl, he⟩

theorem Answers.bind {x : Estimating ν σ α} {k : α → Estimating ν σ β} {answer : Except Failure α}
    {next : α → Except Failure β} (hx : Answers I x answer)
    (hk : ∀ r, answer = .ok r → Answers I (k r) (next r)) :
    Answers I (x >>= k) (answer >>= next) := fun e he => by
  obtain ⟨e', hr, he'⟩ := hx e he
  cases answer with
  | error f => exact ⟨e', Action.bind_eq_error.2 (.inl hr), he'⟩
  | ok r =>
    obtain ⟨e'', hc, he''⟩ := hk r rfl e' he'
    refine ⟨e'', ?_, he''⟩
    change EStateM.bind x k e = Action.ofExcept (next r) e''
    unfold EStateM.bind
    rw [hr]
    exact hc

theorem answers_ofEnv {x : Action σ (Statistics ν)} {answer : Except Failure (Statistics ν)}
    (hI : ∀ e env, I e → I { e with env })
    (hx : ∀ env, ∃ env', x env = Action.ofExcept answer env') :
    Answers I (Estimating.ofEnv x) answer := fun e he => by
  obtain ⟨env', hs⟩ := hx e.env
  refine ⟨{ e with env := env' }, ?_, hI e env' he⟩
  unfold Estimating.ofEnv Action.onPart
  rw [hs]
  cases answer <;> rfl

/-- What is remembered has to be the answer, and if the cell may be empty, the answer has to be
found. -/
theorem answers_remember {c : Nat} {x : Estimating ν σ (Statistics ν)}
    {answer : Except Failure (Statistics ν)}
    (hsome : ∀ e s, I e → e.memo c = some s → answer = .ok s)
    (hinsert : ∀ e s, I e → answer = .ok s → I { e with memo := e.memo.insert c s })
    (hx : (∃ e, I e ∧ e.memo c = none) → Answers I x answer) :
    Answers I (Estimating.remember c x) answer := fun e he => by
  unfold Estimating.remember
  cases hm : e.memo c with
  | some s =>
    refine ⟨e, ?_, he⟩
    rw [hsome e s he hm]
    refine Action.bind_eq_ok.2 ⟨e, e, rfl, ?_⟩
    rw [hm]
    rfl
  | none =>
    obtain ⟨e', hs, he'⟩ := hx ⟨e, he, hm⟩ e he
    cases answer with
    | error f =>
      refine ⟨e', Action.bind_eq_error.2 (.inr ⟨e, e, rfl, ?_⟩), he'⟩
      rw [hm]
      exact Action.bind_eq_error.2 (.inl hs)
    | ok s =>
      refine ⟨_, Action.bind_eq_ok.2 ⟨e, e, rfl, ?_⟩, hinsert e' s he' rfl⟩
      rw [hm]
      exact Action.bind_eq_ok.2 ⟨_, e', hs, rfl⟩

/-- A plan is estimated as it is derived if its nodes are, and what is remembered of them is right. -/
theorem answers_derived {estimate : Derivation ν} {estimator : Estimator ν σ} {n : Node}
    (hsome : ∀ m ∈ n.preorder, ∀ e s, I e → e.memo m.cell = some s →
      derived? estimate m.bare = .ok s)
    (hinsert : ∀ m ∈ n.preorder, ∀ e s, I e → derived? estimate m.bare = .ok s →
      I { e with memo := e.memo.insert m.cell s })
    (hcall : ∀ m ∈ n.preorder, ∀ inputs,
      Answers I (Estimating.ofEnv (estimator m inputs)) (estimate m.bare inputs)) :
    Answers I (Estimating.estimate estimator n) (derived? estimate n.bare) := by
  have hself {m : Node} {x : Estimating ν σ (Statistics ν)} (hm : m ∈ n.preorder)
      (hx : Answers I x (derived? estimate m.bare)) :
      Answers I (Estimating.remember m.cell x) (derived? estimate m.bare) :=
    answers_remember (hsome m hm) (hinsert m hm) fun _ => hx
  have hinput {m i : Node} (hm : m ∈ n.preorder) (hi : i ∈ m.inputs) : i ∈ n.preorder :=
    Node.mem_preorder_trans (Node.mem_preorder_of_input hi i.mem_preorder_self) hm
  suffices h : ∀ m ∈ n.preorder, Answers I (Estimating.estimate estimator m)
      (derived? estimate m.bare) from h n n.mem_preorder_self
  intro m hm
  induction m with
  | scan => exact hself hm (hcall _ hm _)
  | unary tag op i ih =>
    have hi := hinput hm (List.mem_singleton_self i)
    exact hself hm ((ih hi).bind fun _ _ => hcall _ hm _)
  | join tag j l r ihl ihr =>
    have hl := hinput hm (List.mem_cons_self ..)
    have hr := hinput hm (List.mem_cons_of_mem _ (List.mem_singleton_self r))
    exact hself hm ((ihl hl).bind fun _ _ => (ihr hr).bind fun _ _ => hcall _ hm _)

/-- The estimates of two runs, of which different things may hold. -/
def beside (I : Estimates ν σ → Prop) (J : Estimates ν τ → Prop) (oneSided : Prop) :
    Correspondence Unit (Estimates ν σ) (Estimates ν τ) where
  holds _ e e' := I e ∧ J e'
  fails _ _ _ _ := True
  oneSided := oneSided

/-- Both answers are the same. If only one side counts, a failure goes with any answer. -/
def Concur (oneSided : Prop) (answer answer' : Except Failure α) : Prop :=
  answer = answer' ∨ oneSided ∧ ∃ f, answer = .error f

theorem Concur.bind {oneSided : Prop} {answer answer' : Except Failure α}
    {next next' : α → Except Failure β} (h : Concur oneSided answer answer')
    (hnext : ∀ r, Concur oneSided (next r) (next' r)) :
    Concur oneSided (answer >>= next) (answer' >>= next') := by
  rcases h with rfl | ⟨hone, f, rfl⟩
  · cases answer with
    | error f => exact .inl rfl
    | ok r => exact hnext r
  · exact .inr ⟨hone, f, rfl⟩

theorem relates_answers {J : Estimates ν τ → Prop} {x : Estimating ν σ α} {y : Estimating ν τ α}
    {oneSided : Prop} {answer answer' : Except Failure α} {u : Unit}
    (h : Concur oneSided answer answer') (hx : Answers I x answer) (hy : Answers J y answer') :
    (beside I J oneSided).Relates u x y fun _ r s => r = s := by
  rintro a b ⟨ha, hb⟩
  obtain ⟨a', hx, ha'⟩ := hx a ha
  obtain ⟨b', hy, hb'⟩ := hy b hb
  rw [hx, hy]
  rcases h with rfl | ⟨hone, f, rfl⟩
  · cases answer with
    | ok r => exact .ok (v := ()) trivial ⟨ha', hb'⟩ rfl
    | error f => exact .error (v := ()) trivial trivial
  · exact .alone hone

end Answers

section Accord
variable {ν σ : Type} {estimate : Derivation ν} {h h' : Heap} {e : Estimates ν σ} {n : Node}

/-- What is remembered in a cell is the estimate of the plan that stands there. -/
structure Estimates.Accords (estimate : Derivation ν) (h : Heap) (e : Estimates ν σ) : Prop where
  size : ∀ c s, e.memo c = some s → c < h.size
  memo : ∀ c n s, h.node? c = some n → e.memo c = some s → derived? estimate n = .ok s

theorem Estimates.Accords.mono (ha : e.Accords estimate h) (hb : h.Before h') :
    e.Accords estimate h' :=
  ⟨fun c s hs => (ha.size c s hs).trans_le hb.size, fun c n s hn hs =>
    ha.memo c n s ((hb.node? c (ha.size c s hs)).symm.trans hn) hs⟩

theorem Estimates.Accords.insert {s : Statistics ν} (ha : e.Accords estimate h) (hn : h.Holds n)
    (hs : derived? estimate n.bare = .ok s) :
    Estimates.Accords estimate h { e with memo := e.memo.insert n.cell s } := by
  refine ⟨fun c t ht => ?_, fun c m t hm ht => ?_⟩
  · by_cases hc : c = n.cell
    · exact hc ▸ hn.self.1
    · exact ha.size c t ((if_neg hc).symm.trans ht)
  · by_cases hc : c = n.cell
    · rw [hc, hn.self.2] at hm
      cases hm
      rw [hs, Option.some.inj ((if_pos hc).symm.trans ht)]
    · exact ha.memo c m t hm ((if_neg hc).symm.trans ht)

theorem answers_estimate {estimator : Estimator ν σ}
    (hest : ∀ n inputs env, ∃ env',
      estimator n inputs env = Action.ofExcept (estimate n.bare inputs) env') (hn : h.Holds n) :
    Answers (Estimates.Accords estimate h) (Estimating.estimate estimator n)
      (derived? estimate n.bare) :=
  answers_derived (fun _ hm _ s he hs => he.memo _ _ s (hn.sub hm).self.2 hs)
    (fun _ hm _ _ he hs => he.insert (hn.sub hm) hs)
    fun m _ inputs => answers_ofEnv (fun _ _ he => ⟨he.size, he.memo⟩) (hest m inputs)

end Accord

/-- The collaborators answer as the oracle tells. -/
structure Oracle.Governs {ν σ : Type} (o : Oracle ν) (estimator : Estimator ν σ)
    (model : CostModel ν σ) : Prop where
  estimate : ∀ n inputs env, ∃ env',
    estimator n inputs env = Action.ofExcept (o.estimate n.bare inputs) env'
  base : ∀ (h : Heap) n, h.Holds n →
    Answers (Estimates.Accords o.estimate h) (model.base estimator n) (o.base n.bare)
  join : ∀ (h : Heap) n l r, h.Holds n →
    Answers (Estimates.Accords o.estimate h) (model.join estimator n l r) (o.join n.bare l r)

/-- Where the first oracle tells an answer, the second tells the same. If only one side counts, the
second may tell more. -/
structure Oracle.Matches {ν : Type} (oneSided : Prop) (o o' : Oracle ν) : Prop where
  estimate : ∀ n inputs, Concur oneSided (o.estimate n inputs) (o'.estimate n inputs)
  base : ∀ n, Concur oneSided (o.base n) (o'.base n)
  join : ∀ n l r, Concur oneSided (o.join n l r) (o'.join n l r)

theorem Oracle.Matches.refl {ν : Type} (o : Oracle ν) : o.Matches False o :=
  ⟨fun _ _ => .inl rfl, fun _ => .inl rfl, fun _ _ _ => .inl rfl⟩

theorem Oracle.Matches.derives {ν : Type} {oneSided : Prop} {o o' : Oracle ν}
    (h : o.Matches oneSided o') (n : Node) :
    Concur oneSided (derived? o.estimate n) (derived? o'.estimate n) := by
  induction n with
  | scan => exact h.estimate _ _
  | unary tag op i ih => exact ih.bind fun _ => h.estimate _ _
  | join tag j l r ihl ihr => exact ihl.bind fun _ => ihr.bind fun _ => h.estimate _ _

section Cumulative
variable {ν σ : Type} (estimate : Derivation ν)

def rows? (n : Node) : Except Failure ν := do return (← derived? estimate n).rows

theorem answers_rows {I : Estimates ν σ → Prop} {estimate : Derivation ν}
    {estimator : Estimator ν σ} {n : Node}
    (h : Answers I (Estimating.estimate estimator n) (derived? estimate n.bare)) :
    Answers I (CostModel.rows estimator n) (rows? estimate n.bare) := h.bind fun _ _ => .pure _

variable [Quantity ν]

def totalRows? : Node → Except Failure ν
  | .scan tag s => rows? estimate (.scan tag s)
  | .unary tag op input => do
    return (← rows? estimate (.unary tag op input)) + (← totalRows? input)
  | .join tag j left right => do
    return (← rows? estimate (.join tag j left right)) + (← totalRows? left) + (← totalRows? right)

theorem answers_totalRows {I : Estimates ν σ → Prop} {estimate : Derivation ν}
    {estimator : Estimator ν σ} {n : Node}
    (h : ∀ m ∈ n.preorder,
      Answers I (Estimating.estimate estimator m) (derived? estimate m.bare)) :
    Answers I (CostModel.totalRows estimator n) (totalRows? estimate n.bare) := by
  induction n with
  | scan => exact answers_rows (h _ (Node.mem_preorder_self _))
  | unary tag op i ih =>
    have hi := ih fun m hm => h m (List.mem_cons_of_mem _ hm)
    exact (answers_rows (h _ (Node.mem_preorder_self _))).bind fun _ _ => hi.bind fun _ _ => .pure _
  | join tag j l r ihl ihr =>
    have hl := ihl fun m hm => h m (List.mem_cons_of_mem _ (List.mem_append_left _ hm))
    have hr := ihr fun m hm => h m (List.mem_cons_of_mem _ (List.mem_append_right _ hm))
    exact (answers_rows (h _ (Node.mem_preorder_self _))).bind fun _ _ =>
      hl.bind fun _ _ => hr.bind fun _ _ => .pure _

/-- An oracle whose costs are counts of rows. -/
def Oracle.cumulative : Oracle ν where
  estimate := estimate
  base := totalRows? estimate
  join n left right := do return (← rows? estimate n) + left + right

/-- The standard cost model goes by structure if the estimator does. -/
theorem governs_cumulative {estimate : Derivation ν} {estimator : Estimator ν σ}
    (hest : ∀ n inputs env, ∃ env',
      estimator n inputs env = Action.ofExcept (estimate n.bare inputs) env') :
    (Oracle.cumulative estimate).Governs estimator .cumulative where
  estimate := hest
  base _ _ hn := answers_totalRows fun _ hm => answers_estimate hest (hn.sub hm)
  join _ _ _ _ hn := (answers_rows (answers_estimate hest hn)).bind fun _ _ => .pure _

end Cumulative

end JoinOrder
