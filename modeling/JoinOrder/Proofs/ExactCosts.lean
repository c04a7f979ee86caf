import JoinOrder.Proofs.Costs
import JoinOrder.Proofs.Reliable
import JoinOrder.Rule

/-!
# Exact costs

Natural numbers are an exact scale of costs: any two compare. Estimators and cost models that
give always the same are reliable; their costs may be below the ceiling or not.
-/

namespace JoinOrder

instance : Quantity ℕ where
  ofNat n := n
  lesser := min
  greater := max

instance : CostScale ℕ where
  compare? a b := some (compare a b)
  ceiling := 1000

theorem less_nat {a b : ℕ} : CostScale.less a b = decide (a < b) := by
  change (some (compare a b) == some .lt) = _
  rw [Bool.eq_iff_iff]
  simp [Nat.compare_eq_lt]

instance : AsymmetricCosts ℕ where
  asymm a b h := by
    rw [less_nat, decide_eq_true_iff] at h
    rw [less_nat, decide_eq_false_iff_not]
    omega

instance : NumericCosts ℕ where
  comparable _ _ _ _ := rfl
  swap a b h := by
    rw [show CostScale.compare? a b = some (compare a b) from rfl, Option.some.injEq] at h
    rw [show CostScale.compare? b a = some (compare b a) from rfl, Option.some.injEq,
      Nat.compare_eq_lt]
    exact Nat.compare_eq_gt.1 h

instance : OrderedCosts ℕ where
  trans a b c hab hbc := by
    rw [less_nat, decide_eq_true_iff] at hab hbc ⊢
    omega

instance : LinearCosts ℕ where
  number _ _ := rfl
  trans a b c _ _ _ hab hbc := by
    rw [less_nat, decide_eq_false_iff_not] at hab hbc ⊢
    omega

/-- Exact costs are ranked without a panic. -/
theorem not_rankingPanics {σ : Type} (estimator : Estimator ℕ σ) (model : CostModel ℕ σ)
    (members : List Node) : ¬ RankingPanics estimator model members := by
  rintro ⟨a, b, trees, -, hr⟩
  rw [ranked_of_pairs fun _ _ _ _ => rfl] at hr
  cases hr

variable {ν σ : Type}

/-- Every plan has the same estimate. -/
def Estimator.constant (s : Statistics ν) : Estimator ν σ := fun _ _ => pure s

/-- Every member has one cost, and every join another one. -/
def CostModel.constant (member join : ν) : CostModel ν σ :=
  ⟨fun _ _ => pure member, fun _ _ _ _ => pure join⟩

theorem reliable_constant (s : Statistics ν) (member join : ν) (edges : List Edge) :
    Search.Reliable (σ := σ) ⟨.constant s, .constant member join, edges⟩ where
  estimator _ _ := .pure s
  base _ := .pure member
  join _ _ _ := .pure join

theorem less_of_constant {member join c : ℕ} {estimator : Estimator ℕ σ} {n : Node} {l r : ℕ}
    {e e' : Estimates ℕ σ} (hjoin : join < 1000)
    (h : (CostModel.constant member join).join estimator n l r e = .ok c e') :
    CostScale.less c CostScale.ceiling = true := by
  rw [less_nat, ← (Action.pure_eq_ok.1 h).1]
  exact decide_eq_true hjoin

/-- The result of a step, if it succeeds. -/
def Action.result? {τ α : Type} (x : Action τ α) (a : τ) : Option α :=
  match x a with
  | .ok r _ => some r
  | .error _ _ => none

theorem Action.of_result? {τ α : Type} {x : Action τ α} {a : τ} {r : α} (h : x.result? a = some r) :
    ∃ b, x a = .ok r b := by
  unfold result? at h
  split at h
  · rename_i b hr
    cases h
    exact ⟨b, hr⟩
  · cases h

theorem Action.exists_of_result? {τ α : Type} {x : Action τ α} {a : τ}
    (h : (x.result? a).isSome = true) : ∃ r b, x a = .ok r b := by
  obtain ⟨r, hr⟩ := Option.isSome_iff_exists.1 h
  exact ⟨r, of_result? hr⟩

/-- A context with exact costs, in which every plan has ten rows. -/
def Context.constant (join : ℕ) : Context ℕ Unit :=
  ⟨.constant (.ofRows 10), .constant 10 join, {}⟩

/-- A session in which nothing has been estimated and the next node has this number. -/
def Session.unused (next : ℕ) : Session ℕ Unit := ⟨⟨next, next⟩, ⟨Memo.empty, ()⟩⟩

/-- Two tables joined on one equality. -/
def Node.twoTables : Node :=
  .join ⟨2, 2⟩ ⟨.inner, [⟨⟨"a", "x"⟩, ⟨"b", "y"⟩⟩], []⟩ (.scan ⟨0, 0⟩ (.ofNames "a" ["x"] none))
    (.scan ⟨1, 1⟩ (.ofNames "b" ["y"] none))

/-- Four tables. -/
def fourTables : List Node :=
  [.scan ⟨0, 0⟩ (.ofNames "a" ["x"] none), .scan ⟨1, 1⟩ (.ofNames "b" ["y"] none),
    .scan ⟨2, 2⟩ (.ofNames "c" ["z"] none), .scan ⟨3, 3⟩ (.ofNames "d" ["w"] none)]

/-- A search in which every two of the first three tables are connected. The ends of the edges are in
any order. -/
def Search.triangle : Search ℕ Unit :=
  ⟨.constant (.ofRows 10), .constant 10 1,
    [⟨⟨"b", "y"⟩, ⟨"a", "x"⟩⟩, ⟨⟨"b", "y"⟩, ⟨"c", "z"⟩⟩, ⟨⟨"c", "z"⟩, ⟨"a", "x"⟩⟩]⟩

end JoinOrder
