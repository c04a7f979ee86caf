import Mathlib.Algebra.Order.Field.Basic
import Mathlib.Algebra.Order.Field.Rat
import Mathlib.Tactic.NormNum
import JoinOrder.Proofs.Lookups

/-!
# Bounds on estimates

Over the rational numbers the estimates of a plan stay within bounds, if those of its tables do: no
count is negative, and no column has more distinct values than there are rows (`Bounded`). What an
operator may do to the rows of its inputs is `Node.RowsWithin`. Both are shown for one operator first
(`Catalog.bounded_of_estimate`), and then along a plan (`Catalog.bounds_of_plan`).
-/

namespace JoinOrder

instance : Quantity ℚ where
  ofNat n := n
  lesser := min
  greater := max

namespace Quantity
variable {x y : ℚ}

theorem mul_mem_unit (hx : x ∈ Set.Icc 0 1) (hy : y ∈ Set.Icc 0 1) : x * y ∈ Set.Icc 0 1 :=
  ⟨mul_nonneg hx.1 hy.1, mul_le_one₀ hx.2 hy.1 hy.2⟩

theorem powerLoop_mem_unit (fuel : Nat) (hx : x ∈ Set.Icc 0 1) (hy : y ∈ Set.Icc 0 1) (n : Nat) :
    powerLoop fuel x y n ∈ Set.Icc 0 1 := by
  induction fuel generalizing x y n with
  | zero => exact hx
  | succ fuel ih =>
    have hacc : (if n % 2 = 1 then x * y else x) ∈ Set.Icc (0 : ℚ) 1 := by
      split
      · exact mul_mem_unit hx hy
      · exact hx
    rw [powerLoop]
    split
    · exact hacc
    · exact ih hacc (mul_mem_unit hy hy) (n / 2)

theorem selectivity_mem_unit : (selectivity : ℚ) ∈ Set.Icc 0 1 := by
  have h : (selectivity : ℚ) = 4 / 5 := rfl
  rw [h]
  constructor <;> norm_num

/-- However many conditions there are, they keep a part of the rows. -/
theorem power_selectivity_mem_unit (n : Nat) : power (selectivity : ℚ) n ∈ Set.Icc 0 1 :=
  powerLoop_mem_unit (n + 1) ⟨zero_le_one, le_rfl⟩ selectivity_mem_unit n

end Quantity

namespace Statistics

/-- No count is negative, and no column has more distinct values than there are rows. -/
structure Bounded (s : Statistics ℚ) : Prop where
  rows : 0 ≤ s.rows
  distinct {c : Column} {d : ℚ} (h : s.distinct? c = some d) : 0 ≤ d ∧ d ≤ s.rows

/-- The number that all pairs of rows are divided by in a join with edges. -/
def divisor {ν : Type} [Quantity ν] (onLeft : Column → Bool) (left right : Statistics ν)
    (edges : List Edge) : ν :=
  Quantity.greater (joinKey onLeft left right edges) Quantity.one

variable {s l r : Statistics ℚ} {onLeft : Column → Bool} {j : Join}

/-- Whatever the rows are scaled to, they bound the distinct values again. -/
theorem bounded_scaleTo {rows : ℚ} (hrows : 0 ≤ rows)
    (hs : ∀ c d, s.distinct? c = some d → 0 ≤ d) : (s.scaleTo rows).Bounded where
  rows := hrows
  distinct {c d} h := by
    rw [distinct?_scaleTo, Option.map_eq_some_iff] at h
    obtain ⟨k, hk, rfl⟩ := h
    exact ⟨le_min (hs c k hk) hrows, min_le_right k rows⟩

namespace Bounded

theorem ofRows {rows : ℚ} (h : 0 ≤ rows) : (ofRows rows).Bounded := ⟨h, nofun⟩

theorem withDistinct (hs : s.Bounded) {c : Column} {count : ℚ} (h : 0 ≤ count ∧ count ≤ s.rows) :
    (s.withDistinct c count).Bounded where
  rows := hs.rows
  distinct {d k} hk := by
    rw [distinct?_withDistinct] at hk
    split at hk
    · cases hk
      exact h
    · exact hs.distinct hk

theorem filter (hs : s.Bounded) (n : Nat) : (s.filter n).Bounded ∧ (s.filter n).rows ≤ s.rows := by
  obtain ⟨hlow, hhigh⟩ := Quantity.power_selectivity_mem_unit n
  exact ⟨bounded_scaleTo (mul_nonneg hs.rows hlow) fun _ _ h => (hs.distinct h).1,
    mul_le_of_le_one_right hs.rows hhigh⟩

theorem project (hs : s.Bounded) (columns : List Column) : (s.project columns).Bounded where
  rows := hs.rows
  distinct {c d} h := by
    rw [distinct?_project] at h
    split at h
    · exact hs.distinct h
    · cases h

theorem limit (hs : s.Bounded) (n : Nat) :
    (s.limit n).Bounded ∧ (s.limit n).rows ≤ s.rows ∧ (s.limit n).rows ≤ n :=
  ⟨bounded_scaleTo (le_min hs.rows n.cast_nonneg) fun _ _ h => (hs.distinct h).1,
    min_le_left s.rows n, min_le_right s.rows n⟩

end Bounded

theorem one_le_divisor (edges : List Edge) : 1 ≤ divisor onLeft l r edges := le_max_right _ 1

/-- Pairs are divided by the divisor if there are edges, and reduced if there are residual
conditions. -/
theorem matchingRows_eq (onLeft : Column → Bool) (l r : Statistics ℚ) (j : Join) :
    matchingRows onLeft l r j =
      l.rows * r.rows / (if j.edges = [] then 1 else divisor onLeft l r j.edges) *
        (if j.residuals = [] then 1 else Quantity.selectivity) := by
  unfold matchingRows divisor
  cases j.edges <;> cases j.residuals <;> simp

/-- A join matches at most all pairs of rows. -/
theorem matchingRows_mem (onLeft : Column → Bool) (hl : 0 ≤ l.rows) (hr : 0 ≤ r.rows) (j : Join) :
    matchingRows onLeft l r j ∈ Set.Icc 0 (l.rows * r.rows) := by
  have hpairs : 0 ≤ l.rows * r.rows := mul_nonneg hl hr
  have hdivisor : 1 ≤ if j.edges = [] then 1 else divisor onLeft l r j.edges := by
    split
    · exact le_rfl
    · exact one_le_divisor j.edges
  have hkept : (if j.residuals = [] then 1 else Quantity.selectivity) ∈ Set.Icc (0 : ℚ) 1 := by
    split
    · exact ⟨zero_le_one, le_rfl⟩
    · exact Quantity.selectivity_mem_unit
  have hkeyed := div_nonneg hpairs (zero_le_one.trans hdivisor)
  rw [matchingRows_eq]
  constructor
  · exact mul_nonneg hkeyed hkept.1
  · exact (mul_le_of_le_one_right hkeyed hkept.2).trans (div_le_self hpairs hdivisor)

/-- How the kind of a join bounds its rows: it has at most all pairs, or at least the rows of every
side that it keeps. -/
def JoinRowsWithin (kind : JoinKind) (rows : ℚ) (l r : Statistics ℚ) : Prop :=
  match kind with
  | .inner => rows ≤ l.rows * r.rows
  | .left => l.rows ≤ rows
  | .right => r.rows ≤ rows
  | .full => l.rows ≤ rows ∧ r.rows ≤ rows

theorem joinRows_within (onLeft : Column → Bool) (hl : 0 ≤ l.rows) (hr : 0 ≤ r.rows) (j : Join) :
    0 ≤ joinRows onLeft l r j ∧ JoinRowsWithin j.kind (joinRows onLeft l r j) l r := by
  obtain ⟨hlow, hhigh⟩ := matchingRows_mem onLeft hl hr j
  unfold joinRows JoinRowsWithin
  cases j.kind with
  | inner => exact ⟨hlow, hhigh⟩
  | left => exact ⟨hl.trans (le_max_right ..), le_max_right ..⟩
  | right => exact ⟨hr.trans (le_max_right ..), le_max_right ..⟩
  | full =>
    have hsides : max l.rows r.rows ≤ max (matchingRows onLeft l r j) (max l.rows r.rows) :=
      le_max_right ..
    exact ⟨hlow.trans (le_max_left ..), (le_max_left ..).trans hsides, (le_max_right ..).trans hsides⟩

theorem Bounded.join (hl : l.Bounded) (hr : r.Bounded) (onLeft : Column → Bool) (j : Join) :
    (l.join onLeft r j).Bounded := by
  refine bounded_scaleTo (joinRows_within onLeft hl.rows hr.rows j).1 fun c d h => ?_
  have hside := (lookup_distinctOfEither l r c).symm.trans h
  rcases Option.or_eq_some_iff.1 hside with h | ⟨-, h⟩
  · exact (hr.distinct h).1
  · exact (hl.distinct h).1

end Statistics

/-- How the rows of an operator are bounded by the estimates of its inputs. In a join with edges all
pairs of rows are divided by at least one. -/
def Node.RowsWithin : Node → (rows : ℚ) → (inputs : List (Statistics ℚ)) → Prop
  | .scan _ t, rows, _ => ∀ count, t.limit = some count → rows ≤ count
  | .unary _ (.filter _) _, rows, inputs => ∀ i ∈ inputs, rows ≤ i.rows
  | .unary _ (.project _) _, rows, inputs => ∀ i ∈ inputs, rows ≤ i.rows
  | .unary _ (.limit count) _, rows, inputs => rows ≤ count ∧ ∀ i ∈ inputs, rows ≤ i.rows
  | .join _ j left _, rows, inputs => ∃ l r, inputs = [l, r] ∧
      Statistics.JoinRowsWithin j.kind rows l r ∧
      (j.edges ≠ [] → 1 ≤ Statistics.divisor left.produces l r j.edges ∧
        Statistics.matchingRows left.produces l r j =
          l.rows * r.rows / Statistics.divisor left.produces l r j.edges *
            if j.residuals = [] then 1 else Quantity.selectivity)

/-- Induction from the inputs of a node to the node. -/
theorem Node.input_induction {P : Node → Prop} (step : ∀ n : Node, (∀ i ∈ n.inputs, P i) → P n)
    (n : Node) : P n := by
  induction n with
  | scan => exact step _ nofun
  | unary tag op i ih => exact step _ (List.forall_mem_singleton.2 ih)
  | join tag j l r ihl ihr =>
    exact step _ (List.forall_mem_cons.2 ⟨ihl, List.forall_mem_singleton.2 ihr⟩)

/-- A plan is estimated from the estimates of its inputs, taken from left to right. -/
theorem derived?_eq {ν : Type} (estimate : Derivation ν) (n : Node) :
    derived? estimate n = n.inputs.mapM (derived? estimate) >>= estimate n := by
  cases n with
  | scan => rfl
  | unary => simp [derived?, Node.inputs]
  | join => simp [derived?, Node.inputs]

theorem mapM_eq_ok {ε α β : Type} {f : α → Except ε β} {P : β → Prop} {as : List α}
    (h : ∀ x ∈ as, ∃ y, f x = .ok y ∧ P y) :
    ∃ ys, as.mapM f = .ok ys ∧ ys.length = as.length ∧ ∀ y ∈ ys, P y := by
  induction as with
  | nil => exact ⟨[], rfl, rfl, nofun⟩
  | cons x as ih =>
    obtain ⟨⟨y, hy, hp⟩, hrest⟩ := List.forall_mem_cons.1 h
    obtain ⟨ys, hys, hlen, hps⟩ := ih hrest
    refine ⟨y :: ys, ?_, congrArg Nat.succ hlen, List.forall_mem_cons.2 ⟨hp, hps⟩⟩
    rw [List.mapM_cons, hy, hys]
    rfl

namespace Catalog
variable {c : Catalog ℚ} {n p : Node}

/-- The estimates of all tables are within bounds. -/
def Bounded (c : Catalog ℚ) : Prop := ∀ t s, c.find? t = some s → s.Bounded

theorem Bounded.empty : (Catalog.empty : Catalog ℚ).Bounded := nofun

theorem Bounded.insert (hc : c.Bounded) (table : String) {s : Statistics ℚ} (hs : s.Bounded) :
    (c.insert table s).Bounded := by
  intro t s' h
  change ((table, s) :: c.entries).lookup t = some s' at h
  rw [List.lookup_cons] at h
  split at h
  · cases h
    exact hs
  · exact hc t s' h

/-- An operator over inputs within bounds can be estimated, and is within bounds. -/
theorem bounded_of_estimate (hc : c.Bounded) {inputs : List (Statistics ℚ)}
    (hinputs : inputs.length = n.inputs.length) (hbounded : ∀ i ∈ inputs, i.Bounded)
    (hn : ∀ t, n.table? = some t → (c.find? t).isSome) :
    ∃ s, c.estimate n inputs = .ok s ∧ s.Bounded ∧ n.RowsWithin s.rows inputs := by
  cases n with
  | scan tag t =>
    obtain ⟨stored, hstored⟩ := Option.isSome_iff_exists.1 (hn t.table rfl)
    have hs := hc t.table stored hstored
    simp only [estimate, hstored, Node.RowsWithin]
    cases t.limit with
    | none => exact ⟨stored, rfl, hs, nofun⟩
    | some count =>
      obtain ⟨hlimited, -, hcount⟩ := hs.limit count
      exact ⟨_, rfl, hlimited, fun _ heq => Option.some.inj heq ▸ hcount⟩
  | unary tag op input =>
    obtain ⟨i, rfl⟩ := List.length_eq_one_iff.1 hinputs
    have hi := hbounded i (List.mem_singleton_self i)
    cases op with
    | filter conditions =>
      obtain ⟨hs, hle⟩ := hi.filter conditions.length
      exact ⟨_, rfl, hs, List.forall_mem_singleton.2 hle⟩
    | project columns => exact ⟨_, rfl, hi.project columns, List.forall_mem_singleton.2 le_rfl⟩
    | limit count =>
      obtain ⟨hs, hle, hcount⟩ := hi.limit count
      exact ⟨_, rfl, hs, hcount, List.forall_mem_singleton.2 hle⟩
  | join tag j left right =>
    obtain ⟨l, r, rfl⟩ := List.length_eq_two.1 hinputs
    have hl := hbounded l (List.mem_cons_self ..)
    have hr := hbounded r (List.mem_cons_of_mem _ (List.mem_singleton_self r))
    refine ⟨_, rfl, hl.join hr left.produces j, l, r, rfl, ?_, fun hj => ?_⟩
    · exact (Statistics.joinRows_within left.produces hl.rows hr.rows j).2
    · refine ⟨Statistics.one_le_divisor j.edges, ?_⟩
      rw [Statistics.matchingRows_eq, if_neg hj]

theorem derived?_bare {ν : Type} [Quantity ν] (c : Catalog ν) (n : Node) :
    derived? c.estimate n.bare = derived? c.estimate n := by
  induction n with
  | scan => rfl
  | unary tag op i ih =>
    rw [Node.bare, derived?, derived?, ih]
    exact congrArg _ (funext fun s => c.estimate_bare (.unary tag op i) [s])
  | join tag j l r ihl ihr =>
    rw [Node.bare, derived?, derived?, ihl, ihr]
    exact congrArg _ (funext fun s => congrArg _ (funext fun t =>
      c.estimate_bare (.join tag j l r) [s, t]))

/-- Every plan over tables of the catalog has an estimate, and it is within bounds. -/
theorem bounded_of_derived (hc : c.Bounded) (hn : ∀ t ∈ n.tables, (c.find? t).isSome) :
    ∃ s ss, derived? c.estimate n = .ok s ∧ n.inputs.mapM (derived? c.estimate) = .ok ss ∧
      s.Bounded ∧ n.RowsWithin s.rows ss := by
  induction n using Node.input_induction with
  | step n ih =>
    have htables {m : Node} (hm : m ∈ n.preorder) : ∀ t ∈ m.tables, (c.find? t).isSome :=
      fun t ht => hn t (Node.tables_subset hm ht)
    have hinputs : ∀ i ∈ n.inputs, ∃ s, derived? c.estimate i = .ok s ∧ s.Bounded := fun i hi => by
      obtain ⟨s, -, hs, -, hbounded, -⟩ :=
        ih i hi (htables (Node.mem_preorder_of_input hi i.mem_preorder_self))
      exact ⟨s, hs, hbounded⟩
    obtain ⟨ss, hss, hlen, hbounded⟩ := mapM_eq_ok hinputs
    obtain ⟨s, hs, hs', hrows⟩ := bounded_of_estimate (n := n) hc hlen hbounded fun t ht =>
      hn t (Node.mem_tables_iff.2 ⟨n, n.mem_preorder_self, ht⟩)
    refine ⟨s, ss, ?_, hss, hs', hrows⟩
    rw [derived?_eq, hss]
    exact hs

/-- Every node of a plan over tables of the catalog is estimated within bounds, whatever has been
estimated from the catalog before. -/
theorem bounds_of_plan (hc : c.Bounded) (hp : ∀ t ∈ p.tables, (c.find? t).isSome) :
    ∀ n ∈ p.preorder, ∃ s ss, derived? c.estimate n = .ok s ∧
      n.inputs.mapM (derived? c.estimate) = .ok ss ∧ s.Bounded ∧ n.RowsWithin s.rows ss ∧
      ∀ {σ : Type} (h : Heap) (e : Estimates ℚ σ), h.Holds p → e.Accords c.estimate h →
        ∃ e', Estimating.estimate c.estimator n e = .ok s e' ∧ e'.Accords c.estimate h := by
  intro n hn
  obtain ⟨s, ss, hs, hss, hbounded, hrows⟩ :=
    bounded_of_derived hc fun t ht => hp t (Node.tables_subset hn ht)
  refine ⟨s, ss, hs, hss, hbounded, hrows, fun h e hh he => ?_⟩
  obtain ⟨e', hrun, he'⟩ := answers_estimate c.estimator_eq (hh.sub hn) e he
  rw [derived?_bare, hs] at hrun
  exact ⟨e', hrun, he'⟩

/-- Three tables, of which one is empty and one has a fraction of a row. -/
def fractional : Catalog ℚ :=
  ((Catalog.empty.insert "a" ((Statistics.ofRows 10).withDistinct ⟨"a", "x"⟩ 7)).insert "b"
    (.ofRows (5 / 2))).insert "c" (.ofRows 0)

theorem bounds_of_plan_outerTables : fractional.Bounded ∧
    (∀ t ∈ outerTables.tables, (fractional.find? t).isSome) ∧
    (Heap.ofPlan 5 outerTables).Holds outerTables ∧
    ∃ (s : Statistics ℚ) (ss : List (Statistics ℚ)) (e : Estimates ℚ Unit),
      Estimating.estimate fractional.estimator outerTables ⟨Memo.empty, ()⟩ = .ok s e ∧
        s.Bounded ∧ outerTables.RowsWithin s.rows ss := by
  have ha : ((Statistics.ofRows 10).withDistinct ⟨"a", "x"⟩ (7 : ℚ)).Bounded :=
    (Statistics.Bounded.ofRows (by norm_num)).withDistinct ⟨by norm_num, by
      change (7 : ℚ) ≤ 10
      norm_num⟩
  have hc : fractional.Bounded :=
    ((Bounded.empty.insert "a" ha).insert "b" (.ofRows (by norm_num))).insert "c" (.ofRows le_rfl)
  have hp : ∀ t ∈ outerTables.tables, (fractional.find? t).isSome := by decide
  have hh : (Heap.ofPlan 5 outerTables).Holds outerTables :=
    Heap.holds_ofPlan (by decide) (by decide)
  obtain ⟨s, ss, -, -, hbounded, hrows, hrun⟩ := bounds_of_plan hc hp _ outerTables.mem_preorder_self
  obtain ⟨e, he, -⟩ := hrun _ ⟨Memo.empty, ()⟩ hh ⟨nofun, nofun⟩
  exact ⟨hc, hp, hh, s, ss, e, he, hbounded, hrows⟩

end Catalog

end JoinOrder
