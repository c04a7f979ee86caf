import JoinOrder.Proofs.ByShape
import JoinOrder.Proofs.Prospects
import JoinOrder.Proofs.Totality

/-!
# Reordering is idempotent

If the order of the conditions of a join plays no part in its cost, reordering a reordered plan
changes nothing, and passes over a plan end after the second one at the latest
(`Oracle.Governs.rewrite_idempotent`). Calls have to succeed, and costs have to be below the ceiling,
only as far as the two runs meet them (`Reorder.Affordable`). What other plans would cost, and whether
they can be estimated at all, does not matter.

Collaborators that answer only so far are compared with *bounded* ones, which refuse to tell any other
cost, and these with ones that answer everything, by some price where the bounded ones refuse. The
last are structural, and for them it is known (`Structural.rewrite_rewrite`).
-/

namespace JoinOrder

open CostScale

section Bounded
variable {ν σ : Type} [CostScale ν]

/-- The cost, if it is below the ceiling. -/
def CostScale.below? (c : ν) : Except Failure ν :=
  if less c ceiling then .ok c else .error (.collaborator "the cost is not below the ceiling")

theorem below_of_below? {c d : ν} (h : below? c = .ok d) : Below d := by
  unfold below? at h
  split at h
  · cases h
    assumption
  · cases h

theorem below?_of_below {c : ν} (h : Below c) : below? c = .ok c := if_pos h

/-- The step fails if the cost that it gives is not below the ceiling. -/
def Estimating.bounded (x : Estimating ν σ ν) : Estimating ν σ ν := do
  Action.ofExcept (below? (← x))

def CostModel.bounded (model : CostModel ν σ) : CostModel ν σ where
  base estimator n := (model.base estimator n).bounded
  join estimator n left right := (model.join estimator n left right).bounded

def Context.bounded (context : Context ν σ) : Context ν σ :=
  ⟨context.estimator, context.model.bounded, context.config⟩

def Oracle.bounded (o : Oracle ν) : Oracle ν where
  estimate := o.estimate
  base n := o.base n >>= below?
  join n left right := o.join n left right >>= below?

theorem below_of_bounded {x : Estimating ν σ ν} {c : ν} {e e' : Estimates ν σ}
    (h : x.bounded e = .ok c e') : Below c := by
  obtain ⟨d, u, -, h⟩ := Action.bind_eq_ok.1 h
  exact below_of_below? (Action.ofExcept_eq_ok.1 h).1

theorem total_bounded {x : Estimating ν σ ν} (hx : Action.Total x)
    (hbelow : ∀ e c e', x e = .ok c e' → Below c) : Action.Total x.bounded := fun e => by
  obtain ⟨c, e', hc⟩ := hx e
  refine ⟨c, e', Action.bind_eq_ok.2 ⟨c, e', hc, ?_⟩⟩
  rw [below?_of_below (hbelow e c e' hc)]
  rfl

theorem Oracle.Governs.bounded {o : Oracle ν} {context : Context ν σ}
    (h : o.Governs context.estimator context.model) :
    o.bounded.Governs context.bounded.estimator context.bounded.model where
  estimate := h.estimate
  base k n hn := (h.base k n hn).bind fun _ _ e he => ⟨e, rfl, he⟩
  join k n l r hn := (h.join k n l r hn).bind fun _ _ e he => ⟨e, rfl, he⟩

theorem concur_bounded (answer : Except Failure ν) : Concur True (answer >>= below?) answer := by
  cases answer with
  | error f => exact .inl rfl
  | ok c =>
    by_cases h : Below c
    · exact .inl (below?_of_below h)
    · exact .inr ⟨trivial, _, if_neg h⟩

theorem Oracle.matches_bounded (o : Oracle ν) : o.bounded.Matches True o :=
  ⟨fun _ _ => .inl rfl, fun _ => concur_bounded _, fun _ _ _ => concur_bounded _⟩

end Bounded

section Priced
variable {ν : Type} [CostScale ν] {o : Oracle ν} {c : ν}

/-- The order of its conditions plays no part in what a join costs. -/
def Oracle.IgnoresOrder {ν : Type} (o : Oracle ν) : Prop :=
  ∀ tag (es es' : List Edge) (rs rs' : List Expr) l r x y, es.Perm es' → rs.Perm rs' →
    o.join (.join tag ⟨.inner, es, rs⟩ l r) x y = o.join (.join tag ⟨.inner, es', rs'⟩ l r) x y

/-- The answers of the bounded oracle, and the price `c` where it gives none. -/
def Oracle.pricing (o : Oracle ν) (c : ν) : Pricing ν where
  base n := (o.bounded.base n).toOption.getD c
  join n left right := (o.bounded.join n left right).toOption.getD c

/-- The estimates of the oracle, and `c` rows where it has none. -/
def Oracle.deriving (o : Oracle ν) (c : ν) (n : Node) (inputs : List (Statistics ν)) : Statistics ν :=
  (o.estimate n inputs).toOption.getD (.ofRows c)

theorem below_getD (hc : Below c) (answer : Except Failure ν) :
    Below ((answer >>= below?).toOption.getD c) := by
  cases h : answer >>= below? with
  | error f => exact hc
  | ok d =>
    cases answer with
    | error f => cases h
    | ok b => exact below_of_below? h

theorem Oracle.lawful_pricing (ho : o.IgnoresOrder) (hc : Below c) : (o.pricing c).Lawful where
  base_below n := below_getD hc (o.base n)
  join_below n x y _ _ := below_getD hc (o.join n x y)
  join_perm tag es es' rs rs' l r x y he hr :=
    congrArg (fun answer => (answer >>= below?).toOption.getD c)
      (ho tag es es' rs rs' l r x y he hr)

theorem concur_getD {α : Type} (answer : Except Failure α) (d : α) :
    Concur True answer (.ok (answer.toOption.getD d)) := by
  cases answer with
  | error f => exact .inr ⟨trivial, f, rfl⟩
  | ok r => exact .inl rfl

theorem Oracle.matches_certain (o : Oracle ν) (c : ν) :
    o.bounded.Matches True (.certain (o.deriving c) (o.pricing c)) :=
  ⟨fun _ _ => concur_getD _ _, fun _ => concur_getD _ _, fun _ _ _ => concur_getD _ _⟩

/-- Collaborators that derive and price every plan. -/
def Context.priced {ν : Type} (derive : Node → List (Statistics ν) → Statistics ν) (p : Pricing ν)
    (config : Config) : Context ν Unit where
  estimator n inputs := return derive n.bare inputs
  model := ⟨fun _ n => return p.base n.bare, fun _ n left right => return p.join n.bare left right⟩
  config := config

theorem structural_priced {ν : Type} (derive : Node → List (Statistics ν) → Statistics ν)
    (p : Pricing ν) (config : Config) :
    Structural (Context.priced derive p config).estimator (Context.priced derive p config).model
      derive p where
  estimate _ _ env := ⟨env, rfl⟩
  base _ _ _ := .pure _
  join _ _ _ _ _ := .pure _

end Priced

theorem Regrouped.bare {R : Node → Node → Prop} {n q : Node} (h : Regrouped R n q)
    (hR : ∀ m q, R m q → q.bare = m.bare) : q.bare = n.bare := by
  induction h with
  | member _ hR' => exact hR _ _ hR'
  | join _ _ _ ihl ihr => rw [Node.bare, Node.bare, ihl, ihr]

namespace Reorder
variable {ν σ : Type} [CostScale ν] {context : Context ν σ} {n q r : Node} {a b d : Session ν σ}

/-- The failures of the calls that a run makes. -/
def failures (context : Context ν σ) (n : Node) (a : Session ν σ) : List Failure :=
  match rewrite context.watched n (a.watched []) with
  | .ok _ b => b.estimates.env.2
  | .error _ b => b.estimates.env.2

/-- No call that the run makes fails, and each cost that it is told is below the ceiling: if all other
costs are refused, still no call fails. -/
def Affordable (context : Context ν σ) (n : Node) (a : Session ν σ) : Prop :=
  failures context.bounded n a = []

instance : Decidable (Affordable context n a) :=
  inferInstanceAs (Decidable (failures context.bounded n a = []))

/-- A run is affordable if no call ever fails and all costs are below the ceiling. -/
theorem affordable_of_below (h : context.Reliable)
    (hbase : ∀ n e c e', context.model.base context.estimator n e = .ok c e' → Below c)
    (hjoin : ∀ n l r e c e', context.model.join context.estimator n l r e = .ok c e' → Below c)
    (hw : n.WellFormed) (a : Session ν σ) : Affordable context n a := by
  have hreliable : Search.Reliable ⟨context.bounded.estimator, context.bounded.model, []⟩ :=
    ⟨h.estimator, fun n => total_bounded (h.base n) (hbase n),
      fun n l r => total_bounded (h.join n l r) (hjoin n l r)⟩
  have hend := relates_rewrite_watched context.bounded hw a (a.watched []) ⟨rfl, rfl⟩
  unfold Affordable failures
  rcases of_ends_watched hend with ⟨q, b, -, hq⟩ | ⟨f, b, -, -, hr⟩ | ⟨b, -, hq, -⟩
  · rw [hq]
    rfl
  · exact absurd hr hreliable.not_refused
  · rw [hq]
    rfl

/-- Costs below the ceiling are ranked without a panic. -/
theorem not_panics_bounded [LawfulCosts ν] (context : Context ν σ) (n : Node) :
    ¬ Panics context.bounded n := by
  rintro ⟨g, -, -, ms, -, hp⟩
  obtain ⟨-, m, -, m', -, c, c', e, e', u, u', hc, hc', hnone⟩ := hp.incomparable
  have hsome := LawfulCosts.comparable c c' (below_of_bounded hc) (below_of_bounded hc')
  rw [hnone] at hsome
  cases hsome

/-- An affordable run succeeds, even if other costs are refused. -/
theorem Affordable.rewrite_bounded [LawfulCosts ν] (h : Affordable context n a)
    (hw : n.WellFormed) : ∃ q b, rewrite context.bounded n a = .ok q b := by
  have hend := relates_rewrite_watched context.bounded hw a (a.watched []) ⟨rfl, rfl⟩
  unfold Affordable failures at h
  rcases of_ends_watched hend with ⟨q, b, hq, -⟩ | ⟨f, b, -, hq, -⟩ | ⟨b, -, -, hp⟩
  · exact ⟨q, b, hq⟩
  · rw [hq] at h
    cases h
  · exact absurd hp (not_panics_bounded context n)

/-- If no cost is below the ceiling, bounded collaborators price no member, so no group is joined
anew. -/
theorem bare_of_ceiling (context : Context ν σ) (hnone : ∀ c : ν, ¬ Below c) :
    Invariant context.bounded False fun n q => q.bare = n.bare where
  refl _ := rfl
  unary _ _ _ h := by rw [Node.bare, Node.bare, h]
  outer _ _ _ hl hr := by rw [Node.bare, Node.bare, hl, hr]
  kept _ _ h := h.bare fun _ _ => id
  joined {n q ms a b s} _ _ hms hs _ _ := by
    obtain ⟨trees, u, htrees, -⟩ := Action.bind_eq_ok.1 hs
    have hplans := Search.map_plan_of_appraise htrees
    obtain ⟨t, ht⟩ : ∃ t, t ∈ trees := List.exists_mem_of_ne_nil _ fun hnil => by
      rw [hnil] at hplans
      exact ne_nil_of_members hms hplans.symm
    obtain ⟨e, e', hbase⟩ := Search.base_of_mem_appraise htrees t ht
    exact absurd (below_of_bounded hbase) (hnone _)

/-- If a second run gives a plan of the shape that it was given, passes stop there. -/
theorem exhaust_of_settled (hq : rewrite context n a = .ok q b) (hr : rewrite context q b = .ok r d)
    (hshape : r.shape = q.shape) (k : Nat) :
    ∃ z e, Rule.exhaust context [rule] (k + 1) n a = .ok z e ∧ z.shape = q.shape := by
  have hpass {n q : Node} {a b : Session ν σ} (h : rewrite context n a = .ok q b) :
      Rule.pass context [rule] n a = .ok (q, !q.same n) b := by
    refine Action.bind_eq_ok.2 ⟨q, b, h, Action.bind_eq_ok.2 ⟨(q, false), b, rfl, ?_⟩⟩
    dsimp only
    rw [Bool.or_false]
    rfl
  have hfirst := hpass hq
  cases hsame : q.same n with
  | true =>
    rw [hsame] at hfirst
    exact ⟨q, b, Action.bind_eq_ok.2 ⟨_, b, hfirst, rfl⟩, rfl⟩
  | false =>
    rw [hsame] at hfirst
    cases k with
    | zero => exact ⟨q, b, Action.bind_eq_ok.2 ⟨_, b, hfirst, rfl⟩, rfl⟩
    | succ k =>
      have hsecond := hpass hr
      rw [Node.same_iff.2 hshape] at hsecond
      refine ⟨r, d, Action.bind_eq_ok.2 ⟨_, b, hfirst, ?_⟩, hshape⟩
      exact Action.bind_eq_ok.2 ⟨_, d, hsecond, rfl⟩

end Reorder

namespace Oracle.Governs
variable {ν σ : Type} [CostScale ν] [LawfulCosts ν] {o : Oracle ν} {context : Context ν σ}
  {h k : Heap} {n p q r : Node} {a b d e : Session ν σ}

/-- With bounded collaborators, reordering a copy of a reordered plan gives one more copy of it. -/
theorem bare_of_rewrite_bounded (hgov : o.Governs context.estimator context.model)
    (ho : o.IgnoresOrder) (hw : n.WellFormed) (hdisjoint : n.Disjoint) (hn : h.Holds n)
    (ha : a.Accords o.estimate h) (hq : Reorder.rewrite context.bounded n a = .ok q b)
    (hp : k.Holds p) (hpq : p.bare = q.bare) (hd : d.Accords o.estimate k)
    (hr : Reorder.rewrite context.bounded p d = .ok r e) : r.bare = q.bare := by
  by_cases hc : ∃ c : ν, Below c
  · obtain ⟨c, hc⟩ := hc
    have hpw : p.WellFormed := by
      rw [← Node.wellFormed_bare, hpq, Node.wellFormed_bare]
      exact ((Reorder.wellFormed context.bounded).rewrite False.elim hq).2 hw
    have hs := structural_priced (o.deriving c) (o.pricing c) context.config
    have hgov' := structural_iff_governs.1 hs
    -- The run beside it starts with nothing remembered.
    let a' : Session ν Unit := ⟨a.supply, ⟨Memo.empty, ()⟩⟩
    have ha' : a'.Accords (Oracle.certain (o.deriving c) (o.pricing c)).estimate h :=
      ⟨ha.supply, nofun, nofun⟩
    obtain ⟨q', b', r', d', hq', hr', hshape⟩ := hs.rewrite_rewrite (lawful_pricing ho hc)
      (Session.fits_of_empty (a := a') ha.supply rfl) hn hw hdisjoint
    obtain ⟨_, _, h₁, k₁, hq'', hcopies, -, hb'⟩ := hgov.bounded.rewrite_ok hgov'
      (o.matches_certain c) rfl hw ⟨hn, hn, rfl⟩ ha ha' hq
    cases hq'.symm.trans hq''
    obtain ⟨_, _, h₂, k₂, hr'', hcopies', -⟩ := hgov.bounded.rewrite_ok hgov' (o.matches_certain c)
      rfl hpw ⟨hp, hcopies.right, hpq.trans hcopies.bare⟩ hd hb' hr
    cases hr'.symm.trans hr''
    calc r.bare = r'.bare := hcopies'.bare
      _ = q'.bare := Node.bare_eq_iff.2 hshape
      _ = q.bare := hcopies.bare.symm
  · exact ((Reorder.bare_of_ceiling context (not_exists.1 hc)).rewrite False.elim hr).trans hpq

/-- Reordering a reordered plan gives a plan of the same shape, and so do passes of the rule over a
plan as soon as one is allowed. -/
theorem rewrite_idempotent (hgov : o.Governs context.estimator context.model)
    (ho : o.IgnoresOrder) (hw : n.WellFormed) (hdisjoint : n.Disjoint) (hn : h.Holds n)
    (ha : a.Accords o.estimate h) (hfirst : Reorder.Affordable context n a)
    (hsecond : ∀ q b, Reorder.rewrite context n a = .ok q b → Reorder.Affordable context q b) :
    ∃ q b r d, Reorder.rewrite context n a = .ok q b ∧ Reorder.rewrite context q b = .ok r d ∧
      r.shape = q.shape ∧
      ∀ k, ∃ z e, Rule.exhaust context [Reorder.rule] (k + 1) n a = .ok z e ∧
        z.shape = q.shape := by
  obtain ⟨q', b', hq'⟩ := hfirst.rewrite_bounded hw
  obtain ⟨q, b, _, h₁, hq, hcopies, -, hb⟩ := hgov.bounded.rewrite_ok hgov o.matches_bounded rfl hw
    ⟨hn, hn, rfl⟩ ha ha hq'
  have hqw : q.WellFormed := ((Reorder.wellFormed context).rewrite False.elim hq).2 hw
  obtain ⟨r', d', hr'⟩ := (hsecond q b hq).rewrite_bounded hqw
  obtain ⟨r, d, _, _, hr, hcopies', -⟩ := hgov.bounded.rewrite_ok hgov o.matches_bounded rfl hqw
    ⟨hcopies.right, hcopies.right, rfl⟩ hb hb hr'
  have hbare : r.bare = q.bare := by
    calc r.bare = r'.bare := hcopies'.bare.symm
      _ = q'.bare := hgov.bare_of_rewrite_bounded ho hw hdisjoint hn ha hq' hcopies.right
        hcopies.bare.symm hb hr'
      _ = q.bare := hcopies.bare
  have hshape := Node.bare_eq_iff.1 hbare
  exact ⟨q, b, r, d, hq, hr, hshape, Reorder.exhaust_of_settled hq hr hshape⟩

end Oracle.Governs

section Catalogs
variable {ν : Type} [Quantity ν]

open Quantity

theorem Statistics.matchingRows_perm
    (hswap : ∀ a b c : ν, greater (greater a b) c = greater (greater a c) b) (onLeft : Column → Bool)
    (l r : Statistics ν) {kind : JoinKind} {es es' : List Edge} {rs rs' : List Expr}
    (he : es.Perm es') (hr : rs.Perm rs') :
    matchingRows onLeft l r ⟨kind, es, rs⟩ = matchingRows onLeft l r ⟨kind, es', rs'⟩ := by
  have hkey : joinKey onLeft l r es = joinKey onLeft l r es' :=
    (he.map _).foldl_eq' (fun a _ b _ c => hswap c a b) zero
  unfold matchingRows
  dsimp only
  rw [hkey, he.isEmpty_eq, hr.isEmpty_eq]

theorem Catalog.rows?_join (c : Catalog ν) (tag : Tag) (j : Join) (left right : Node) :
    rows? c.estimate (.join tag j left right) = (do
      let l ← derived? c.estimate left
      let r ← derived? c.estimate right
      return Statistics.joinRows left.produces l r j) := by
  unfold rows?
  rw [derived?]
  cases derived? c.estimate left <;> cases derived? c.estimate right <;> rfl

/-- Counts of rows that are estimated from a catalog do not go by the order of conditions, if finding
the greatest of several numbers does not. -/
theorem Catalog.ignoresOrder
    (hswap : ∀ a b c : ν, greater (greater a b) c = greater (greater a c) b) (c : Catalog ν) :
    (Oracle.cumulative c.estimate).IgnoresOrder := by
  intro tag es es' rs rs' l r x y he hr
  have hrows : rows? c.estimate (.join tag ⟨.inner, es, rs⟩ l r) =
      rows? c.estimate (.join tag ⟨.inner, es', rs'⟩ l r) := by
    rw [c.rows?_join, c.rows?_join]
    simp only [Statistics.joinRows, Statistics.matchingRows_perm hswap _ _ _ he hr]
  exact congrArg (fun rows => do return (← rows) + x + y) hrows

end Catalogs

namespace Oracle.Governs

/-- Three tables, of which the two that are joined first are each connected with the third only. -/
def starTables : Node :=
  .join ⟨4, 4⟩ ⟨.inner, [⟨⟨"a", "x"⟩, ⟨"c", "z"⟩⟩, ⟨⟨"c", "z"⟩, ⟨"b", "y"⟩⟩], []⟩
    (.join ⟨2, 2⟩ .cross (.scan ⟨0, 0⟩ (.ofNames "a" ["x"] none))
      (.scan ⟨1, 1⟩ (.ofNames "b" ["y"] none)))
    (.scan ⟨3, 3⟩ (.ofNames "c" ["z"] none))

/-- No other table is known. -/
def threeCounts : Catalog ℕ := ⟨[("a", .ofRows 500), ("b", .ofRows 50), ("c", .ofRows 5)]⟩

/-- Plans cost the rows of their operators. -/
def counting : Context ℕ Unit := ⟨threeCounts.estimator, .cumulative, {}⟩

theorem rewrite_idempotent_starTables :
    (∃ q b r d, Reorder.rewrite counting starTables (.unused 5) = .ok q b ∧
      q.render = "Projection[a.x, b.y, c.z](InnerJoin[c.z = a.x](InnerJoin[c.z = b.y](c, b), a))" ∧
      Reorder.rewrite counting q b = .ok r d ∧ r.shape = q.shape ∧
      ∀ k, ∃ z e, Rule.exhaust counting [Reorder.rule] (k + 1) starTables (.unused 5) = .ok z e ∧
        z.shape = q.shape) ∧
    ∃ q b r d, Reorder.rewrite (.constant 1) starTables (.unused 5) = .ok q b ∧
      Reorder.rewrite (.constant 1) q b = .ok r d ∧ r.shape = q.shape ∧
      ∀ k, ∃ z e, Rule.exhaust (.constant 1) [Reorder.rule] (k + 1) starTables (.unused 5) =
        .ok z e ∧ z.shape = q.shape := by
  have hn : (Heap.ofPlan 5 starTables).Holds starTables :=
    Heap.holds_ofPlan (by decide) (by decide)
  have hw : starTables.WellFormed := ⟨⟨trivial, trivial⟩, trivial⟩
  have hdisjoint : starTables.Disjoint := by decide
  have ha (estimate : Derivation ℕ) :
      (Session.unused 5).Accords estimate (Heap.ofPlan 5 starTables) := ⟨rfl, nofun, nofun⟩
  constructor
  · have hgov : (Oracle.cumulative threeCounts.estimate).Governs counting.estimator
        counting.model := governs_cumulative threeCounts.estimator_eq
    have hfirst : Reorder.Affordable counting starTables (.unused 5) := by decide +kernel
    have hsecond : (match Reorder.rewrite counting starTables (.unused 5) with
        | .ok q b => Reorder.failures counting.bounded q b
        | .error _ _ => []) = [] := by decide +kernel
    have hrender : ((Reorder.rewrite counting starTables).result? (.unused 5)).map Node.render =
        some "Projection[a.x, b.y, c.z](InnerJoin[c.z = a.x](InnerJoin[c.z = b.y](c, b), a))" := by
      decide +kernel
    obtain ⟨q, b, r, d, hq, hrest⟩ := hgov.rewrite_idempotent
      (threeCounts.ignoresOrder fun a b c => max_right_comm a b c) hw hdisjoint hn (ha _) hfirst
      fun q b hq => by
        rw [hq] at hsecond
        exact hsecond
    unfold Action.result? at hrender
    rw [hq] at hrender
    exact ⟨q, b, r, d, hq, Option.some.inj hrender, hrest⟩
  · have hgov : (Oracle.certain (fun _ _ => .ofRows 10) ⟨fun _ => 10, fun _ _ _ => 1⟩).Governs
        (Context.constant 1).estimator (Context.constant 1).model :=
      structural_iff_governs.1 (structural_constant _ 10 1)
    have haffordable {n : Node} (hn : n.WellFormed) (a : Session ℕ Unit) :
        Reorder.Affordable (.constant 1) n a :=
      Reorder.affordable_of_below ⟨fun _ _ => .pure _, fun _ => .pure _, fun _ _ _ => .pure _⟩
        (fun _ _ _ _ h => (Action.pure_eq_ok.1 h).1 ▸ rfl)
        (fun _ _ _ _ _ _ => less_of_constant (by decide)) hn a
    exact hgov.rewrite_idempotent (fun _ _ _ _ _ _ _ _ _ _ _ => rfl) hw hdisjoint hn (ha _)
      (haffordable hw _) fun q b hq =>
        haffordable (((Reorder.wellFormed _).rewrite False.elim hq).2 hw) b

end Oracle.Governs

end JoinOrder
