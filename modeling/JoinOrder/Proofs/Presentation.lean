import JoinOrder.Proofs.Prospects
import JoinOrder.Proofs.Steps
import JoinOrder.Proofs.StrictCosts
import JoinOrder.Proofs.Turning

/-!
# How a group is presented

The result of a search does not depend on how its group is put: not on the way in which edges are
turned, and not on the order of the members if their own costs tell them apart
(`Valuation.Governs.solve_presentation`).

The members are appraised in different orders, so the two runs cannot be followed side by side from
the start. They are from where the members have been ranked, in the same order by then.
-/

namespace JoinOrder

/-- Plans of which the same is seen, each in use in its own run. -/
structure Valuation.Twins {ν : Type} (v : Valuation ν) (M M' : Memo ν) (w : Stock × Stock)
    (m n : Node) : Prop where
  left : w.1.has m
  right : w.2.has n
  same : v.prospect M m = v.prospect M' n

/-- The supply gives out the next cell, and nothing was remembered there at first. -/
structure Supply.Serves {ν : Type} (M : Memo ν) (h : Stock) (s : Supply) : Prop where
  cell : s.nextCell = h.size
  memo : ∀ c t, M c = some t → c < h.size

theorem Supply.Serves.fresh {ν : Type} {M : Memo ν} {h : Stock} {s : Supply} (hs : s.Serves M h) :
    M s.nextCell = none :=
  Option.eq_none_iff_forall_ne_some.2 fun t ht => absurd (hs.memo _ t ht) hs.cell.not_lt

theorem Supply.Serves.push {ν : Type} {M : Memo ν} {h : Stock} {s : Supply} (hs : s.Serves M h)
    (n : Node) (hc : n.cell = h.size) (hi : ∀ i ∈ n.inputs, h.has i) :
    Supply.Serves M (h.push n hc hi) ⟨s.nextId + 1, s.nextCell + 1⟩ :=
  ⟨congrArg Nat.succ hs.cell, fun c t ht => (hs.memo c t ht).trans (Nat.lt_succ_self _)⟩

theorem Session.Houses.serves {ν σ : Type} {a : Session ν σ} {plans : List Node}
    (ha : a.Houses plans) : a.supply.Serves a.estimates.memo ha.stock := ⟨rfl, ha.memo⟩

/-- As many ids have been taken from one supply, since the start, as from the other. -/
structure Supplied {ν : Type} (M M' : Memo ν) (start start' : Supply) (w : Stock × Stock)
    (s t : Supply) : Prop where
  left : s.Serves M w.1
  right : t.Serves M' w.2
  ids : s.nextId + start'.nextId = t.nextId + start.nextId

/-- Sessions in which `M` and `M'` were remembered at first. -/
def Valuation.viewing {ν : Type} (v : Valuation ν) (σ τ : Type) (M M' : Memo ν)
    (start start' : Supply) : Correspondence (Stock × Stock) (Session ν σ) (Session ν τ) :=
  .sessions (Supplied M M' start start')
    (fun w => beside (Estimates.Extends M v.estimate w.1) (Estimates.Extends M' v.estimate w.2) False)
    True

theorem Node.apart_bare {m n : Node} : m.bare.Apart n.bare ↔ m.Apart n := by
  unfold Apart
  rw [produces_bare, produces_bare]

theorem apart_of_bare {ms ns : List Node} (h : ms.map Node.bare = ns.map Node.bare)
    (hap : ns.Pairwise Node.Apart) : ms.Pairwise Node.Apart := by
  have hbare := List.pairwise_map.2 (hap.imp Node.apart_bare.2)
  rw [← h] at hbare
  exact (List.pairwise_map.1 hbare).imp Node.apart_bare.1

namespace Valuation
variable {ν σ τ : Type} {v : Valuation ν} {M M' : Memo ν} {start start' : Supply}
  {w : Stock × Stock}

theorem bare_eq_of_prospect {m n : Node} (h : v.prospect M m = v.prospect M' n) :
    m.bare = n.bare := by
  unfold prospect at h
  rw [← m.bare_prospect M v.estimate, h, n.bare_prospect]

theorem relates_newJoin_twins {m m' n n' : Node} (j : Join) (hm : v.Twins M M' w m m')
    (hn : v.Twins M M' w n n') :
    (v.viewing σ τ M M' start start').Relates w (Planning.newJoin j m n) (Planning.newJoin j m' n')
      (v.Twins M M') := by
  refine relates_build (fun s t hst => ?_) fun hw he => ⟨he.1.mono hw.1, he.2.mono hw.2⟩
  obtain ⟨hs, ht, hids⟩ := hst
  let q : Node := .join ⟨s.nextId, s.nextCell⟩ j m n
  let q' : Node := .join ⟨t.nextId, t.nextCell⟩ j m' n'
  have hi : ∀ i ∈ q.inputs, w.1.has i :=
    List.forall_mem_cons.2 ⟨hm.left, List.forall_mem_singleton.2 hn.left⟩
  have hi' : ∀ i ∈ q'.inputs, w.2.has i :=
    List.forall_mem_cons.2 ⟨hm.right, List.forall_mem_singleton.2 hn.right⟩
  have hids' : s.nextId + 1 + start'.nextId = t.nextId + 1 + start.nextId := by omega
  exact ⟨q, _, q', _, (w.1.push q hs.cell hi, w.2.push q' ht.cell hi'), rfl, rfl,
    ⟨w.1.before_push q hs.cell hi, w.2.before_push q' ht.cell hi'⟩,
    ⟨hs.push q hs.cell hi, ht.push q' ht.cell hi', hids'⟩, .inl rfl, .inl rfl,
    Node.prospect_join j hs.fresh ht.fresh hm.same hn.same⟩

/-- Searches that the valuation governs are related step by step. -/
theorem Governs.simulates {s : Search ν σ} {t : Search ν τ} (hs : v.Governs s.estimator s.model)
    (ht : v.Governs t.estimator t.model) :
    Steps.Simulates (v.viewing σ τ M M' start start') (v.Twins M M') s.steps t.steps := by
  refine Search.simulates (fun _ => id)
    (fun hw h => ⟨hw.1.kept _ h.left, hw.2.kept _ h.right, h.same⟩)
    (fun {_ m n} h c => ?_) (fun j h h' => relates_newJoin_twins j h h') (fun {w m n} h => ?_)
    (fun {w m n} h => ?_) fun {w m n} l r h => ?_
  · rw [← m.produces_bare, bare_eq_of_prospect h.same, n.produces_bare]
  · refine (relates_answers (.inl rfl) (answers_prospect hs.estimate h.left)
      ((congrArg Prospect.estimate h.same).symm ▸ answers_prospect ht.estimate h.right)).imp
        fun _ _ _ _ _ => trivial
  · exact relates_answers (.inl rfl) (hs.base M w.1 m h.left) (h.same ▸ ht.base M' w.2 n h.right)
  · exact relates_answers (.inl rfl) (hs.join M w.1 m l r h.left)
      (h.same ▸ ht.join M' w.2 n l r h.right)

/-- What a member costs, if it can be estimated. -/
def price (v : Valuation ν) (p : Prospect ν) : Except Failure ν := do
  let _ ← p.estimate
  v.base p

/-- The member with its cost. -/
def Prices (v : Valuation ν) (M : Memo ν) (m : Node) (t : Tree ν) : Prop :=
  t.plan = m ∧ v.price (v.prospect M m) = .ok t.cost

theorem base_of_price {p : Prospect ν} {c : ν} (h : v.price p = .ok c) : v.base p = .ok c := by
  unfold price at h
  cases hp : p.estimate with
  | error f =>
    rw [hp] at h
    cases h
  | ok s =>
    rw [hp] at h
    exact h

variable {members members' : List Node} {ts us : List (Tree ν)}

theorem alike_of_prices {h k : Stock} (hm : ∀ m ∈ members, h.has m) (hm' : ∀ m ∈ members', k.has m)
    (hsame : members'.map (v.prospect M') = members.map (v.prospect M))
    (hp : List.Forall₂ (v.Prices M) members ts) (hp' : List.Forall₂ (v.Prices M') members' us) :
    List.Forall₂ (Steps.Alike (v.Twins M M') (h, k)) ts us := by
  induction hp generalizing members' us with
  | nil =>
    rw [List.map_eq_nil_iff.1 hsame] at hp'
    cases hp'
    exact .nil
  | @cons m t ms ts hmt _ ih =>
    cases hp' with
    | nil => cases hsame
    | @cons m' u ms' us hmu hrest =>
      rw [List.forall_mem_cons] at hm hm'
      rw [List.map_cons, List.map_cons, List.cons.injEq] at hsame
      obtain ⟨⟨rfl, ht⟩, rfl, hu⟩ := hmt, hmu
      rw [hsame.1, ht] at hu
      exact .cons ⟨⟨hm.1, hm'.1, hsame.1.symm⟩, Except.ok.inj hu⟩ (ih hm.2 hm'.2 hsame.2 hrest)

variable [CostScale ν]

/-- The costs of the members are numbers, and no two are equal. -/
def Discerns (v : Valuation ν) (M : Memo ν) (members : List Node) : Prop :=
  (∀ m ∈ members, ∀ c, v.base (v.prospect M m) = .ok c → CostScale.Number c) ∧
    members.Pairwise fun m n => ∀ c d, v.base (v.prospect M m) = .ok c →
      v.base (v.prospect M n) = .ok d → CostScale.Differ c d

/-- Members are told apart if their costs are. -/
theorem discerns_of_costs {costs : List ν}
    (h : List.Forall₂ (fun m c => v.base (v.prospect M m) = .ok c) members costs)
    (hn : ∀ c ∈ costs, CostScale.Number c) (hd : costs.Pairwise CostScale.Differ) :
    v.Discerns M members := by
  constructor
  · intro m hm c hc
    obtain ⟨d, hd, hmd⟩ := exists_of_mem_left h hm
    cases hc.symm.trans hmd
    exact hn c hd
  · refine pairwise_of_forall₂ h.flip hd fun c d m n hm hn hcd c' d' hc' hd' => ?_
    cases hc'.symm.trans hm
    cases hd'.symm.trans hn
    exact hcd

/-- Members that are presented in another way, which their costs allow, are ranked as members that
are seen in the same way one by one. -/
theorem exists_arrangement (hp : List.Forall₂ (v.Prices M) members ts)
    (h : members'.map (v.prospect M') = members.map (v.prospect M) ∨
      (members'.map (v.prospect M')).Perm (members.map (v.prospect M)) ∧ OrderedCosts ν ∧
        v.Discerns M members) :
    ∃ ms us, ms.Perm members ∧ members'.map (v.prospect M') = ms.map (v.prospect M) ∧
      List.Forall₂ (v.Prices M) ms us ∧ ranked us = ranked ts := by
  rcases h with hsame | ⟨hperm, hcosts, hd⟩
  · exact ⟨members, ts, .refl _, hsame, hp, rfl⟩
  · obtain ⟨ms, hms, hmap⟩ := exists_perm_of_perm_map hperm
    obtain ⟨us, hus, huts⟩ := List.perm_comp_forall₂ hms hp
    refine ⟨ms, us, hms, hmap, hus, ranked_eq_of_perm (fun t ht => ?_) ?_ huts⟩
    · obtain ⟨m, hm, hmt⟩ := exists_of_mem_right hp ht
      exact hd.1 m hm _ (base_of_price hmt.2)
    · exact pairwise_of_forall₂ hp hd.2 fun m n t u hm hn hmn =>
        hmn _ _ (base_of_price hm.2) (base_of_price hn.2)

end Valuation

namespace Valuation.Governs
variable {ν σ : Type} {v : Valuation ν} {s : Search ν σ} (hs : v.Governs s.estimator s.model)
  {M : Memo ν} {h : Stock} {members : List Node} {a : Session ν σ}
include hs

theorem appraise_eq {m : Node} (hm : h.has m) (ha : a.estimates.Extends M v.estimate h) :
    ∃ e, e.Extends M v.estimate h ∧ s.appraise m a =
      Action.ofExcept (Tree.mk m <$> v.price (v.prospect M m)) { a with estimates := e } := by
  have hprice : Tree.mk m <$> v.price (v.prospect M m) = (do
      let _ ← (v.prospect M m).estimate
      let c ← v.base (v.prospect M m)
      .ok (⟨m, c⟩ : Tree ν)) := by
    unfold price
    cases (v.prospect M m).estimate <;> cases v.base (v.prospect M m) <;> rfl
  have hans := (answers_prospect (M := M) hs.estimate hm).bind fun _ _ =>
    (hs.base M h m hm).bind fun c _ => Answers.pure (⟨m, c⟩ : Tree ν)
  obtain ⟨e, he, hext⟩ := hans a.estimates ha
  refine ⟨e, hext, ?_⟩
  rw [hprice]
  unfold Search.appraise Planning.estimating Action.onPart
  rw [he]
  unfold prospect
  cases (m.prospect M v.estimate).estimate <;> cases v.base (m.prospect M v.estimate) <;> rfl

theorem of_appraiseAll {ts : List (Tree ν)} {b : Session ν σ} (hm : ∀ m ∈ members, h.has m)
    (ha : a.estimates.Extends M v.estimate h) (hts : members.mapM s.appraise a = .ok ts b) :
    b.supply = a.supply ∧ b.estimates.Extends M v.estimate h ∧
      List.Forall₂ (v.Prices M) members ts := by
  induction members generalizing a ts with
  | nil =>
    obtain ⟨rfl, rfl⟩ := Action.pure_eq_ok.1 hts
    exact ⟨rfl, ha, .nil⟩
  | cons m ms ih =>
    obtain ⟨hm, hms⟩ := List.forall_mem_cons.1 hm
    obtain ⟨e, he, happraise⟩ := hs.appraise_eq hm ha
    rw [List.mapM_cons] at hts
    obtain ⟨t, u, ht, hts⟩ := Action.bind_eq_ok.1 hts
    obtain ⟨us, w, hus, hts⟩ := Action.bind_eq_ok.1 hts
    obtain ⟨rfl, rfl⟩ := Action.pure_eq_ok.1 hts
    rw [happraise] at ht
    cases hc : v.price (v.prospect M m) with
    | error f =>
      rw [hc] at ht
      cases ht
    | ok c =>
      rw [hc] at ht
      cases ht
      obtain ⟨hsupply, hw, hrest⟩ := ih hms he hus
      exact ⟨hsupply, hw, .cons ⟨rfl, hc⟩ hrest⟩

theorem appraiseAll (hm : ∀ m ∈ members, h.has m) (ha : a.estimates.Extends M v.estimate h)
    (hprice : ∀ m ∈ members, ∃ c, v.price (v.prospect M m) = .ok c) :
    ∃ ts b, members.mapM s.appraise a = .ok ts b := by
  induction members generalizing a with
  | nil => exact ⟨[], a, rfl⟩
  | cons m ms ih =>
    obtain ⟨hm, hms⟩ := List.forall_mem_cons.1 hm
    obtain ⟨⟨c, hc⟩, hprice⟩ := List.forall_mem_cons.1 hprice
    obtain ⟨e, he, happraise⟩ := hs.appraise_eq hm ha
    rw [hc] at happraise
    obtain ⟨ts, b, hts⟩ := ih (a := { a with estimates := e }) hms he hprice
    refine ⟨⟨m, c⟩ :: ts, b, ?_⟩
    rw [List.mapM_cons]
    exact Action.bind_eq_ok.2 ⟨_, _, happraise, Action.bind_eq_ok.2 ⟨ts, b, hts, rfl⟩⟩

variable [CostScale ν]

/-- Searches of alike trees that have been ranked, in sessions that have taken no ids since the
start. -/
theorem combine_alike {k : Stock} {M' : Memo ν} {ts us : List (Tree ν)} {residuals : List Expr}
    {a' b : Session ν σ} {found : Option Solution}
    (hts : List.Forall₂ (Steps.Alike (v.Twins M M') (h, k)) ts us)
    (ha : a.estimates.Extends M v.estimate h) (ha' : a'.estimates.Extends M' v.estimate k)
    (hserves : a.supply.Serves M h) (hserves' : a'.supply.Serves M' k)
    (hfound : s.steps.combine s.edges ts residuals a = .ok found b) :
    ∃ found' b', s.steps.combine s.edges us residuals a' = .ok found' b' ∧
      found'.map Solution.bare = found.map Solution.bare ∧
      b'.supply.nextId + a.supply.nextId = b.supply.nextId + a'.supply.nextId := by
  have hsteps : Steps.Simulates (v.viewing σ σ M M' a.supply a'.supply) (v.Twins M M') s.steps
      s.steps := hs.simulates hs
  have hend := hsteps.combine s.edges hts residuals a a'
    ⟨⟨hserves, hserves', Nat.add_comm ..⟩, ha, ha'⟩
  rw [hfound] at hend
  cases hright : s.steps.combine s.edges us residuals a' with
  | error f b' =>
    rw [hright] at hend
    cases hend
  | ok found' b' =>
    rw [hright] at hend
    cases hend with
    | ok _ hb hrel =>
      refine ⟨found', b', rfl, ?_, hb.1.ids.symm⟩
      cases hrel with
      | none => rfl
      | @some x y hxy =>
        unfold Solution.bare
        rw [Option.map_some, Option.map_some, bare_eq_of_prospect hxy.plan.same, hxy.pending]

/-- The same group put in another way. A search does not depend on how the edges are turned. If the
same is seen of the members one by one, or in any order if their costs tell them apart, then a
search is successful if that of the given group is. It gives a plan of the same shape, leaves the
same conditions pending and takes as many ids. -/
theorem solve_presentation {members members' : List Node} {E' : List Edge} {residuals : List Expr}
    {a a' b : Session ν σ} {found : Option Solution} (hap : members.Pairwise Node.Apart)
    (hE : E'.map Edge.ends = s.edges.map Edge.ends)
    (horder : members'.map (v.prospect a'.estimates.memo) =
        members.map (v.prospect a.estimates.memo) ∨
      (members'.map (v.prospect a'.estimates.memo)).Perm
        (members.map (v.prospect a.estimates.memo)) ∧ OrderedCosts ν ∧
          v.Discerns a.estimates.memo members)
    (ha : a.Houses members) (ha' : a'.Houses members')
    (hsolve : s.solve members residuals a = .ok found b) :
    Search.solve { s with edges := E' } members residuals = s.solve members residuals ∧
    ∃ found' b', Search.solve { s with edges := E' } members' residuals a' = .ok found' b' ∧
      found'.map Solution.bare = found.map Solution.bare ∧
      b'.supply.nextId + a.supply.nextId = b.supply.nextId + a'.supply.nextId := by
  refine ⟨Search.solve_turned hE hap residuals, ?_⟩
  rw [← s.steps_solve] at hsolve
  obtain ⟨ts, u, hts, hsolve⟩ := Action.bind_eq_ok.1 hsolve
  obtain ⟨order, _, hr, hcombine⟩ := Action.bind_eq_ok.1 hsolve
  obtain ⟨hranks, rfl⟩ := ranking_eq_ok.1 hr
  have hm : ∀ m ∈ members, ha.stock.has m := fun m hmem =>
    List.mem_flatMap.2 ⟨m, hmem, m.mem_preorder_self⟩
  have hm' : ∀ m ∈ members', ha'.stock.has m := fun m hmem =>
    List.mem_flatMap.2 ⟨m, hmem, m.mem_preorder_self⟩
  obtain ⟨hsupply, hu, hprices⟩ := hs.of_appraiseAll hm ha.extends hts
  -- `us` are the trees of the given members, in the order of those that are presented instead
  obtain ⟨ms, us, hperm, hsame, hprices', hranked⟩ := exists_arrangement hprices horder
  have hap' : members'.Pairwise Node.Apart := by
    have hbare : members'.map Node.bare = ms.map Node.bare := by
      have hmap := congrArg (List.map Prospect.bare) hsame
      simpa only [List.map_map, Function.comp_def, Valuation.prospect, Node.bare_prospect] using hmap
    exact apart_of_bare hbare (hap.perm hperm.symm Node.Apart.symm)
  have hprice : ∀ m ∈ members', ∃ c, v.price (v.prospect a'.estimates.memo m) = .ok c :=
    fun m hmem => by
      obtain ⟨n, hn, hnm⟩ := List.mem_map.1 (hsame ▸ List.mem_map_of_mem hmem)
      obtain ⟨t, -, ht⟩ := exists_of_mem_left hprices' hn
      exact ⟨t.cost, hnm ▸ ht.2⟩
  obtain ⟨ts', u', hts'⟩ := hs.appraiseAll hm' ha'.extends hprice
  obtain ⟨hsupply', hu', hpriced⟩ := hs.of_appraiseAll hm' ha'.extends hts'
  have halike := rel_ranked (fun _ _ htu => htu.2) (alike_of_prices
    (fun m hmem => hm m (hperm.subset hmem)) hm' hsame hprices' hpriced)
  rw [hranked, hranks] at halike
  obtain ⟨order', hranks', halike⟩ : ∃ order', ranked ts' = some order' ∧
      List.Forall₂ (Steps.Alike (v.Twins a.estimates.memo a'.estimates.memo) (ha.stock, ha'.stock))
        order order' := by
    generalize ranked ts' = right at halike ⊢
    cases halike with
    | some h => exact ⟨_, rfl, h⟩
  obtain ⟨found', b', hright, hfound, hids⟩ := hs.combine_alike halike hu hu' (hsupply ▸ ha.serves)
    (hsupply' ▸ ha'.serves) hcombine
  rw [hsupply, hsupply'] at hids
  rw [Search.solve_turned hE hap', ← s.steps_solve]
  refine ⟨found', b', Action.bind_eq_ok.2 ⟨ts', u', hts', ?_⟩, hfound, hids⟩
  exact Action.bind_eq_ok.2 ⟨order', u', ranking_eq_ok.2 ⟨hranks', rfl⟩, hright⟩

end Valuation.Governs

/-- Sizes of the four tables. -/
def fourSizes : Catalog ℕ :=
  ⟨[("a", .ofRows 10), ("b", .ofRows 20), ("c", .ofRows 30), ("d", .ofRows 40)]⟩

/-- A session that remembers another size of the first table. -/
def Session.mistaken (next : ℕ) : Session ℕ Unit :=
  ⟨⟨next, next⟩, ⟨Memo.empty.insert 0 (.ofRows 15), ()⟩⟩

theorem Session.mistaken_houses {next : ℕ} (h : 4 ≤ next) {plans : List Node}
    (hp : plans.Perm fourTables) : (mistaken next).Houses plans := by
  have hcells : ∀ n ∈ fourTables.flatMap Node.preorder, n.cell < 4 := by decide
  have halone : ∀ m ∈ fourTables.flatMap Node.preorder, ∀ n ∈ fourTables.flatMap Node.preorder,
      m.cell = n.cell → m = n := by decide
  have hmem : ∀ n ∈ plans.flatMap Node.preorder, n ∈ fourTables.flatMap Node.preorder :=
    fun n hn => (hp.flatMap_right _).subset hn
  refine ⟨fun n hn => (hcells n (hmem n hn)).trans_le h,
    fun m hm n hn => halone m (hmem m hm) n (hmem n hn), fun c s hs => ?_⟩
  by_cases hc : c = 0
  · rw [hc]
    exact Nat.lt_of_lt_of_le (by decide) h
  · cases (if_neg hc).symm.trans hs

theorem Valuation.Governs.solve_presentation_fourTables : ∃ found b found' b',
    Search.solve ⟨fourSizes.estimator, .cumulative, Search.triangle.edges⟩ fourTables []
      (.mistaken 4) = .ok found b ∧
    Search.solve ⟨fourSizes.estimator, .cumulative, Search.triangle.edges.map Edge.swapped⟩
      fourTables.reverse [] (.mistaken 9) = .ok found' b' ∧
    found'.map Solution.bare = found.map Solution.bare ∧
    b'.supply.nextId + 4 = b.supply.nextId + 9 := by
  let v := Valuation.cumulative fourSizes.estimate
  let M : Memo ℕ := Memo.empty.insert 0 (.ofRows 15)
  have hcosts : List.Forall₂ (fun m c => v.base (v.prospect M m) = .ok c) fourTables
      [15, 20, 30, 40] := .cons rfl (.cons rfl (.cons rfl (.cons rfl .nil)))
  have hdiffer : [15, 20, 30, 40].Pairwise fun c d : ℕ => CostScale.compare? c d ≠ some .eq := by
    decide
  have hnumber : ∀ c ∈ [15, 20, 30, 40], CostScale.Number (ν := ℕ) c := fun _ _ => rfl
  have hdiscerns : v.Discerns M fourTables := discerns_of_costs hcosts hnumber hdiffer
  have hperm := (List.reverse_perm fourTables).map (v.prospect M)
  have hturned : (Search.triangle.edges.map Edge.swapped).map Edge.ends =
      Search.triangle.edges.map Edge.ends := by
    rw [List.map_map]
    exact List.map_congr_left fun e _ => e.ends_swapped
  have hap : fourTables.Pairwise Node.Apart := by decide
  have hrun : ((Search.solve ⟨fourSizes.estimator, .cumulative, Search.triangle.edges⟩ fourTables
      []).result? (.mistaken 4)).isSome = true := by decide +kernel
  obtain ⟨found, b, hsolve⟩ := Action.exists_of_result? hrun
  obtain ⟨-, found', b', hsolve', hsame⟩ := solve_presentation
    (s := ⟨fourSizes.estimator, .cumulative, Search.triangle.edges⟩)
    (Valuation.governs_catalog fourSizes) hap hturned (.inr ⟨hperm, inferInstance, hdiscerns⟩)
    (Session.mistaken_houses le_rfl (.refl _))
    (Session.mistaken_houses (by decide : 4 ≤ 9) (List.reverse_perm _)) hsolve
  exact ⟨found, b, found', b', hsolve, hsolve', hsame⟩

end JoinOrder
