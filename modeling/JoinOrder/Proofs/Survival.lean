import Mathlib.Algebra.Order.BigOperators.Group.List
import Mathlib.Algebra.Order.Group.Nat
import JoinOrder.Plan.Shape
import JoinOrder.Proofs.ExactCosts
import JoinOrder.Proofs.Forest

/-!
# Which conditions survive a search

The residual conditions that a search attaches, and those that it leaves pending, do not depend on
the order of the joins: what is pending is what all members together do not cover. An edge between
two members that share no column touches exactly these two, so no search uses it twice. A search
uses every edge if and only if it is smooth (`Search.smooth_iff_uses`); one that stalls drops an
edge and reports nothing.

Hence two searches over the same members keep the same conditions as long as both are smooth, and
they keep the same equalities exactly if they drop the same ones (`Search.solve_conditions`).
-/

namespace JoinOrder

namespace Edge
variable {e : Edge} {members : List Node}

theorem exists_perm_of_connects (h : e.connects members = true) :
    ∃ m n rest, members.Perm (m :: n :: rest) ∧ m.produces e.left = true ∧
      n.produces e.right = true := by
  unfold connects ownerOf? at h
  split at h
  · rename_i i j hi hj
    obtain ⟨hil, hip, -⟩ := List.findIdx?_eq_some_iff_getElem.1 hi
    obtain ⟨hjl, hjp, -⟩ := List.findIdx?_eq_some_iff_getElem.1 hj
    have hij : j ≠ i := fun he => by simp [he] at h
    have hmem : members[j] ∈ members.eraseIdx i :=
      List.mem_eraseIdx_iff_getElem.2 ⟨j, hjl, hij, rfl⟩
    obtain ⟨pre, post, hsplit⟩ := List.append_of_mem hmem
    refine ⟨members[i], members[j], pre ++ post, ?_, hip, hjp⟩
    refine (List.getElem_cons_eraseIdx_perm hil).symm.trans (.cons _ ?_)
    rw [hsplit]
    exact List.perm_middle
  · cases h

theorem two_le_countP_touches (h : e.connects members = true) : 2 ≤ members.countP e.touches := by
  obtain ⟨m, n, rest, hp, hm, hn⟩ := exists_perm_of_connects h
  have hm : e.touches m = true := by rw [touches, hm, Bool.true_or]
  have hn : e.touches n = true := by rw [touches, hn, Bool.or_true]
  rw [hp.countP_eq, List.countP_cons_of_pos hm, List.countP_cons_of_pos hn]
  omega

theorem connects_of_produces (hl : ∃ m ∈ members, m.produces e.left = true)
    (hr : ∃ m ∈ members, m.produces e.right = true)
    (hnot : ∀ m ∈ members, ¬ (m.produces e.left = true ∧ m.produces e.right = true)) :
    e.connects members = true := by
  unfold connects ownerOf?
  obtain ⟨i, hi⟩ := Option.isSome_iff_exists.1 (List.findIdx?_isSome ▸ List.any_eq_true.2 hl)
  obtain ⟨j, hj⟩ := Option.isSome_iff_exists.1 (List.findIdx?_isSome ▸ List.any_eq_true.2 hr)
  rw [hi, hj]
  obtain ⟨hil, hip, -⟩ := List.findIdx?_eq_some_iff_getElem.1 hi
  obtain ⟨hjl, hjp, -⟩ := List.findIdx?_eq_some_iff_getElem.1 hj
  refine bne_iff_ne.2 fun hij => ?_
  subst hij
  exact hnot _ (List.getElem_mem hil) ⟨hip, hjp⟩

section Apart
variable (hap : members.Pairwise Node.Apart) (h : e.connects members = true)
include hap h

theorem not_within_of_connects : ∀ m ∈ members, e.within m = false := by
  obtain ⟨m, n, rest, hp, hm, hn⟩ := exists_perm_of_connects h
  have hap := (hp.pairwise_iff fun h => h.symm).1 hap
  obtain ⟨hm', hap⟩ := List.pairwise_cons.1 hap
  obtain ⟨hn', -⟩ := List.pairwise_cons.1 hap
  intro k hk
  refine Bool.eq_false_iff.2 fun hw => ?_
  obtain ⟨hl, hr⟩ := Bool.and_eq_true_iff.1 hw
  rcases List.mem_cons.1 (hp.subset hk) with rfl | hk
  · exact hm' n (by simp) _ hr hn
  · exact hm' k hk _ hm hl

theorem countP_touches_of_connects : members.countP e.touches = 2 := by
  obtain ⟨m, n, rest, hp, hm, hn⟩ := exists_perm_of_connects h
  have hap := (hp.pairwise_iff fun h => h.symm).1 hap
  obtain ⟨hm', hap⟩ := List.pairwise_cons.1 hap
  obtain ⟨hn', -⟩ := List.pairwise_cons.1 hap
  have hrest : rest.countP e.touches = 0 := by
    rw [List.countP_eq_zero]
    intro k hk ht
    rcases Bool.or_eq_true_iff.1 ht with ht | ht
    · exact hm' k (by simp [hk]) _ hm ht
    · exact hn' k hk _ hn ht
  have htm : e.touches m = true := by rw [touches, hm, Bool.true_or]
  have htn : e.touches n = true := by rw [touches, hn, Bool.or_true]
  rw [hp.countP_eq, List.countP_cons_of_pos htm, List.countP_cons_of_pos htn, hrest]

theorem connects_of_ends {f : Edge} {ms : List Node} (hp : ms.Perm members) (hf : f.ends = e.ends) :
    f.connects ms = true := by
  obtain ⟨m, n, rest, hmn, hm, hn⟩ := exists_perm_of_connects h
  have hprod : ∀ {k : Node} {c : Column}, k ∈ members → k.produces c = true →
      ∃ k ∈ ms, k.produces c = true := fun hk hc => ⟨_, hp.symm.subset hk, hc⟩
  have hleft := hprod (hmn.symm.subset (by simp)) hm
  have hright := hprod (hmn.symm.subset (by simp)) hn
  have hnot : ∀ k ∈ ms, ¬ (k.produces e.left = true ∧ k.produces e.right = true) := fun k hk hw =>
    Bool.false_ne_true ((not_within_of_connects hap h k (hp.subset hk)).symm.trans
      (Bool.and_eq_true_iff.2 hw))
  rcases ends_eq_iff.1 hf with rfl | rfl
  · exact connects_of_produces hleft hright hnot
  · exact connects_of_produces hright hleft fun k hk hw => hnot k hk hw.symm

end Apart

end Edge

namespace JoinTree
variable {t : JoinTree} {E : List Edge} {e f : Edge}

theorem uses_of_ends (h : e.ends = f.ends) (t : JoinTree) : t.uses e = t.uses f := by
  induction t with
  | leaf => rfl
  | join _ _ _ l r ihl ihr => rw [uses, uses, ihl, ihr, Edge.between_of_ends h]

theorem Built.mem_edges_iff (h : t.Built E) (he : e ∈ E) :
    e.ends ∈ t.edges.map Edge.ends ↔ 0 < t.uses e := by
  rw [h.map_ends_edges.mem_iff, List.mem_flatMap]
  constructor
  · rintro ⟨f, -, hf⟩
    obtain ⟨hpos, heq⟩ := List.mem_replicate.1 hf
    rw [uses_of_ends heq]
    omega
  · exact fun hpos => ⟨e, he, List.mem_replicate.2 ⟨by omega, rfl⟩⟩

theorem Built.map_ends_edges_of_le_one (h : t.Built E) (hle : ∀ e ∈ E, t.uses e ≤ 1) :
    (t.edges.map Edge.ends).Perm ((E.filter fun e => t.uses e = 1).map Edge.ends) := by
  refine h.map_ends_edges.trans (.of_eq ?_)
  rw [map_filter_eq_flatMap]
  refine List.flatMap_congr fun e he => ?_
  have := hle e he
  rcases Nat.le_one_iff_eq_zero_or_eq_one.1 this with h | h <;> rw [h] <;> rfl

/-- Such a tree carries all edges if and only if it uses every one. -/
theorem Built.edges_perm_iff (h : t.Built E) (hle : ∀ e ∈ E, t.uses e ≤ 1) :
    (t.edges.map Edge.ends).Perm (E.map Edge.ends) ↔ ∀ e ∈ E, t.uses e = 1 := by
  have hp := h.map_ends_edges_of_le_one hle
  constructor
  · intro h' e he
    have hlen := (hp.symm.trans h').length_eq
    rw [List.length_map, List.length_map] at hlen
    have := List.length_filter_eq_length_iff.1 hlen e he
    simpa using this
  · intro hall
    rwa [List.filter_eq_self.2 fun e he => by simpa using hall e he] at hp

theorem Built.edges_perm_edges_iff {u : JoinTree} (ht : t.Built E) (hu : u.Built E)
    (hle : ∀ e ∈ E, t.uses e ≤ 1) (hle' : ∀ e ∈ E, u.uses e ≤ 1) :
    (t.edges.map Edge.ends).Perm (u.edges.map Edge.ends) ↔
      ∀ e ∈ E, e.ends ∈ t.edges.map Edge.ends ↔ e.ends ∈ u.edges.map Edge.ends := by
  constructor
  · exact fun h e _ => h.mem_iff
  · intro h
    refine (ht.map_ends_edges_of_le_one hle).trans
      (.trans (.of_eq ?_) (hu.map_ends_edges_of_le_one hle').symm)
    refine congrArg (List.map Edge.ends) (List.filter_congr fun e he => ?_)
    have hiff := h e he
    rw [ht.mem_edges_iff he, hu.mem_edges_iff he] at hiff
    have := hle e he
    have := hle' e he
    simp only [decide_eq_decide]
    omega

end JoinTree

/-- If the sizes of a list are two in all and some size is two or more, no two have a size. -/
theorem pairwise_of_sum_le_two {α : Type} {f : α → Nat} {as : List α} (hs : (as.map f).sum ≤ 2)
    (ha : ∃ a ∈ as, 2 ≤ f a) : as.Pairwise fun a b => f a = 0 ∨ f b = 0 := by
  induction as with
  | nil => exact .nil
  | cons a as ih =>
    rw [List.map_cons, List.sum_cons] at hs
    have hle : ∀ b ∈ as, f b ≤ (as.map f).sum := fun b hb =>
      List.single_le_sum (fun _ _ => Nat.zero_le _) _ (List.mem_map_of_mem hb)
    obtain ⟨b, hb, h2⟩ := ha
    rcases List.mem_cons.1 hb with rfl | hb
    · have hz : ∀ c ∈ as, f c = 0 := fun c hc => by
        have := hle c hc
        omega
      refine List.pairwise_cons.2 ⟨fun c hc => .inr (hz c hc), ?_⟩
      exact List.pairwise_iff_forall_sublist.2 fun hs => .inl (hz _ (hs.subset (by simp)))
    · have := hle b hb
      exact List.pairwise_cons.2 ⟨fun c _ => .inl (by omega), ih (by omega) ⟨b, hb, h2⟩⟩

namespace JoinTree
variable {E : List Edge} {members : List Node} {u : JoinTree} {ts : List JoinTree} {e : Edge}

theorem sum_uses_lt (e : Edge) (ts : List JoinTree) : (ts.map (·.uses e)).sum = 0 ∨
    (ts.map (·.uses e)).sum < (ts.flatMap leaves).countP e.touches := by
  induction ts with
  | nil => exact .inl rfl
  | cons t ts ih =>
    have := t.uses_lt e
    rw [List.map_cons, List.sum_cons, List.flatMap_cons, List.countP_append]
    omega

section Unconnected
variable (hleaves : ((u :: ts).flatMap leaves).Perm members)
  (hpair : (u :: ts).Pairwise fun t u => connecting E t.plan u.plan = [])
  (he : e ∈ E) (hc : e.connects members = true) (hu : u.plan.produces e.left = true)
include hleaves hpair he hc hu

theorem within_of_unconnected : e.within u.plan = true := by
  refine Bool.and_eq_true_iff.2 ⟨hu, ?_⟩
  obtain ⟨m, n, rest, hp, -, hn⟩ := Edge.exists_perm_of_connects hc
  obtain ⟨w, hw, hnw⟩ :=
    List.mem_flatMap.1 (hleaves.mem_iff.2 (hp.symm.subset (by simp) : n ∈ members))
  rcases List.mem_cons.1 hw with rfl | hw
  · exact produces_plan_iff.2 ⟨n, hnw, hn⟩
  · have hwr : w.plan.produces e.right = true := produces_plan_iff.2 ⟨n, hnw, hn⟩
    have := connecting_eq_nil.1 ((List.pairwise_cons.1 hpair).1 w hw) e he
    simp [Edge.between, hu, hwr] at this

theorem countP_touches_of_unconnected :
    u.leaves.countP e.touches = members.countP e.touches := by
  have hw := Bool.and_eq_true_iff.1 (within_of_unconnected hleaves hpair he hc hu)
  have hnone : (ts.flatMap leaves).countP e.touches = 0 := by
    refine List.countP_eq_zero.2 fun m hm htouch => ?_
    obtain ⟨w, hwt, hm⟩ := List.mem_flatMap.1 hm
    have hwtouch : e.touches w.plan = true :=
      touches_plan.2 (List.countP_pos_iff.2 ⟨m, hm, htouch⟩)
    have := connecting_eq_nil.1 ((List.pairwise_cons.1 hpair).1 w hwt) e he
    rw [Edge.between, hw.1, hw.2, Bool.true_and, Bool.and_true, Bool.or_comm] at this
    exact Bool.false_ne_true (this.symm.trans hwtouch)
  rw [← hleaves.countP_eq, List.flatMap_cons, List.countP_append, hnone, Nat.add_zero]

end Unconnected

theorem sum_uses_pos (hleaves : (ts.flatMap leaves).Perm members)
    (hpair : ts.Pairwise fun t u => connecting E t.plan u.plan = [])
    (hgrown : ∀ u ∈ ts, u.Grown E) (he : e ∈ E) (hc : e.connects members = true) :
    0 < (ts.map (·.uses e)).sum := by
  obtain ⟨m, n, rest, hp, hm, -⟩ := Edge.exists_perm_of_connects hc
  obtain ⟨u, hu, hmu⟩ :=
    List.mem_flatMap.1 (hleaves.mem_iff.2 (hp.symm.subset (by simp) : m ∈ members))
  -- the tree with the left end goes to the front; equal trees may stand in several places
  obtain ⟨pre, post, rfl⟩ := List.append_of_mem hu
  have hperm : (pre ++ u :: post).Perm (u :: (pre ++ post)) := List.perm_middle
  have hleaves' := (hperm.flatMap_right leaves).symm.trans hleaves
  have hpair' := hpair.perm hperm fun h => connecting_symm.1 h
  have hul : u.plan.produces e.left = true := produces_plan_iff.2 ⟨m, hmu, hm⟩
  have hpos := (hgrown u hu).uses_pos (within_of_unconnected hleaves' hpair' he hc hul)
    (by
      rw [countP_touches_of_unconnected hleaves' hpair' he hc hul]
      exact Edge.two_le_countP_touches hc)
  have : u.uses e ≤ ((pre ++ u :: post).map (·.uses e)).sum :=
    List.single_le_sum (fun _ _ => Nat.zero_le _) _ (List.mem_map_of_mem hu)
  omega

section Apart
variable (hleaves : (ts.flatMap leaves).Perm members) (hgrown : ∀ u ∈ ts, u.Grown E)
  (hap : members.Pairwise Node.Apart) (he : ∀ e ∈ E, e.connects members = true)
include hleaves hap he

theorem sum_uses_le_one {e : Edge} (hes : e ∈ E) : (ts.map (·.uses e)).sum ≤ 1 := by
  have hlt := sum_uses_lt e ts
  rw [hleaves.countP_eq, Edge.countP_touches_of_connects hap (he e hes)] at hlt
  omega

include hgrown

theorem sum_uses_eq_one (hpair : ts.Pairwise fun t u => connecting E t.plan u.plan = []) {e : Edge}
    (hes : e ∈ E) : (ts.map (·.uses e)).sum = 1 := by
  have := sum_uses_pos hleaves hpair hgrown hes (he e hes)
  have := sum_uses_le_one hleaves hap he hes
  omega

/-- No two of several grown trees are connected if and only if they use every edge. -/
theorem pairwise_unconnected_iff :
    (ts.Pairwise fun t u => connecting E t.plan u.plan = []) ↔
      ∀ e ∈ E, (ts.map (·.uses e)).sum = 1 := by
  refine ⟨fun h e hes => sum_uses_eq_one hleaves hgrown hap he h hes, fun hall => ?_⟩
  rw [List.pairwise_iff_forall_sublist]
  intro u w huw
  refine connecting_eq_nil.2 fun e hes => ?_
  have hsum : (ts.map fun u => u.leaves.countP e.touches).sum ≤ 2 := by
    have := Edge.countP_touches_of_connects hap (he e hes)
    rw [← hleaves.countP_eq, List.countP_flatMap] at this
    exact this.le
  have hused : ∃ u ∈ ts, 2 ≤ u.leaves.countP e.touches := by
    have hone := hall e hes
    obtain ⟨k, hk, hpos⟩ := List.exists_mem_ne_zero_of_sum_ne_zero (by rw [hone]; decide)
    obtain ⟨v, hv, rfl⟩ := List.mem_map.1 hk
    have := v.uses_lt e
    exact ⟨v, hv, by omega⟩
  have hzero := List.pairwise_iff_forall_sublist.1 (pairwise_of_sum_le_two hsum hused) huw
  refine Bool.eq_false_iff.2 fun hb => ?_
  have hu := touches_plan.1 (Edge.touches_left hb)
  have hw := touches_plan.1 (Edge.touches_right hb)
  omega

end Apart

end JoinTree

namespace Search
variable {ν σ : Type} [CostScale ν] {s : Search ν σ} {members : List Node} {residuals : List Expr}
  {a b : Session ν σ}

theorem smooth_of_less (h : ∀ n l r e c e', s.model.join s.estimator n l r e = .ok c e' →
      CostScale.less c CostScale.ceiling = true) (members : List Node) (residuals : List Expr)
    (a : Session ν σ) : s.Smooth members residuals a :=
  (affordable_of_less h members residuals a).smooth

omit [CostScale ν] in
theorem uses_le_one {t : JoinTree} {left : List Expr} {e : Edge}
    (hf : Forest s.edges members residuals [t] left) (he : members.countP e.touches ≤ 2) :
    t.uses e ≤ 1 := by
  have hl : t.leaves.Perm members := by simpa using hf.leaves
  have := t.uses_lt e
  rw [hl.countP_eq] at this
  omega

/-- Over members that are apart, a search is smooth if and only if it uses every edge. -/
theorem smooth_iff_uses {found : Option Solution} (hne : members ≠ [])
    (hap : members.Pairwise Node.Apart) (he : ∀ e ∈ s.edges, e.connects members = true)
    (h : s.solve members residuals a = .ok found b) :
    ∃ (t : JoinTree) (left : List Expr), found = some ⟨t.plan, left⟩ ∧
      Forest s.edges members residuals [t] left ∧ (∀ e ∈ s.edges, t.uses e ≤ 1) ∧
      (s.Smooth members residuals a ↔ ∀ e ∈ s.edges, t.uses e = 1) := by
  obtain ⟨ts, t, left, rfl, hf, hleaves, hgrown, huses, hsmooth, -⟩ := forest_of_solve hne h
  have hle : ∀ e ∈ s.edges, t.uses e ≤ 1 := fun e hes =>
    uses_le_one hf (Edge.countP_touches_of_connects hap (he e hes)).le
  refine ⟨t, left, rfl, hf, hle, ?_⟩
  rw [hsmooth, JoinTree.pairwise_unconnected_iff hleaves hgrown hap he]
  simp only [huses]

end Search

namespace Node

theorem produces_of_shape {m n : Node} (h : m.shape = n.shape) (c : Column) :
    m.produces c = n.produces c := by
  unfold produces
  rw [schema_eq_of_shape h]

end Node

section Copies
variable {ms ns : List Node} (h : ms.map Node.shape = ns.map Node.shape)
include h

theorem forall₂_produces_of_shape :
    List.Forall₂ Node.SameColumns ms ns := by
  have := List.forall₂_eq_eq_eq.symm ▸ h
  exact (List.forall₂_map_left_iff.1 (List.forall₂_map_right_iff.1 this)).imp
    fun _ _ h => Node.produces_of_shape h

end Copies

namespace JoinTree

theorem covers_eq (t : JoinTree) (h : 2 ≤ t.leaves.length) (e : Expr) :
    t.covers e = t.plan.covers e := by
  cases t with
  | leaf => simp [leaves] at h
  | join tag _ _ l r => exact (Node.covers_join tag _ l.plan r.plan e).symm

end JoinTree

/-- What is pending in the end is what all members together do not cover. -/
theorem Forest.pending_eq {E : List Edge} {members : List Node} {conditions pending : List Expr}
    {t : JoinTree} (h : Forest E members conditions [t] pending) (hsize : 2 ≤ members.length) :
    pending = conditions.filter fun e => !e.columns.all fun c => members.any (·.produces c) := by
  have hl : t.leaves.Perm members := by simpa using h.leaves
  rw [h.pending]
  refine List.filter_congr fun e _ => ?_
  rw [List.any_cons, List.any_nil, Bool.or_false, t.covers_eq (hl.length_eq ▸ hsize), Node.covers]
  exact congrArg (fun f => !e.columns.all f)
    (funext fun c => (t.produces_plan c).trans (hl.any_eq ..))

namespace Search
variable {ν σ : Type} [CostScale ν] {s₁ s₂ : Search ν σ} {members₁ members₂ : List Node}

/-- Two searches over copies of the same members succeed, unless the ranking of one of them panics.
If they succeed, they keep the same residual conditions on their joins and the same ones pending,
whatever the costs. They keep the same equalities if both are smooth. A search that is not smooth
drops an edge, and two searches keep the same equalities exactly if they drop the same edges. -/
theorem solve_conditions (h₁ : s₁.Reliable) (h₂ : s₂.Reliable) (hedges : s₂.edges = s₁.edges)
    (hcopy : members₁.map Node.shape = members₂.map Node.shape) (hsize : 2 ≤ members₁.length)
    (hap : members₁.Pairwise Node.Apart) (he : ∀ e ∈ s₁.edges, e.connects members₁ = true)
    (residuals : List Expr) (a₁ a₂ : Session ν σ) :
    ((∃ found b, s₁.solve members₁ residuals a₁ = .ok found b) ∨
      ∃ b, s₁.solve members₁ residuals a₁ = .error .disorder b ∧
        RankingPanics s₁.estimator s₁.model members₁) ∧
    ((∃ found b, s₂.solve members₂ residuals a₂ = .ok found b) ∨
      ∃ b, s₂.solve members₂ residuals a₂ = .error .disorder b ∧
        RankingPanics s₂.estimator s₂.model members₂) ∧
    ∀ found₁ found₂ b₁ b₂, s₁.solve members₁ residuals a₁ = .ok found₁ b₁ →
      s₂.solve members₂ residuals a₂ = .ok found₂ b₂ →
      ∃ t₁ t₂ left, found₁ = some ⟨JoinTree.plan t₁, left⟩ ∧
      found₂ = some ⟨JoinTree.plan t₂, left⟩ ∧
      t₁.leaves.Perm members₁ ∧ t₂.leaves.Perm members₂ ∧ t₁.residuals.Perm t₂.residuals ∧
      (s₁.Smooth members₁ residuals a₁ → s₂.Smooth members₂ residuals a₂ →
        (t₁.edges.map Edge.ends).Perm (t₂.edges.map Edge.ends)) ∧
      (s₁.Smooth members₁ residuals a₁ ↔
        (t₁.edges.map Edge.ends).Perm (s₁.edges.map Edge.ends)) ∧
      (s₂.Smooth members₂ residuals a₂ ↔
        (t₂.edges.map Edge.ends).Perm (s₁.edges.map Edge.ends)) ∧
      ((t₁.edges.map Edge.ends).Perm (t₂.edges.map Edge.ends) ↔
        ∀ e ∈ s₁.edges, e.ends ∈ t₁.edges.map Edge.ends ↔ e.ends ∈ t₂.edges.map Edge.ends) := by
  have hsame := forall₂_produces_of_shape hcopy
  have hlen : members₁.length = members₂.length := hsame.length_eq
  have hne₁ : members₁ ≠ [] := fun h => by simp [h] at hsize
  have hne₂ : members₂ ≠ [] := fun h => by simp [hlen, h] at hsize
  refine ⟨h₁.solve_or_panic members₁ residuals a₁, h₂.solve_or_panic members₂ residuals a₂,
    fun found₁ found₂ b₁ b₂ hs₁ hs₂ => ?_⟩
  obtain ⟨t₁, left, rfl, hf₁, hle₁, hsm₁⟩ := smooth_iff_uses hne₁ hap he hs₁
  obtain ⟨t₂, left', rfl, hf₂, hle₂, hsm₂⟩ := smooth_iff_uses hne₂ (pairwise_apart_congr hsame hap)
    (fun e h => Edge.connects_congr hsame e ▸ he e (hedges ▸ h)) hs₂
  rw [hedges] at hf₂ hle₂ hsm₂
  have hleft : left' = left := by
    rw [hf₁.pending_eq hsize, hf₂.pending_eq (hlen ▸ hsize)]
    simp only [any_produces_congr hsame]
  subst hleft
  have hb₁ := hf₁.built t₁ (by simp)
  have hb₂ := hf₂.built t₂ (by simp)
  have hedges₁ := hsm₁.trans (hb₁.edges_perm_iff hle₁).symm
  have hedges₂ := hsm₂.trans (hb₂.edges_perm_iff hle₂).symm
  refine ⟨t₁, t₂, left', rfl, rfl, by simpa using hf₁.leaves, by simpa using hf₂.leaves, ?_,
    fun h h' => (hedges₁.1 h).trans (hedges₂.1 h').symm, hedges₁, hedges₂,
    hb₁.edges_perm_edges_iff hb₂ hle₁ hle₂⟩
  have hres := hf₁.residuals.trans hf₂.residuals.symm
  rw [List.flatMap_singleton, List.flatMap_singleton] at hres
  exact (List.perm_append_right_iff left').1 hres

/-- A search over two tables that one edge connects, in which every join has the same cost. -/
def twoTables (join : ℕ) : Search ℕ Unit :=
  ⟨.constant (.ofRows 10), .constant 10 join, Node.twoTables.innerEdges⟩

theorem solve_conditions_twoTables : ∃ t₁ t₂ left b₁ b₂,
    (twoTables 1).solve Node.twoTables.members [] (.unused 2) = .ok (some ⟨JoinTree.plan t₁, left⟩) b₁ ∧
      (twoTables 1000).solve Node.twoTables.members [] (.unused 2) = .ok (some ⟨JoinTree.plan t₂, left⟩) b₂ ∧
      t₁.residuals.Perm t₂.residuals ∧
      ((twoTables 1000).Smooth Node.twoTables.members [] (.unused 2) ↔
        (t₂.edges.map Edge.ends).Perm ((twoTables 1).edges.map Edge.ends)) := by
  have hap : Node.twoTables.members.Pairwise Node.Apart := by decide
  have hrel : ∀ join, (twoTables join).Reliable := fun join => reliable_constant _ 10 join _
  obtain ⟨h₁, h₂, hall⟩ :=
    solve_conditions (hrel 1) (hrel 1000) rfl rfl le_rfl hap (by decide) [] (.unused 2) (.unused 2)
  obtain ⟨found₁, b₁, h₁⟩ := h₁.resolve_right fun ⟨_, _, hp⟩ => not_rankingPanics _ _ _ hp
  obtain ⟨found₂, b₂, h₂⟩ := h₂.resolve_right fun ⟨_, _, hp⟩ => not_rankingPanics _ _ _ hp
  obtain ⟨t₁, t₂, left, rfl, rfl, -, -, hres, -, -, hsmooth, -⟩ := hall _ _ _ _ h₁ h₂
  exact ⟨t₁, t₂, left, b₁, b₂, h₁, h₂, hres, hsmooth⟩

/-- A search in which joins cost as much as the ceiling drops the edge that another one keeps. -/
theorem solve_conditions_atCeiling : ∃ m n b₁ b₂,
    (twoTables 1).solve Node.twoTables.members [] (.unused 2) = .ok (some ⟨m, []⟩) b₁ ∧
      (twoTables 1000).solve Node.twoTables.members [] (.unused 2) = .ok (some ⟨n, []⟩) b₂ ∧
      m.innerEdges = Node.twoTables.innerEdges ∧ n.innerEdges = [] :=
  ⟨_, _, _, _, rfl, rfl, rfl, rfl⟩

end Search

end JoinOrder
