import JoinOrder.Proofs.PricedRewriting
import JoinOrder.Proofs.Replay

/-!
# Reordered plans are fixed points

With known prices, reordering a reordered plan gives it back (`Pricing.settles_rewrite`). The
members of its groups are fixed points by induction. A group that was joined anew has the members,
edges and conditions of the tree that the search found, and a search over these finds this tree
again and leaves nothing pending. So no filter and no projection is added to those that the first
rewriting put on top.
-/

namespace JoinOrder

namespace Node
variable {f : Node → Node} {n : Node}

theorem wellFormed_of_members (h : n.WellFormed) : ∀ m ∈ n.members, m.WellFormed := by
  induction n with
  | scan => exact fun m hm => List.mem_singleton.1 hm ▸ h
  | unary => exact fun m hm => List.mem_singleton.1 hm ▸ h
  | join tag j l r ihl ihr =>
    intro m hm
    rw [members] at hm
    split at hm
    · exact (List.mem_append.1 hm).elim (ihl h.1 m) (ihr h.2 m)
    · exact List.mem_singleton.1 hm ▸ h

theorem wellFormed_mapMembers (h : ∀ m ∈ n.members, (f m).WellFormed) :
    (n.mapMembers f).WellFormed := by
  induction n with
  | scan => exact h _ (List.mem_singleton_self _)
  | unary => exact h _ (List.mem_singleton_self _)
  | join tag j l r ihl ihr =>
    rw [members] at h
    rw [mapMembers]
    split
    · rename_i hj
      rw [if_pos hj, List.forall_mem_append] at h
      exact ⟨ihl h.1, ihr h.2⟩
    · rename_i hj
      rw [if_neg hj] at h
      exact h _ (List.mem_singleton_self _)

end Node

namespace JoinTree
variable {t : JoinTree}

theorem wellFormed_plan (h : ∀ m ∈ t.leaves, m.WellFormed) : t.plan.WellFormed := by
  induction t with
  | leaf n => exact h n (List.mem_singleton_self n)
  | join tag _ _ l r ihl ihr =>
    exact ⟨ihl fun m hm => h m (List.mem_append_left _ hm),
      ihr fun m hm => h m (List.mem_append_right _ hm)⟩

theorem ofPlan_plan (hi : ∀ m ∈ t.leaves, m.isInnerJoin = false)
    (hc : ∀ e ∈ t.edges, e.connects t.leaves = true) :
    JoinGroup.ofPlan t.plan = ⟨t.leaves, t.edges, t.residuals⟩ := by
  have hnone : t.edges.filter (!·.connects t.leaves) = [] :=
    List.filter_eq_nil_iff.2 fun e he => by simp [hc e he]
  unfold JoinGroup.ofPlan
  simp only [members_plan hi, innerEdges_plan hi, innerResiduals_plan hi]
  rw [List.filter_eq_self.2 hc, hnone, List.map_nil, List.append_nil]

end JoinTree

namespace Pricing

section Dressed
variable {config : Config} {n : Node} {s : Solution}

theorem missing?_project {s : Schema} {i : Node} (h : ∀ c ∈ s.columns, i.produces c = true) :
    (UnaryOp.project s.columns).missing? i.produces = none :=
  List.find?_eq_none.2 fun c hc => by simpa using h c hc

theorem produces_filterBy (conditions : List Expr) (n : Node) (c : Column) :
    (filterBy conditions n).produces c = n.produces c := by
  unfold filterBy
  split <;> rfl

theorem dresses_dressed (h : n.SameColumns s.plan) : Dresses config n s (dressed config n s) := by
  refine ⟨filterBy s.pending s.plan, ?_, ?_⟩
  · unfold filterBy
    cases s.pending with
    | nil => rfl
    | cons e es => exact ⟨.blank, rfl⟩
  · unfold dressed arrange
    cases config.restoreColumnOrder with
    | false => rfl
    | true =>
      by_cases hs : (filterBy s.pending s.plan).schema = n.schema
      · simp [hs]
      · simp only [hs, if_true, if_false, true_and, ne_eq, not_false_eq_true]
        refine ⟨fun c hc => ?_, .blank, rfl⟩
        rw [produces_filterBy, ← h c, Node.produces_iff]
        exact hc

/-- What holds of a solution and is kept by steps with one input holds of the dressed solution. -/
theorem dressed_induction {P : Node → Prop} (h : n.SameColumns s.plan) (hs : P s.plan)
    (unary : ∀ op i, op.missing? i.produces = none → P i → P (.unary .blank op i)) :
    P (dressed config n s) := by
  have hf : P (filterBy s.pending s.plan) := by
    unfold filterBy
    split
    · exact hs
    · exact unary _ _ rfl hs
  unfold dressed arrange
  dsimp only
  split_ifs
  · exact hf
  · refine unary _ _ (missing?_project fun c hc => ?_) hf
    rw [produces_filterBy, ← h c, Node.produces_iff]
    exact hc
  · exact hf

theorem dressed_self (config : Config) (n : Node) : dressed config n ⟨n, []⟩ = n := by
  unfold dressed filterBy arrange
  simp

end Dressed

variable {ν : Type} [CostScale ν] {p : Pricing ν} {config : Config} {n q : Node}

/-- The plan `q` makes up for `n`, is bare, and is a fixed point. -/
structure Settles (p : Pricing ν) (config : Config) (n q : Node) : Prop where
  stands : q.StandsFor n
  bare : q.bare = q
  formed : n.WellFormed → q.WellFormed
  fixed : p.rewrite config q = q

theorem settles_of_kept (hn : n.isInnerJoin = true)
    (ha : config.admits n.members.length = false)
    (hm : ∀ m ∈ n.members, Settles p config m (p.rewrite config m)) :
    Settles p config n (p.rewrite config n) := by
  have hinner : ∀ m ∈ n.members, (p.rewrite config m).isInnerJoin = false := fun m hmem =>
    (hm m hmem).stands.inner (Node.not_inner_of_mem_members hmem)
  have hq : p.rewrite config n = n.mapMembers (p.rewrite config) := by
    rw [rewrite_of_inner hn, settleGroup, List.length_map, ha, if_neg Bool.false_ne_true]
    have := rejoin_map (p.rewrite config) n []
    rw [List.append_nil] at this
    rw [this]
  have hqi := Node.isInnerJoin_mapMembers (f := p.rewrite config) hn
  have hmem := Node.members_mapMembers hinner
  rw [hq]
  refine ⟨⟨?_, fun h => ?_⟩, ?_, fun hw => ?_, ?_⟩
  · exact Node.sameColumns_mapMembers fun m hmem => (hm m hmem).stands.produces
  · rw [h] at hn
    cases hn
  · exact Node.bare_mapMembers fun m hmem => (hm m hmem).bare
  · exact Node.wellFormed_mapMembers fun m hmem =>
      (hm m hmem).formed (Node.wellFormed_of_members hw m hmem)
  · have hfixed : ∀ m ∈ (n.mapMembers (p.rewrite config)).members, p.rewrite config m = m.bare := by
      rw [hmem]
      refine List.forall_mem_map.2 fun m hmem => ?_
      rw [(hm m hmem).fixed, (hm m hmem).bare]
    rw [rewrite_of_inner hqi, settleGroup, List.length_map, hmem, List.length_map, ha,
      if_neg Bool.false_ne_true, ← hmem]
    have := rejoin_map (p.rewrite config) (n.mapMembers (p.rewrite config)) []
    rw [List.append_nil] at this
    rw [this, Node.mapMembers_eq_bare hfixed]
    exact Node.bare_mapMembers fun m hmem => (hm m hmem).bare

/-- The tree that a search finds over fixed points is a fixed point. -/
theorem rewrite_plan {t : JoinTree} (hn : 2 ≤ t.leaves.length)
    (ha : config.admits t.leaves.length = true)
    (hl : ∀ m ∈ t.leaves, m.isInnerJoin = false ∧ p.rewrite config m = m)
    (hc : ∀ e ∈ t.edges, e.connects t.leaves = true)
    (hagain : p.solve t.edges t.leaves t.residuals = some ⟨t.plan, []⟩) :
    p.rewrite config t.plan = t.plan := by
  have hi : ∀ m ∈ t.leaves, m.isInnerJoin = false := fun m hm => (hl m hm).1
  have hleaves : t.leaves.map (p.rewrite config) = t.leaves :=
    (List.map_congr_left fun m hm => (hl m hm).2).trans (List.map_id _)
  rw [rewrite_of_inner (JoinTree.isInnerJoin_plan hn), JoinTree.members_plan hi, hleaves,
    settleGroup, if_pos ha, JoinTree.ofPlan_plan hi hc, hagain]
  exact dressed_self ..

variable [LawfulCosts ν]

theorem settles_of_joined (hp : p.Lawful) (hn : n.isInnerJoin = true)
    (ha : config.admits n.members.length = true) (hap : n.members.Pairwise Node.Apart)
    (hm : ∀ m ∈ n.members, Settles p config m (p.rewrite config m)) :
    Settles p config n (p.rewrite config n) := by
  have hsame : List.Forall₂ Node.SameColumns n.members (n.members.map (p.rewrite config)) :=
    List.forall₂_map_right_iff.2 (List.forall₂_same.2 fun m hmem => (hm m hmem).stands.produces)
  have hsize := Node.two_le_length_members hn
  have hconn : ∀ e ∈ (JoinGroup.ofPlan n).edges,
      e.connects (n.members.map (p.rewrite config)) = true := Reorder.connects_of_mem_ofPlan hsame
  obtain ⟨t, left, hf⟩ : ∃ t left, Finds p (JoinGroup.ofPlan n).edges
      (n.members.map (p.rewrite config)) (JoinGroup.ofPlan n).residuals t left :=
    solve_solve hp (pairwise_apart_congr hsame hap) hconn (by rwa [List.length_map])
      (List.forall_mem_map.2 fun m hmem => (hm m hmem).bare)
  have hlen : t.leaves.length = n.members.length := by
    rw [hf.leaves.length_eq, List.length_map]
  have hl : ∀ {P : Node → Prop}, (∀ m ∈ n.members, P (p.rewrite config m)) → ∀ m ∈ t.leaves, P m :=
    fun h m hmem => List.forall_mem_map.2 h m (hf.leaves.subset hmem)
  have hq : p.rewrite config n = dressed config n ⟨t.plan, left⟩ := by
    rw [rewrite_of_inner hn, settleGroup, List.length_map, if_pos ha, hf.found]
  have hcols : n.SameColumns t.plan := JoinTree.sameColumns_plan hf.leaves hsame
  rw [hq]
  refine ⟨⟨(dresses_dressed hcols).produces hcols, fun h => ?_⟩, ?_, fun hw => ?_, ?_⟩
  · rw [h] at hn
    cases hn
  · exact dressed_induction (P := fun q => q.bare = q) hcols hf.bare fun op i _ h => by
      rw [Node.bare, h]
  · refine dressed_induction hcols (JoinTree.wellFormed_plan (hl fun m hmem => ?_))
      fun op i hop h => ⟨hop, h⟩
    exact (hm m hmem).formed (Node.wellFormed_of_members hw m hmem)
  · refine dressed_induction (P := fun q => p.rewrite config q = q) hcols ?_ fun op i _ h => by
      rw [rewrite_unary, h]
    refine rewrite_plan (by rwa [hlen]) (by rwa [hlen]) (hl fun m hmem => ⟨?_, (hm m hmem).fixed⟩)
      hf.connects hf.again
    exact (hm m hmem).stands.inner (Node.not_inner_of_mem_members hmem)

theorem settles_rewrite (hp : p.Lawful) (n : Node) :
    n.Disjoint → Settles p config n (p.rewrite config n) := by
  induction n using Node.group_induction with
  | scan tag s =>
    exact fun _ => ⟨⟨fun _ => rfl, fun h => h⟩, rfl, fun h => h, rfl⟩
  | unary tag op i ih =>
    intro hd
    have h := ih fun g hg => hd g (by rwa [Node.groups_unary])
    rw [rewrite_unary]
    refine ⟨h.stands.unary .., by rw [Node.bare, h.bare], fun hw => ⟨?_, h.formed hw.2⟩,
      by rw [rewrite_unary, h.fixed]⟩
    rw [← funext h.stands.produces]
    exact hw.1
  | outer tag j l r hj ihl ihr =>
    intro hd
    rw [Node.Disjoint, Node.groups_outer hj, List.forall_mem_append] at hd
    have hl := ihl hd.1
    have hr := ihr hd.2
    rw [rewrite_outer hj]
    exact ⟨hl.stands.join hr.stands .., by rw [Node.bare, hl.bare, hr.bare],
      fun hw => ⟨hl.formed hw.1, hr.formed hw.2⟩, by rw [rewrite_outer hj, hl.fixed, hr.fixed]⟩
  | inner n hn ih =>
    intro hd
    have hm : ∀ m ∈ n.members, Settles p config m (p.rewrite config m) := fun m hmem =>
      ih m hmem fun g hg => hd g (Node.groups_subset_of_mem_members hmem hg)
    cases ha : config.admits n.members.length with
    | true => exact settles_of_joined hp hn ha (hd n (Node.mem_groups_self hn)) hm
    | false => exact settles_of_kept hn ha hm

end Pricing

end JoinOrder
