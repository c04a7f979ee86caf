import JoinOrder.Proofs.FixedPoint
import JoinOrder.Proofs.Following

/-!
# Reordering with structural collaborators

With structural collaborators, reordering gives up to tags what their prices give
(`Structural.rewrite`), whatever is remembered and wherever the nodes of the plan stand. Reordered
plans are fixed points of that, so reordering a plan again changes nothing
(`Structural.rewrite_rewrite`).
-/

namespace JoinOrder

namespace Node
variable {n : Node}

theorem groupsBelow_bare (n : Node) : n.bare.groupsBelow = n.groupsBelow.map bare := by
  have hroot : ∀ n : Node, n.bare.rootGroup = n.rootGroup.map bare := fun n => by
    rw [rootGroup, rootGroup, isInnerJoin_bare]
    split <;> rfl
  induction n with
  | scan => rfl
  | unary tag op i ih => rw [bare, groupsBelow, groupsBelow, hroot, ih, List.map_append]
  | join tag j l r ihl ihr =>
    rw [bare, groupsBelow, groupsBelow, ihl, ihr, hroot, hroot]
    split <;> simp only [List.map_append]

theorem disjoint_bare (h : n.Disjoint) : n.bare.Disjoint := by
  intro g hg
  obtain ⟨k, hk, rfl⟩ : ∃ k ∈ n.groups, k.bare = g := by
    rw [groups, rootGroup, isInnerJoin_bare, groupsBelow_bare] at hg
    rcases List.mem_append.1 hg with hg | hg
    · refine ⟨n, ?_, ?_⟩
      · split at hg
        · exact mem_groups_self ‹_›
        · cases hg
      · split at hg
        · exact (List.mem_singleton.1 hg).symm
        · cases hg
    · obtain ⟨k, hk, rfl⟩ := List.mem_map.1 hg
      exact ⟨k, List.mem_append_right _ hk, rfl⟩
  rw [members_bare, List.pairwise_map]
  refine (h k hk).imp fun hmn c => ?_
  rw [produces_bare, produces_bare]
  exact hmn c

theorem wellFormed_bare : n.bare.WellFormed ↔ n.WellFormed := by
  induction n with
  | scan => exact Iff.rfl
  | unary tag op i ih => rw [bare, WellFormed, WellFormed, produces_bare, ih]
  | join tag j l r ihl ihr => rw [bare, WellFormed, WellFormed, ihl, ihr]

end Node

theorem JoinGroup.ofPlan_bare (n : Node) : ofPlan n.bare =
    ⟨n.members.map Node.bare, (ofPlan n).edges, (ofPlan n).residuals⟩ := by
  have hsame : List.Forall₂ Node.SameColumns (n.members.map Node.bare) n.members :=
    List.forall₂_map_left_iff.2 (List.forall₂_same.2 fun m _ c => congrFun m.produces_bare c)
  unfold ofPlan
  simp only [Node.members_bare, Node.innerEdges_bare, Node.innerResiduals_bare,
    Edge.connects_congr hsame]

namespace Reorder
variable {h : Heap}

theorem yields_withInputs_unary {tag : Tag} {op : UnaryOp} {input i : Node}
    (hn : h.Holds (.unary tag op input)) (hi : h.Holds i) (hop : op.missing? i.produces = none) :
    Yields Supply.Fits h (withInputs (.unary tag op input) [i]) fun h' q =>
      h'.Holds q ∧ q.bare = .unary .blank op i.bare := by
  unfold withInputs
  split
  · rename_i hc
    have hbare := hi.bare_eq (Heap.holds_unary.1 hn).2 (List.cons.inj hc).1
    exact .pure ⟨hn, by rw [Node.bare, hbare]⟩
  · exact yields_unary hi hop

theorem yields_withInputs_join {tag : Tag} {j : Join} {left right l r : Node}
    (hn : h.Holds (.join tag j left right)) (hl : h.Holds l) (hr : h.Holds r) :
    Yields Supply.Fits h (withInputs (.join tag j left right) [l, r]) fun h' q =>
      h'.Holds q ∧ q.bare = .join .blank j l.bare r.bare := by
  unfold withInputs
  split
  · rename_i hc
    obtain ⟨-, hleft, hright⟩ := Heap.holds_join.1 hn
    obtain ⟨hcl, hcr⟩ := List.cons.inj hc
    have hbl := hl.bare_eq hleft hcl
    have hbr := hr.bare_eq hright (List.cons.inj hcr).1
    exact .pure ⟨hn, by rw [Node.bare, hbl, hbr]⟩
  · exact yields_join hl hr

theorem holds_headD {n : Node} {new : List Node} (hn : h.Holds n) (hnew : ∀ m ∈ new, h.Holds m) :
    h.Holds (new.headD n) ∧ (new.headD n).bare = (new.map Node.bare).headD n.bare := by
  cases new with
  | nil => exact ⟨hn, rfl⟩
  | cons m new => exact ⟨hnew m (List.mem_cons_self ..), rfl⟩

theorem yields_nextMember {n : Node} {new : List Node} (hn : h.Holds n)
    (hnew : ∀ m ∈ new, h.Holds m) :
    Yields Supply.Fits h (pure (new.headD n, new.tail)) fun h' q =>
      h'.Holds q.1 ∧ (∀ m ∈ q.2, h'.Holds m) ∧
        ((new.map Node.bare).headD n.bare, (new.map Node.bare).tail) =
          (q.1.bare, q.2.map Node.bare) := by
  obtain ⟨hhead, hbare⟩ := holds_headD hn hnew
  exact .pure ⟨hhead, fun m hm => hnew m (List.mem_of_mem_tail hm), by rw [hbare, List.map_tail]⟩

theorem yields_withMembers {n : Node} {new : List Node} (hn : h.Holds n)
    (hnew : ∀ m ∈ new, h.Holds m) :
    Yields Supply.Fits h (withMembers n new) fun h' q => h'.Holds q.1 ∧ (∀ m ∈ q.2, h'.Holds m) ∧
      Pricing.rejoin n.bare (new.map Node.bare) = (q.1.bare, q.2.map Node.bare) := by
  induction n generalizing h new with
  | scan => exact yields_nextMember hn hnew
  | unary => exact yields_nextMember hn hnew
  | join tag j left right ihl ihr =>
    obtain ⟨-, hleft, hright⟩ := Heap.holds_join.1 hn
    rw [withMembers, Node.bare, Pricing.rejoin]
    cases hj : j.isInner with
    | true =>
      refine (ihl hleft hnew).bind fun h₁ _ l _ _ hb hl => ?_
      refine (ihr (hright.mono hb) hl.2.1).bind fun h₂ _ r _ _ hb' hr => ?_
      refine (yields_withInputs_join ((hn.mono hb).mono hb') (hl.1.mono hb') hr.1).bind
        fun h₃ _ q _ _ hb'' hq => .pure ⟨hq.1, fun m hm => (hr.2.1 m hm).mono hb'', ?_⟩
      simp only [if_true, hl.2.2, hr.2.2, hq.2]
    | false => exact yields_nextMember hn hnew

theorem yields_filterBy {conditions : List Expr} {n : Node} (hn : h.Holds n) :
    Yields Supply.Fits h (filterBy conditions n) fun h' q =>
      h'.Holds q ∧ q.bare = Pricing.filterBy conditions n.bare := by
  unfold filterBy Pricing.filterBy
  split
  · exact .pure ⟨hn, rfl⟩
  · exact yields_unary hn rfl

theorem yields_arrange {s : Schema} {n : Node} (hn : h.Holds n)
    (hs : ∀ c ∈ s.columns, n.produces c = true) :
    Yields Supply.Fits h (arrange s n) fun h' q =>
      h'.Holds q ∧ q.bare = Pricing.arrange s n.bare := by
  unfold arrange Pricing.arrange
  rw [Node.schema_bare]
  split
  · exact .pure ⟨hn, rfl⟩
  · exact yields_unary hn (Pricing.missing?_project hs)

theorem yields_dressed {config : Config} {n : Node} {s : Solution} (hs : h.Holds s.plan)
    (hn : n.SameColumns s.plan) :
    Yields Supply.Fits h (do
        let filtered ← filterBy s.pending s.plan
        if config.restoreColumnOrder then arrange n.schema filtered else return filtered)
      fun h' q => h'.Holds q ∧ q.bare = Pricing.dressed config n.bare s.bare := by
  refine (yields_filterBy hs).bind fun h₁ _ q _ _ _ hq => ?_
  have hprod : ∀ c ∈ n.schema.columns, q.produces c = true := fun c hc => by
    rw [← Node.produces_bare, hq.2, Pricing.produces_filterBy, Node.produces_bare, ← hn c,
      Node.produces_iff]
    exact hc
  unfold Pricing.dressed Solution.bare
  rw [Node.schema_bare]
  dsimp only
  rw [← hq.2]
  split
  · exact yields_arrange hq.1 hprod
  · exact .pure ⟨hq.1, rfl⟩

end Reorder

namespace Structural

variable {ν σ : Type} [CostScale ν] [LawfulCosts ν] {context : Context ν σ}
  {derive : Node → List (Statistics ν) → Statistics ν} {p : Pricing ν} {h : Heap} {n : Node}
  {ms : List Node} (hs : Structural context.estimator context.model derive p) (hp : p.Lawful)
include hs hp

theorem settleGroup (hn : h.Holds n) (hms : ∀ m ∈ ms, h.Holds m)
    (hsame : List.Forall₂ Node.SameColumns n.members ms) :
    Yields (Session.Fits derive) h (Reorder.settleGroup context n ms) fun h' q =>
      h'.Holds q ∧ q.bare = p.settleGroup context.config n.bare (ms.map Node.bare) := by
  unfold Reorder.settleGroup Pricing.settleGroup
  rw [List.length_map, JoinGroup.ofPlan_bare]
  split
  · let search : Search ν σ := ⟨context.estimator, context.model, (JoinGroup.ofPlan n).edges⟩
    have hsearch : Structural search.estimator search.model derive p := hs
    refine (hsearch.solve hp.base_below hms _).bind fun h₁ _ found _ hsolve hb hfound => ?_
    dsimp only
    rw [← hfound.2]
    cases found with
    | none => exact .pure ⟨hn.mono hb, rfl⟩
    | some s =>
      exact yields_build (Reorder.yields_dressed (hfound.1 s rfl)
        (Reorder.sameColumns_of_solve hsame hsolve))
  · refine (yields_build (Reorder.yields_withMembers hn hms)).bind fun h₁ _ q _ _ _ hq =>
      .pure ⟨hq.1, ?_⟩
    rw [hq.2.2]

theorem settle (hn : h.Holds n) (hms : ∀ m ∈ ms, h.Holds m)
    (hsame : List.Forall₂ Node.SameColumns n.members ms) :
    Yields (Session.Fits derive) h (Reorder.settle context n ms) fun h' q =>
      h'.Holds q ∧ q.bare = p.settle context.config n.bare (ms.map Node.bare) := by
  unfold Reorder.settle Pricing.settle
  rw [Node.isInnerJoin_bare]
  split
  · exact hs.settleGroup hp hn hms hsame
  · exact .pure (Reorder.holds_headD hn hms)

theorem rewriteMembers (hw : n.WellFormed) (hn : h.Holds n) :
    Yields (Session.Fits derive) h (Reorder.rewriteMembers context n) fun h' ms =>
      (∀ m ∈ ms, h'.Holds m) ∧ ms.map Node.bare = p.rewriteMembers context.config n.bare := by
  induction n generalizing h with
  | scan => exact .pure ⟨by simpa using hn, rfl⟩
  | unary tag op input ih =>
    obtain ⟨-, hi⟩ := Heap.holds_unary.1 hn
    refine (ih hw.2 hi).bind fun h₁ _ is _ his hb₁ hms => ?_
    refine (hs.settle hp (hi.mono hb₁) hms.1 (Reorder.sameColumns_of_members his)).bind
      fun h₂ _ i _ hset hb₂ hq => ?_
    have hop : op.missing? i.produces = none := by
      rw [← funext (Reorder.sameColumns_of_settle his hset)]
      exact hw.1
    refine (yields_build (Reorder.yields_withInputs_unary ((hn.mono hb₁).mono hb₂) hq.1 hop)).bind
      fun h₃ _ q _ _ _ hr => .pure ⟨by simpa using hr.1, ?_⟩
    rw [List.map_singleton, hr.2, hq.2, hms.2]
    rfl
  | join tag j left right ihl ihr =>
    obtain ⟨-, hleft, hright⟩ := Heap.holds_join.1 hn
    rw [Reorder.rewriteMembers, Node.bare, Pricing.rewriteMembers]
    cases hj : j.isInner with
    | true =>
      refine (ihl hw.1 hleft).bind fun h₁ _ ls _ _ hb₁ hl => ?_
      refine (ihr hw.2 (hright.mono hb₁)).bind fun h₂ _ rs _ _ hb₂ hr => .pure ⟨?_, ?_⟩
      · exact List.forall_mem_append.2 ⟨fun m hm => (hl.1 m hm).mono hb₂, hr.1⟩
      · rw [List.map_append, hl.2, hr.2]
        rfl
    | false =>
      refine (ihl hw.1 hleft).bind fun h₁ _ ls _ hls hb₁ hl => ?_
      refine (hs.settle hp (hleft.mono hb₁) hl.1 (Reorder.sameColumns_of_members hls)).bind
        fun h₂ _ l _ _ hb₂ hq => ?_
      refine (ihr hw.2 (hright.mono (hb₁.trans hb₂))).bind fun h₃ _ rs _ hrs hb₃ hr => ?_
      refine (hs.settle hp (hright.mono ((hb₁.trans hb₂).trans hb₃)) hr.1
        (Reorder.sameColumns_of_members hrs)).bind fun h₄ _ r _ _ hb₄ hq' => ?_
      refine (yields_build (Reorder.yields_withInputs_join
        (hn.mono (((hb₁.trans hb₂).trans hb₃).trans hb₄)) (hq.1.mono (hb₃.trans hb₄)) hq'.1)).bind
        fun h₅ _ q _ _ _ hz => .pure ⟨by simpa using hz.1, ?_⟩
      rw [List.map_singleton, hz.2, hq.2, hq'.2, hl.2, hr.2]
      rfl

/-- Reordering gives, up to tags, what the prices give. -/
theorem rewrite (hw : n.WellFormed) (hn : h.Holds n) :
    Yields (Session.Fits derive) h (Reorder.rewrite context n) fun h' q =>
      h'.Holds q ∧ q.bare = p.rewrite context.config n.bare := by
  refine (hs.rewriteMembers hp hw hn).bind fun h₁ _ ms _ hms hb hm => ?_
  refine (hs.settle hp (hn.mono hb) hm.1 (Reorder.sameColumns_of_members hms)).imp
    fun h₂ q _ hq => ⟨hq.1, ?_⟩
  rw [hq.2, hm.2]
  rfl

/-- Reordering a reordered plan gives a plan of the same shape. -/
theorem rewrite_rewrite {a : Session ν σ} (ha : a.Fits derive h) (hn : h.Holds n)
    (hw : n.WellFormed) (hd : n.Disjoint) :
    ∃ q b r d, Reorder.rewrite context n a = .ok q b ∧ Reorder.rewrite context q b = .ok r d ∧
      r.shape = q.shape := by
  obtain ⟨q, b, h', hq, hb, hh, hqh, hbare⟩ := hs.rewrite hp hw hn a ha
  have hsettles : Pricing.Settles p context.config n.bare (p.rewrite context.config n.bare) :=
    Pricing.settles_rewrite hp n.bare (Node.disjoint_bare hd)
  have hqw : q.WellFormed := by
    rw [← Node.wellFormed_bare, hbare]
    exact hsettles.formed (Node.wellFormed_bare.2 hw)
  have hfixed : p.rewrite context.config q.bare = q.bare := by
    rw [hbare]
    exact hsettles.fixed
  obtain ⟨r, d, -, hr, -, -, -, hrb⟩ := hs.rewrite hp hqw hqh b hb
  exact ⟨q, b, r, d, hq, hr, Node.bare_eq_iff.1 (hrb.trans hfixed)⟩

end Structural

namespace Structural

/-- Three tables, of which the two that are joined first have no condition in common. -/
def threeTables : Node :=
  .join ⟨4, 4⟩ ⟨.inner, [⟨⟨"a", "x"⟩, ⟨"c", "z"⟩⟩], []⟩
    (.join ⟨2, 2⟩ .cross (.scan ⟨0, 0⟩ (.ofNames "a" ["x"] none))
      (.scan ⟨1, 1⟩ (.ofNames "b" ["y"] none)))
    (.scan ⟨3, 3⟩ (.ofNames "c" ["z"] none))

end Structural

end JoinOrder
