import JoinOrder.Proofs.StructuralRewriting
import JoinOrder.Proofs.Steps

/-!
# Reordering side by side

Two contexts that treat groups alike run alike on plans of one shape, if their searches are related
step by step and so are the nodes that they make (`Reorder.Simulates.rewrite`). Of the operators
that a rewrite makes only a projection can be refused. It never is: what stands below it still puts
out the columns that it names (`Reorder.standsFor`).
-/

namespace JoinOrder

namespace Planning
variable {ν σ α β : Type}

theorem build_bind (x : Building α) (k : α → Building β) :
    (build (x >>= k) : Planning ν σ β) = build x >>= fun r => build (k r) := by
  funext a
  change Action.onPart _ _ (EStateM.bind x k) a = EStateM.bind (build x) (fun r => build (k r)) a
  unfold build Action.onPart EStateM.bind
  dsimp only
  cases x a.supply with
  | ok r supply => rfl
  | error f supply => rfl

end Planning

namespace Node
variable {n' : Node}

theorem eq_unary_of_bare {tag : Tag} {op : UnaryOp} {i : Node} (h : (unary tag op i).bare = n'.bare) :
    ∃ tag' i', n' = unary tag' op i' := by
  cases n' with
  | unary tag' op' i' =>
    simp only [bare, unary.injEq, true_and] at h
    rw [h.1]
    exact ⟨tag', i', rfl⟩
  | _ => simp [bare] at h

theorem eq_join_of_bare {tag : Tag} {j : Join} {l r : Node} (h : (join tag j l r).bare = n'.bare) :
    ∃ tag' l' r', n' = join tag' j l' r' := by
  cases n' with
  | join tag' j' l' r' =>
    simp only [bare, join.injEq, true_and] at h
    rw [h.1]
    exact ⟨tag', l', r', rfl⟩
  | _ => simp [bare] at h

theorem groupsBelow_inner {tag : Tag} {j : Join} {l r : Node} (hj : j.isInner = true) :
    (join tag j l r).groupsBelow = l.groupsBelow ++ r.groupsBelow := if_pos hj

theorem groupsBelow_outer {tag : Tag} {j : Join} {l r : Node} (hj : j.isInner = false) :
    (join tag j l r).groupsBelow = l.groups ++ r.groups := if_neg (by simp [hj])

end Node

/-- The group is to be ordered anew, and ranking what its members have become may panic. -/
def Reorder.GroupPanics {ν σ : Type} [CostScale ν] (context : Context ν σ) (g : Node) : Prop :=
  context.config.admits g.members.length = true ∧ ∃ ms,
    List.Forall₂ Node.SameColumns g.members ms ∧ RankingPanics context.estimator context.model ms

/-- Ranking the members of one of the groups may panic. -/
def Reorder.Panics {ν σ : Type} [CostScale ν] (context : Context ν σ) (n : Node) : Prop :=
  ∃ g ∈ n.groups, GroupPanics context g

namespace Reorder
variable {ω ν σ τ : Type} [World ω]

/-- Every step of the second context follows the same step of the first where nodes are related by
`P`. Related nodes have one shape. -/
structure Simulates (C : Correspondence ω (Session ν σ) (Session ν τ))
    (P : ω → Node → Node → Prop) (context : Context ν σ) (context' : Context ν τ) : Prop where
  config : context.config = context'.config
  search (E : List Edge) : Steps.Simulates C P (Search.steps ⟨context.estimator, context.model, E⟩)
    (Search.steps ⟨context'.estimator, context'.model, E⟩)
  bare {w : ω} {m n : Node} (h : P w m n) : m.bare = n.bare
  input {w : ω} {tag tag' : Tag} {op : UnaryOp} {i i' : Node}
    (h : P w (.unary tag op i) (.unary tag' op i')) : P w i i'
  inputs {w : ω} {tag tag' : Tag} {j : Join} {l l' r r' : Node}
    (h : P w (.join tag j l r) (.join tag' j l' r')) : P w l l' ∧ P w r r'
  unary {w : ω} {op : UnaryOp} {i i' : Node} (hi : P w i i') (hop : op.missing? i.produces = none) :
    C.Relates w (Planning.build (Building.node (.unary op) [i]))
      (Planning.build (Building.node (.unary op) [i'])) P
  withInput {w : ω} {tag tag' : Tag} {op : UnaryOp} {m m' i i' : Node}
    (h : P w (.unary tag op m) (.unary tag' op m')) (hi : P w i i')
    (hop : op.missing? i.produces = none) :
    C.Relates w (Planning.build (withInputs (.unary tag op m) [i]))
      (Planning.build (withInputs (.unary tag' op m') [i'])) P
  withInputs {w : ω} {tag tag' : Tag} {j : Join} {m m' n n' l l' r r' : Node}
    (h : P w (.join tag j m n) (.join tag' j m' n')) (hl : P w l l') (hr : P w r r') :
    C.Relates w (Planning.build (Reorder.withInputs (.join tag j m n) [l, r]))
      (Planning.build (Reorder.withInputs (.join tag' j m' n') [l', r'])) P

namespace Simulates
variable {C : Correspondence ω (Session ν σ) (Session ν τ)} {P : ω → Node → Node → Prop}
  {context : Context ν σ} {context' : Context ν τ} (h : Simulates C P context context') {w : ω}
  {n n' : Node} {ms ms' : List Node}
include h

theorem mono {w' : ω} {m m' : Node} (hw : World.Grows w w') (hm : P w m m') : P w' m m' :=
  (h.search []).mono hw hm

omit [World ω] h in
theorem headD (hn : P w n n') (hms : List.Forall₂ (P w) ms ms') :
    P w (ms.headD n) (ms'.headD n') := by
  cases hms with
  | nil => exact hn
  | cons hm => exact hm

omit h in
theorem nextMember (hn : P w n n') (hms : List.Forall₂ (P w) ms ms') :
    C.Relates w (Planning.build (pure (ms.headD n, ms.tail)))
      (Planning.build (pure (ms'.headD n', ms'.tail)))
      fun v q q' => P v q.1 q'.1 ∧ List.Forall₂ (P v) q.2 q'.2 := by
  refine .pure ⟨headD hn hms, ?_⟩
  cases hms with
  | nil => exact .nil
  | cons _ hms => exact hms

theorem withMembers (hn : P w n n') (hms : List.Forall₂ (P w) ms ms') :
    C.Relates w (Planning.build (Reorder.withMembers n ms))
      (Planning.build (Reorder.withMembers n' ms'))
      fun v q q' => P v q.1 q'.1 ∧ List.Forall₂ (P v) q.2 q'.2 := by
  induction n generalizing n' ms ms' w with
  | scan tag s =>
    cases n' with
    | scan => exact nextMember hn hms
    | _ => cases h.bare hn
  | unary tag op i =>
    obtain ⟨tag', i', rfl⟩ := Node.eq_unary_of_bare (h.bare hn)
    exact nextMember hn hms
  | join tag j l r ihl ihr =>
    obtain ⟨tag', l', r', rfl⟩ := Node.eq_join_of_bare (h.bare hn)
    rw [Reorder.withMembers, Reorder.withMembers]
    cases j.isInner with
    | true =>
      obtain ⟨hl, hr⟩ := h.inputs hn
      simp only [if_true, Planning.build_bind]
      refine (ihl hl hms).bind fun v q q' hv hq => ?_
      refine (ihr (h.mono hv hr) hq.2).bind fun v' p p' hv' hp => ?_
      refine (h.withInputs (h.mono (World.trans hv hv') hn) (h.mono hv' hq.1) hp.1).bind
        fun u o o' hu ho => .pure ⟨ho, hp.2.imp fun _ _ => h.mono hu⟩
    | false => exact nextMember hn hms

theorem filterBy (conditions : List Expr) (hn : P w n n') :
    C.Relates w (Planning.build (Reorder.filterBy conditions n))
      (Planning.build (Reorder.filterBy conditions n')) P := by
  unfold Reorder.filterBy
  split
  · exact .pure hn
  · exact h.unary hn rfl

theorem arrange {s : Schema} (hn : P w n n') (hs : ∀ c ∈ s.columns, n.produces c = true) :
    C.Relates w (Planning.build (Reorder.arrange s n)) (Planning.build (Reorder.arrange s n')) P := by
  have hschema : n.schema = n'.schema := by
    rw [← n.schema_bare, h.bare hn, n'.schema_bare]
  unfold Reorder.arrange
  rw [← hschema]
  split
  · exact .pure hn
  · exact h.unary hn (Pricing.missing?_project hs)

theorem dressed {config : Config} {s s' : Solution} (hs : Steps.AlikeSolutions P w s s')
    (hn : P w n n') (hcols : n.SameColumns s.plan) :
    C.Relates w
      (Planning.build do
        let filtered ← Reorder.filterBy s.pending s.plan
        if config.restoreColumnOrder then Reorder.arrange n.schema filtered else return filtered)
      (Planning.build do
        let filtered ← Reorder.filterBy s'.pending s'.plan
        if config.restoreColumnOrder then Reorder.arrange n'.schema filtered else return filtered)
      P := by
  have hschema : n.schema = n'.schema := by
    rw [← n.schema_bare, h.bare hn, n'.schema_bare]
  rw [Planning.build_bind, Planning.build_bind, ← hschema, ← hs.pending]
  refine (h.filterBy s.pending hs.plan).bind_of fun v a q _ _ q' _ hq _ _ hqq => ?_
  split
  · refine h.arrange hqq fun c hc => ?_
    obtain ⟨_, hq, -⟩ := Action.onPart_eq_ok.1 hq
    have hq := of_filterBy hq
    have hplan : s.plan.produces c = true := by
      rw [← hcols c, Node.produces_iff]
      exact hc
    split at hq
    · rw [hq, hplan]
    · obtain ⟨tag, rfl⟩ := hq
      exact hplan
  · exact .pure hqq

variable [CostScale ν]

theorem settleGroup (hn : P w n n') (hms : List.Forall₂ (P w) ms ms')
    (hsame : List.Forall₂ Node.SameColumns n.members ms) (hp : GroupPanics context n → C.panics) :
    C.Relates w (Reorder.settleGroup context n ms) (Reorder.settleGroup context' n' ms') P := by
  have hgroup := congrArg JoinGroup.ofPlan (h.bare hn)
  rw [JoinGroup.ofPlan_bare, JoinGroup.ofPlan_bare, JoinGroup.mk.injEq] at hgroup
  unfold Reorder.settleGroup
  dsimp only
  rw [← h.config, ← hms.length_eq, ← hgroup.2.1, ← hgroup.2.2]
  split
  · rename_i ha
    have hsolve := (h.search (JoinGroup.ofPlan n).edges).solve (JoinGroup.ofPlan n).edges
      (fun hpanics => hp ⟨hsame.length_eq ▸ ha, ms, hsame, hpanics⟩) hms
      (JoinGroup.ofPlan n).residuals
    rw [Search.steps_solve, Search.steps_solve] at hsolve
    refine hsolve.bind_of ?_
    rintro v a _ a' _ _ _ hfound - hv (hs | _)
    · exact h.dressed hs (h.mono hv hn) (sameColumns_of_solve hsame hfound)
    · exact .pure (h.mono hv hn)
  · exact (h.withMembers hn hms).bind fun v q q' _ hq => .pure hq.1

theorem settle (hn : P w n n') (hms : List.Forall₂ (P w) ms ms')
    (hsame : List.Forall₂ Node.SameColumns n.members ms)
    (hp : ∀ g ∈ n.rootGroup, GroupPanics context g → C.panics) :
    C.Relates w (Reorder.settle context n ms) (Reorder.settle context' n' ms') P := by
  unfold Reorder.settle
  rw [← n'.isInnerJoin_bare, ← h.bare hn, n.isInnerJoin_bare]
  split
  · rename_i hinner
    refine h.settleGroup hn hms hsame (hp n ?_)
    rw [Node.rootGroup, if_pos hinner]
    exact List.mem_singleton_self n
  · exact .pure (headD hn hms)

theorem rewriteMembers (hw : n.WellFormed) (hn : P w n n')
    (hp : ∀ g ∈ n.groupsBelow, GroupPanics context g → C.panics) :
    C.Relates w (Reorder.rewriteMembers context n) (Reorder.rewriteMembers context' n')
      fun v => List.Forall₂ (P v) := by
  induction n generalizing n' w with
  | scan tag s =>
    cases n' with
    | scan => exact .pure (.cons hn .nil)
    | _ => cases h.bare hn
  | unary tag op i ih =>
    obtain ⟨tag', i', rfl⟩ := Node.eq_unary_of_bare (h.bare hn)
    obtain ⟨hroot, hbelow⟩ := List.forall_mem_append.1 hp
    refine (ih hw.2 (h.input hn) hbelow).bind_of fun v₁ _ is _ _ is' _ his _ hv₁ hrel => ?_
    refine (h.settle (h.mono hv₁ (h.input hn)) hrel (sameColumns_of_members his) hroot).bind_of
      fun v₂ _ q _ _ q' _ hq _ hv₂ hqq => ?_
    have hop : op.missing? q.produces = none := by
      rw [← funext (sameColumns_of_settle his hq)]
      exact hw.1
    exact (h.withInput (h.mono (World.trans hv₁ hv₂) hn) hqq hop).bind
      fun _ _ _ _ ho => .pure (.cons ho .nil)
  | join tag j l r ihl ihr =>
    obtain ⟨tag', l', r', rfl⟩ := Node.eq_join_of_bare (h.bare hn)
    obtain ⟨hl, hr⟩ := h.inputs hn
    rw [Reorder.rewriteMembers, Reorder.rewriteMembers]
    cases hj : j.isInner with
    | true =>
      rw [Node.groupsBelow_inner hj, List.forall_mem_append] at hp
      rw [if_pos rfl, if_pos rfl]
      refine (ihl hw.1 hl hp.1).bind fun v₁ ls ls' hv₁ hls => ?_
      refine (ihr hw.2 (h.mono hv₁ hr) hp.2).bind fun v₂ rs rs' hv₂ hrs => .pure ?_
      exact List.rel_append (hls.imp fun _ _ => h.mono hv₂) hrs
    | false =>
      rw [Node.groupsBelow_outer hj, List.forall_mem_append] at hp
      obtain ⟨hrootl, hbelowl⟩ := List.forall_mem_append.1 hp.1
      obtain ⟨hrootr, hbelowr⟩ := List.forall_mem_append.1 hp.2
      refine (ihl hw.1 hl hbelowl).bind_of fun v₁ _ ls _ _ ls' _ hls _ hv₁ hlss => ?_
      refine (h.settle (h.mono hv₁ hl) hlss (sameColumns_of_members hls) hrootl).bind
        fun v₂ p p' hv₂ hpp => ?_
      have hv := World.trans hv₁ hv₂
      refine (ihr hw.2 (h.mono hv hr) hbelowr).bind_of fun v₃ _ rs _ _ rs' _ hrs _ hv₃ hrss => ?_
      have hv := World.trans hv hv₃
      refine (h.settle (h.mono hv hr) hrss (sameColumns_of_members hrs) hrootr).bind
        fun v₄ q q' hv₄ hq => ?_
      have hpp := h.mono hv₄ (h.mono hv₃ hpp)
      exact (h.withInputs (h.mono (World.trans hv hv₄) hn) hpp hq).bind
        fun _ _ _ _ ho => .pure (.cons ho .nil)

/-- Related plans are reordered side by side, if the rankings of their groups may panic in both. -/
theorem rewrite (hp : Panics context n → C.panics) (hw : n.WellFormed) (hn : P w n n') :
    C.Relates w (Reorder.rewrite context n) (Reorder.rewrite context' n') P := by
  obtain ⟨hroot, hbelow⟩ := List.forall_mem_append.1 fun g hg hpanics => hp ⟨g, hg, hpanics⟩
  refine (h.rewriteMembers hw hn hbelow).bind_of fun v _ ms _ _ ms' _ hms _ hv hrel => ?_
  exact h.settle (h.mono hv hn) hrel (sameColumns_of_members hms) hroot

end Simulates

end Reorder

end JoinOrder
