import JoinOrder.Proofs.Course
import JoinOrder.Proofs.Survival

/-!
# Replaying a search on its own result

The trees that a search ends with, flattened again, give a group with the same members in the order
of their leaves, with the edges in the order in which joins took them, and with the residual
conditions block by block. A search over this group has the same choices at every moment: the
candidates carry the same conditions, if perhaps in another order, and the chosen join carries
exactly those that it carried before (`Course.transfer`). So it follows the same course and ends
with the same plan (`solve_solve`).
-/

namespace JoinOrder

namespace Pricing
variable {ν : Type} [CostScale ν] {p : Pricing ν} {E : List Edge} {t : Tree ν}
  {pending left : List Expr} {F : List (Tree ν)} {steps : List Step} {plans : List Node}

/-- What becomes of the tree `T` and of the members `F` along a course. -/
structure Grows (E : List Edge) (T : JoinTree) (pending : List Expr) (F : List Node)
    (steps : List Step) (ts : List JoinTree) (left : List Expr) : Prop where
  grown : ∀ u ∈ ts, u.Grown E
  leaves : ts.flatMap JoinTree.leaves = T.leaves ++ F
  unconnected : ts.Pairwise fun t u => connecting E t.plan u.plan = []
  edges : ts.flatMap JoinTree.edges = T.edges ++ steps.flatMap Step.edges
  blocks : ts.flatMap JoinTree.blocks = T.blocks ++ deal (steps.map Step.takes) pending
  uncovered : (∀ e ∈ pending, T.covers e = false) → ∀ e ∈ left, ∀ u ∈ ts, u.covers e = false

theorem Course.left_eq (h : Course p E t pending F steps plans left) :
    left = undealt (steps.map Step.takes) pending := by
  induction h with
  | join _ _ _ ih => exact ih
  | close _ _ _ ih => exact ih
  | finish => rfl

theorem Course.grows (h : Course p E t pending F steps plans left) :
    ∀ {T : JoinTree}, t.plan = T.plan → T.Grown E →
      ∃ ts : List JoinTree, plans = ts.map JoinTree.plan ∧
        Grows E T pending (F.map Tree.plan) steps ts left := by
  induction h with
  | @join t x pending left F steps plans hc _ _ ih =>
    intro T hT hg
    have hJ : JoinTree.Grown E (.join .blank (connecting E T.plan x.plan)
        (pending.filter (·.coveredBy T.plan x.plan)) T (.leaf x.plan)) :=
      hg.join .blank (hT ▸ hc) fun e he => (List.mem_filter.1 he).2
    obtain ⟨ts, hplans, h⟩ := ih (by rw [joined, hT]; rfl) hJ
    rw [hT] at h ⊢
    refine ⟨ts, hplans, h.grown, ?_, h.unconnected, ?_, ?_, fun hu => h.uncovered ?_⟩
    · rw [h.leaves]
      simp [JoinTree.leaves]
    · rw [h.edges]
      simp [JoinTree.edges]
    · rw [h.blocks]
      simp [JoinTree.blocks, deal, pendingAbove]
    · intro e he
      have := (List.mem_filter.1 he).2
      rw [JoinTree.covers_join]
      simpa [JoinTree.plan] using this
  | @close t x pending left F steps plans hn _ hrest ih =>
    intro T hT hg
    obtain ⟨ts, hplans, h⟩ := ih (T := .leaf x.plan) rfl (.leaf _)
    refine ⟨T :: ts, by rw [hplans, hT]; rfl, List.forall_mem_cons.2 ⟨hg, h.grown⟩, ?_, ?_, ?_, ?_,
      ?_⟩
    · rw [List.flatMap_cons, h.leaves]
      rfl
    · refine List.pairwise_cons.2 ⟨?_, h.unconnected⟩
      have hcols : ∀ c, (∃ n ∈ ts.map JoinTree.plan, n.produces c = true) ↔
          ∃ n ∈ (x :: F).map Tree.plan, n.produces c = true := fun c => by
        rw [JoinTree.exists_produces_map_plan, h.leaves]
        rfl
      rw [← hT, ← List.forall_mem_map (f := JoinTree.plan) (P := fun n => connecting E t.plan n = []),
        forall_connecting_eq_nil hcols]
      exact List.forall_mem_map.2 hn
    · rw [List.flatMap_cons, h.edges]
      rfl
    · rw [List.flatMap_cons, h.blocks]
      rfl
    · intro hu e he
      refine List.forall_mem_cons.2 ⟨hu e (mem_of_mem_undealt (hrest.left_eq ▸ he)), ?_⟩
      exact h.uncovered (fun _ _ => rfl) e he
  | finish =>
    intro T hT hg
    refine ⟨[T], by rw [hT]; rfl, by simpa using hg, by simp, List.pairwise_singleton .., by simp,
      by simp [deal], fun hu e he u hu' => ?_⟩
    rw [List.mem_singleton.1 hu']
    exact hu e he

theorem Course.bare (h : Course p E t pending F steps plans left) (ht : t.plan.bare = t.plan)
    (hF : ∀ y ∈ F, y.plan.bare = y.plan) : plans.map Node.bare = plans := by
  induction h with
  | @join t x pending left F steps plans _ _ _ ih =>
    rw [List.forall_mem_cons] at hF
    refine ih ?_ hF.2
    unfold joined
    rw [Node.bare, ht, hF.1]
  | close _ _ _ ih =>
    rw [List.forall_mem_cons] at hF
    rw [List.map_cons, ht, ih hF.1 hF.2]
  | finish => rw [List.map_singleton, ht]

theorem Course.touches (h : Course p E t pending F steps plans left) :
    ∀ e ∈ steps.flatMap Step.edges, ∃ y ∈ F, e.touches y.plan = true := by
  induction h with
  | @join t x pending left F steps plans hc _ _ ih =>
    intro e he
    rcases List.mem_append.1 (List.flatMap_cons ▸ he) with he | he
    · have := (of_mem_connecting he).2.2
      exact ⟨x, List.mem_cons_self .., by rw [Edge.touches, this, Bool.or_true]⟩
    · obtain ⟨y, hy, ht⟩ := ih e he
      exact ⟨y, List.mem_cons_of_mem _ hy, ht⟩
  | close _ _ _ ih =>
    intro e he
    obtain ⟨y, hy, ht⟩ := ih e he
    exact ⟨y, List.mem_cons_of_mem _ hy, ht⟩
  | finish => simp

theorem between_eq_false {e : Edge} {l r y : Node} (hl : l.Apart y) (hr : r.Apart y)
    (h : e.touches y = true) : e.between l r = false := by
  refine Bool.eq_false_iff.2 fun hb => ?_
  unfold Edge.between at hb
  unfold Edge.touches at h
  simp only [Bool.or_eq_true, Bool.and_eq_true] at hb h
  rcases h with h | h <;> rcases hb with ⟨h₁, h₂⟩ | ⟨h₁, h₂⟩
  · exact hl _ h₁ h
  · exact hr _ h₁ h
  · exact hr _ h₂ h
  · exact hl _ h₂ h

/-- A tree and the remaining members share no columns. -/
def TreesApart (t : Tree ν) (F : List (Tree ν)) : Prop :=
  (t :: F).Pairwise fun u v => u.plan.Apart v.plan

omit [CostScale ν] in
theorem TreesApart.joined {x : Tree ν} (h : TreesApart t (x :: F)) :
    TreesApart (p.joined E t pending x) F := by
  obtain ⟨ht, hx⟩ := List.pairwise_cons.1 h
  obtain ⟨hx, hF⟩ := List.pairwise_cons.1 hx
  refine List.pairwise_cons.2 ⟨fun y hy c hc hyc => ?_, hF⟩
  have hc : (Node.join .blank (.attaching (connecting E t.plan x.plan) pending t.plan x.plan) t.plan
      x.plan).produces c = true := hc
  rw [Node.produces_join, Bool.or_eq_true] at hc
  exact hc.elim (fun h => ht y (List.mem_cons_of_mem _ hy) c h hyc) fun h => hx y hy c h hyc

theorem coveredBy_eq_false {e : Expr} {l r : Node}
    (h : ∃ c ∈ e.columns, l.produces c = false ∧ r.produces c = false) :
    e.coveredBy l r = false := by
  obtain ⟨c, hc, hl, hr⟩ := h
  refine Bool.eq_false_iff.2 fun hcov => ?_
  have := List.all_eq_true.1 hcov c hc
  rw [hl, hr] at this
  cases this

theorem cost_joined_congr (hp : p.Lawful) {E' : List Edge} {pending' P : List Expr} {y : Tree ν}
    (hap : t.plan.Apart y.plan) (hE : (E'.map Edge.ends).Perm (E.map Edge.ends))
    (hP : pending.Perm (pending' ++ P)) (hnot : ∀ e ∈ P, e.coveredBy t.plan y.plan = false) :
    (p.joined E' t pending' y).cost = (p.joined E t pending y).cost := by
  have hnone : P.filter (·.coveredBy t.plan y.plan) = [] :=
    List.filter_eq_nil_iff.2 fun e he => by simp [hnot e he]
  have hres := hP.filter (·.coveredBy t.plan y.plan)
  rw [List.filter_append, hnone, List.append_nil] at hres
  unfold joined Join.attaching
  dsimp only
  rw [hp.join_perm .blank _ _ _ _ t.plan y.plan t.cost y.cost (connecting_perm hap hE) hres.symm]

/-- The course of a search is also that of a search over the edges and conditions in the order in
which the joins took them. -/
theorem Course.transfer (hp : p.Lawful) (h : Course p E t pending F steps plans left) :
    ∀ {E' done : List Edge} {pending' P : List Expr}, TreesApart t F →
      (E'.map Edge.ends).Perm (E.map Edge.ends) →
      E' = done ++ steps.flatMap Step.edges → (∀ e ∈ done, ∀ y ∈ F, e.touches y.plan = false) →
      deal (steps.map Step.takes) pending' = deal (steps.map Step.takes) pending →
      pending.Perm (pending' ++ P) →
      (∀ e ∈ P, ∃ c ∈ e.columns, t.plan.produces c = false ∧ ∀ y ∈ F, y.plan.produces c = false) →
      Course p E' t pending' F steps plans (undealt (steps.map Step.takes) pending') := by
  induction h with
  | @join t x pending left F steps plans hc hbest hrest ih =>
    intro E' done pending' P hap hE hE' hdone hdeal hP hnot
    obtain ⟨ht, hF⟩ := List.pairwise_cons.1 hap
    obtain ⟨hx, -⟩ := List.pairwise_cons.1 hF
    obtain ⟨hown, hdeal⟩ := List.cons.inj hdeal
    have hsame : connecting E' t.plan x.plan = connecting E t.plan x.plan := by
      have hdone' : connecting done t.plan x.plan = [] := connecting_eq_nil.2 fun e he =>
        Bool.eq_false_iff.2 fun hb => by
          have := hdone e he x (List.mem_cons_self ..)
          rw [Edge.touches_right hb] at this
          cases this
      have hahead : connecting (steps.flatMap Step.edges) t.plan x.plan = [] :=
        connecting_eq_nil.2 fun e he => by
          obtain ⟨y, hy, hty⟩ := hrest.touches e he
          exact between_eq_false (ht y (List.mem_cons_of_mem _ hy)) (hx y hy) hty
      rw [hE', List.flatMap_cons, connecting_append, connecting_append, hdone', hahead,
        connecting_eq_self fun e he => (of_mem_connecting he).2, List.nil_append, List.append_nil]
    have hjoined : p.joined E' t pending' x = p.joined E t pending x := by
      unfold joined Join.attaching
      rw [hsame, hown]
    have hnot' : ∀ y ∈ x :: F, ∀ e ∈ P, e.coveredBy t.plan y.plan = false := fun y hy e he => by
      obtain ⟨c, hc, htc, hyc⟩ := hnot e he
      exact coveredBy_eq_false ⟨c, hc, htc, hyc y hy⟩
    rw [← hsame]
    refine .join (by rwa [hsame]) (fun y hy hyc => ?_) ?_
    · have hty := ht y (List.mem_cons_of_mem _ hy)
      rw [hjoined, cost_joined_congr hp hty hE hP (hnot' y (List.mem_cons_of_mem _ hy))]
      refine hbest y hy fun hnil => hyc ?_
      have := connecting_perm hty hE
      rw [hnil] at this
      exact List.perm_nil.1 this
    · rw [hjoined]
      refine @ih E' (done ++ connecting E t.plan x.plan) _ P hap.joined hE ?_ ?_ hdeal ?_ ?_
      · rw [hE', List.flatMap_cons, List.append_assoc]
      · intro e he y hy
        rcases List.mem_append.1 he with he | he
        · exact hdone e he y (List.mem_cons_of_mem _ hy)
        · obtain ⟨-, hl, hr⟩ := of_mem_connecting he
          rw [Edge.touches, Bool.or_eq_false_iff]
          exact ⟨Bool.eq_false_iff.2 fun h => ht y (List.mem_cons_of_mem _ hy) _ hl h,
            Bool.eq_false_iff.2 fun h => hx y hy _ hr h⟩
      · have hall : P.filter (!·.coveredBy t.plan x.plan) = P := List.filter_eq_self.2 fun e he => by
          rw [hnot' x (List.mem_cons_self ..) e he]
          rfl
        have := hP.filter (!·.coveredBy t.plan x.plan)
        rwa [List.filter_append, hall] at this
      · intro e he
        obtain ⟨c, hc, htc, hyc⟩ := hnot e he
        refine ⟨c, hc, ?_, fun y hy => hyc y (List.mem_cons_of_mem _ hy)⟩
        have := Node.produces_join .blank (.attaching (connecting E t.plan x.plan) pending t.plan x.plan)
          t.plan x.plan c
        rw [htc, hyc x (List.mem_cons_self ..)] at this
        exact this
  | @close t x pending left F steps plans hn hleast _ ih =>
    intro E' done pending' P hap hE hE' hdone hdeal hP hnot
    obtain ⟨ht, hF⟩ := List.pairwise_cons.1 hap
    refine .close (fun y hy => ?_) hleast (ih hF hE hE' (fun e he y hy =>
      hdone e he y (List.mem_cons_of_mem _ hy)) hdeal hP fun e he => ?_)
    · have := connecting_perm (ht y hy) hE
      rw [hn y hy] at this
      exact List.perm_nil.1 this
    · obtain ⟨c, hc, -, hy⟩ := hnot e he
      exact ⟨c, hc, hy x (List.mem_cons_self ..), fun y hyF => hy y (List.mem_cons_of_mem _ hyF)⟩
  | finish =>
    intro E' done pending' P _ _ _ _ _ _ _
    exact .finish

end Pricing

namespace Assembly

/-- The trees `ts` have been joined without edges to give `us`, and the joins have taken blocks of
the pending conditions. -/
structure Assembles (ts : List JoinTree) (pending : List Expr) (us : List JoinTree)
    (ps : List (Expr → Bool)) : Prop where
  leaves : us.flatMap JoinTree.leaves = ts.flatMap JoinTree.leaves
  edges : us.flatMap JoinTree.edges = ts.flatMap JoinTree.edges
  blocks : (us.flatMap JoinTree.blocks).Perm (ts.flatMap JoinTree.blocks ++ deal ps pending)
  uncovered : (∀ e ∈ pending, ∀ t ∈ ts, t.covers e = false) →
    ∀ e ∈ undealt ps pending, ∀ u ∈ us, u.covers e = false

variable {ts us vs : List JoinTree} {pending : List Expr} {ps qs : List (Expr → Bool)}

theorem Assembles.refl (ts : List JoinTree) (pending : List Expr) : Assembles ts pending ts [] :=
  ⟨rfl, rfl, by simp [deal], fun h => h⟩

theorem Assembles.trans (h : Assembles ts pending us ps)
    (h' : Assembles us (undealt ps pending) vs qs) : Assembles ts pending vs (ps ++ qs) := by
  refine ⟨h'.leaves.trans h.leaves, h'.edges.trans h.edges, ?_, fun hu => ?_⟩
  · rw [deal_append, ← List.append_assoc]
    exact h'.blocks.trans (h.blocks.append_right _)
  · rw [undealt_append]
    exact h'.uncovered (h.uncovered hu)

theorem exists_assembles_of_pairUp (ts : List JoinTree) (pending : List Expr) :
    ∃ us ps, Assembles ts pending us ps ∧ us.length = (ts.length + 1) / 2 ∧
      ∀ (plans : List Node) (pending' : List Expr) (a : Supply),
        plans.map Node.bare = ts.map JoinTree.plan → deal ps pending' = deal ps pending →
        (pairUp plans pending' a).1.1.map Node.bare = us.map JoinTree.plan ∧
          (pairUp plans pending' a).1.2 = undealt ps pending' := by
  match ts with
  | [] =>
    refine ⟨[], [], .refl .., rfl, fun plans pending' a hp _ => ?_⟩
    rw [List.map_eq_nil_iff.1 hp]
    exact ⟨rfl, rfl⟩
  | [t] =>
    refine ⟨[t], [], .refl .., by simp, fun plans pending' a hp _ => ?_⟩
    obtain ⟨n, ns, rfl, hn, hns⟩ := List.map_eq_cons_iff.1 hp
    rw [List.map_eq_nil_iff.1 hns]
    exact ⟨congrArg (· :: []) hn, rfl⟩
  | l :: r :: rest =>
    obtain ⟨us, ps, has, hlen, hrun⟩ :=
      exists_assembles_of_pairUp rest (pendingAbove pending l.plan r.plan)
    refine ⟨.join .blank [] (pending.filter (·.coveredBy l.plan r.plan)) l r :: us,
      (·.coveredBy l.plan r.plan) :: ps, ⟨?_, ?_, ?_, ?_⟩, ?_, ?_⟩
    · simp [JoinTree.leaves, has.leaves]
    · simp [JoinTree.edges, has.edges]
    · simp only [List.flatMap_cons, JoinTree.blocks, List.append_assoc, List.singleton_append]
      refine .append_left _ (.append_left _ ?_)
      exact (has.blocks.cons _).trans List.perm_middle.symm
    · intro hu e he
      have hleft : e ∈ pendingAbove pending l.plan r.plan := mem_of_mem_undealt he
      have hcov := (List.mem_filter.1 hleft).2
      refine List.forall_mem_cons.2 ⟨?_, has.uncovered (fun e he t ht => ?_) e he⟩
      · rw [JoinTree.covers_join]
        simpa using hcov
      · exact hu e (List.mem_filter.1 he).1 t (by simp [ht])
    · simp only [List.length_cons, hlen]
      omega
    · intro plans pending' a hp hdeal
      obtain ⟨l', ns, rfl, hl, hp⟩ := List.map_eq_cons_iff.1 hp
      obtain ⟨r', rest', rfl, hr, hp⟩ := List.map_eq_cons_iff.1 hp
      obtain ⟨hown, hdeal⟩ := List.cons.inj hdeal
      have hcov : ∀ e : Expr, e.coveredBy l' r' = e.coveredBy l.plan r.plan := fun e => by
        rw [← hl, ← hr, e.coveredBy_bare]
      have hleft : pendingAbove pending' l' r' = pending'.filter (!·.coveredBy l.plan r.plan) :=
        List.filter_congr fun e _ => by rw [hcov]
      rw [pairUp_cons, hleft]
      obtain ⟨hplans, hpend⟩ := hrun rest' _ ⟨a.nextId + 1, a.nextCell + 1⟩ hp hdeal
      refine ⟨?_, hpend⟩
      have htaken : pending'.filter (·.coveredBy l' r') =
          pending.filter (·.coveredBy l.plan r.plan) := by
        rw [← hown]
        exact List.filter_congr fun e _ => hcov e
      simp only [List.map_cons, hplans, Node.bare, Join.attaching, htaken, hl, hr, JoinTree.plan]

/-- All rounds together join the trees in the same way from any conditions that are dealt out to the
joins alike. -/
theorem exists_assembles_of_rounds (k : Nat) (ts : List JoinTree) (pending : List Expr)
    (hne : ts ≠ []) (hk : ts.length ≤ k) : ∃ t ps, Assembles ts pending [t] ps ∧
      ∀ (plans : List Node) (pending' : List Expr) (a : Supply),
        plans.map Node.bare = ts.map JoinTree.plan → deal ps pending' = deal ps pending →
        ∃ s, (rounds k plans pending' a).1 = some s ∧ s.plan.bare = t.plan ∧
          s.pending = undealt ps pending' := by
  induction k generalizing ts pending with
  | zero => exact absurd (List.length_eq_zero_iff.1 (Nat.le_zero.1 hk)) hne
  | succ k ih =>
    match ts with
    | [t] =>
      refine ⟨t, [], .refl .., fun plans pending' a hp _ => ?_⟩
      obtain ⟨n, ns, rfl, hn, hns⟩ := List.map_eq_cons_iff.1 hp
      rw [List.map_eq_nil_iff.1 hns]
      exact ⟨⟨n, pending'⟩, rfl, hn, rfl⟩
    | l :: r :: rest =>
      obtain ⟨us, ps, has, hlen, hpair⟩ := exists_assembles_of_pairUp (l :: r :: rest) pending
      simp only [List.length_cons] at hlen hk
      have hus : us ≠ [] := fun h => by
        rw [h] at hlen
        simp only [List.length_nil] at hlen
        omega
      obtain ⟨t, qs, has', hrun⟩ := ih us (undealt ps pending) hus (by omega)
      refine ⟨t, ps ++ qs, has.trans has', fun plans pending' a hp hdeal => ?_⟩
      obtain ⟨hps, hqs⟩ := deal_eq_of_append hdeal
      obtain ⟨hplans, hleft⟩ := hpair plans pending' a hp hps
      obtain ⟨l', ns, rfl, -, hp⟩ := List.map_eq_cons_iff.1 hp
      obtain ⟨r', rest', rfl, -, -⟩ := List.map_eq_cons_iff.1 hp
      rw [rounds_succ, undealt_append, ← hleft]
      rw [← hleft] at hqs
      exact hrun _ _ _ hplans hqs

end Assembly

namespace Pricing
variable {ν : Type} [CostScale ν] {p : Pricing ν} {E : List Edge} {members : List Node}
  {residuals left : List Expr} {seed : Tree ν} {F : List (Tree ν)} {steps : List Step}
  {plans : List Node}

theorem map_ends_flatMap_edges {ts : List JoinTree} (hb : ∀ u ∈ ts, u.Built E)
    (huses : ∀ e ∈ E, (ts.map (·.uses e)).sum = 1) :
    ((ts.flatMap JoinTree.edges).map Edge.ends).Perm (E.map Edge.ends) := by
  have key : ((ts.flatMap JoinTree.edges).map Edge.ends).Perm
      (E.flatMap fun e => List.replicate (ts.map (·.uses e)).sum e.ends) := by
    clear huses
    induction ts with
    | nil => simp
    | cons t ts ih =>
      rw [List.forall_mem_cons] at hb
      rw [List.flatMap_cons, List.map_append]
      refine (hb.1.map_ends_edges.append (ih hb.2)).trans ?_
      refine (List.flatMap_append_perm E _ _).trans (.of_eq ?_)
      simp only [List.replicate_append_replicate, List.map_cons, List.sum_cons]
  refine key.trans (.of_eq ?_)
  rw [List.flatMap_congr fun e he => by rw [huses e he]]
  exact List.map_eq_flatMap.symm

/-- The tree `t` that a search with these steps ends with; its joins deal out the conditions to
`takes`. -/
structure Whole (E : List Edge) (members : List Node) (residuals : List Expr) (steps : List Step)
    (plans : List Node) (takes : List (Expr → Bool)) (t : JoinTree) : Prop where
  bare : t.plan.bare = t.plan
  leaves : t.leaves = members
  edges : t.edges = steps.flatMap Step.edges
  ends : (t.edges.map Edge.ends).Perm (E.map Edge.ends)
  blocks : t.blocks.Perm (deal takes residuals)
  uncovered : ∀ e ∈ undealt takes residuals, t.covers e = false
  begins : steps.map Step.takes <+: takes
  assembled : ∀ conditions, deal takes conditions = deal takes residuals →
    (Assembly.assemble plans (undealt (steps.map Step.takes) conditions) .initial).1.map
      Solution.bare = some ⟨t.plan, undealt takes conditions⟩

theorem Course.exists_whole (h : Course p E seed residuals F steps plans left)
    (hmembers : (seed :: F).map Tree.plan = members) (hap : members.Pairwise Node.Apart)
    (he : ∀ e ∈ E, e.connects members = true) (hbare : ∀ m ∈ members, m.bare = m) :
    ∃ takes t, Whole E members residuals steps plans takes t := by
  rw [← hmembers, List.map_cons, List.forall_mem_cons] at hbare
  have hpb := h.bare hbare.1 (List.forall_mem_map.1 hbare.2)
  obtain ⟨ts, hplans, hg⟩ := h.grows (T := .leaf seed.plan) rfl (.leaf _)
  have hts : ts.flatMap JoinTree.leaves = members := by
    rw [hg.leaves, ← hmembers]
    rfl
  have hne : ts ≠ [] := fun h => by
    rw [h, ← hmembers] at hts
    cases hts
  obtain ⟨t, ps, has, hrun⟩ := Assembly.exists_assembles_of_rounds ts.length ts left hne le_rfl
  have hlen : plans.length = ts.length := by rw [hplans, List.length_map]
  have hrun := fun conditions => hrun plans conditions .initial (by rw [hpb, hplans])
  have hte : t.edges = steps.flatMap Step.edges := by
    have := has.edges
    rwa [List.flatMap_singleton, hg.edges] at this
  refine ⟨steps.map Step.takes ++ ps, t, ?_, ?_, hte, ?_, ?_, ?_, List.prefix_append .., ?_⟩
  · obtain ⟨s, -, hs, -⟩ := hrun left rfl
    rw [← hs, Node.bare_bare]
  · have := has.leaves
    rwa [List.flatMap_singleton, hts] at this
  · rw [← List.flatMap_singleton JoinTree.edges t, has.edges]
    exact map_ends_flatMap_edges (fun u hu => (hg.grown u hu).built) fun e hes =>
      JoinTree.sum_uses_eq_one (.of_eq hts) hg.grown hap he hg.unconnected hes
  · have := has.blocks
    rw [List.flatMap_singleton, hg.blocks, h.left_eq] at this
    rwa [deal_append]
  · intro e hes
    rw [undealt_append, ← h.left_eq] at hes
    exact has.uncovered (fun e he u hu => hg.uncovered (fun _ _ => rfl) e he u hu) e hes t
      (List.mem_singleton_self t)
  · intro conditions hdeal
    obtain ⟨-, hps⟩ := deal_eq_of_append hdeal
    obtain ⟨s, hs, hsp, hsl⟩ := hrun _ (h.left_eq ▸ hps)
    rw [Assembly.assemble, hlen, hs, Option.map_some, Solution.bare, hsp, hsl, undealt_append]

namespace Whole
variable {takes : List (Expr → Bool)} {t : JoinTree}

theorem deal_residuals (h : Whole E members residuals steps plans takes t) :
    deal takes t.residuals = deal takes residuals ∧ undealt takes t.residuals = [] := by
  have hdeal : deal takes t.residuals = deal takes residuals := by
    rw [← t.flatten_blocks]
    exact deal_flatten_perm h.blocks
  refine ⟨hdeal, ?_⟩
  have hlen := (flatten_deal_perm takes t.residuals).length_eq
  rw [hdeal, List.length_append, ← h.blocks.flatten.length_eq, t.flatten_blocks] at hlen
  exact List.length_eq_zero_iff.1 (by omega)

/-- The search over the flattened tree has the same course. -/
theorem course (h : Whole E members residuals steps plans takes t) (hp : p.Lawful)
    (hcourse : Course p E seed residuals F steps plans left)
    (hmembers : (seed :: F).map Tree.plan = members) (hap : members.Pairwise Node.Apart)
    (hsize : 2 ≤ members.length) :
    Course p t.edges seed t.residuals F steps plans
      (undealt (steps.map Step.takes) t.residuals) := by
  have hapart : TreesApart seed F := by
    rwa [← hmembers, List.pairwise_map] at hap
  have hsteps : deal (steps.map Step.takes) t.residuals = deal (steps.map Step.takes) residuals := by
    have hdeal := h.deal_residuals.1
    obtain ⟨ps, rfl⟩ := h.begins
    exact (deal_eq_of_append hdeal).1
  have hedges : t.edges = [] ++ steps.flatMap Step.edges := h.edges
  have hperm : residuals.Perm (t.residuals ++ undealt takes residuals) := by
    refine (flatten_deal_perm takes residuals).symm.trans (.append_right _ ?_)
    rw [← t.flatten_blocks]
    exact h.blocks.symm.flatten
  refine hcourse.transfer hp hapart h.ends hedges (fun _ h => nomatch h) hsteps hperm fun e hes => ?_
  have hcov := h.uncovered e hes
  rw [t.covers_eq (h.leaves ▸ hsize)] at hcov
  obtain ⟨c, hc, hct⟩ := List.all_eq_false.1 hcov
  suffices hnone : ∀ y ∈ seed :: F, y.plan.produces c = false from
    ⟨c, hc, List.forall_mem_cons.1 hnone⟩
  intro y hy
  refine Bool.eq_false_iff.2 fun hyc => hct (JoinTree.produces_plan_iff.2 ⟨y.plan, ?_, hyc⟩)
  rw [h.leaves, ← hmembers]
  exact List.mem_map_of_mem hy

end Whole

variable [LawfulCosts ν]

/-- A search that lists the members in the order of a course follows the course. -/
theorem solve_of_course (hp : p.Lawful) (h : Course p E seed residuals F steps plans left)
    (hprice : ∀ y ∈ seed :: F, p.appraise y.plan = y) (hleast : ∀ y ∈ F, y.cheaper seed = false) :
    p.solve E ((seed :: F).map Tree.plan) residuals =
      (Assembly.assemble plans left .initial).1.map Solution.bare := by
  have hbelow : ∀ y ∈ seed :: F, CostScale.Below y.cost := fun y hy => by
    rw [← hprice y hy]
    exact hp.base_below y.plan
  obtain ⟨hsb, hFb⟩ := List.forall_mem_cons.1 hbelow
  have hsame : ((seed :: F).map Tree.plan).map p.appraise = seed :: F := by
    rw [List.map_map]
    exact (List.map_congr_left hprice).trans (List.map_id _)
  have hlen : F.length < ((seed :: F).map Tree.plan).length := by
    rw [List.length_map, List.length_cons]
    exact Nat.lt_succ_self _
  unfold solve
  rw [hsame, sorted_cons_of_least hsb hFb hleast, growAll_of_course hp h hlen hsb hFb]

theorem exists_course_of_solve (hp : p.Lawful) (hne : members ≠ []) :
    ∃ seed F steps plans left, Course p E seed residuals F steps plans left ∧
      ((seed :: F).map Tree.plan).Perm members ∧ (∀ y ∈ seed :: F, p.appraise y.plan = y) ∧
      (∀ y ∈ F, y.cheaper seed = false) ∧
      p.solve E members residuals = (Assembly.assemble plans left .initial).1.map Solution.bare := by
  have hbelow : AllBelow (members.map p.appraise) := List.forall_mem_map.2 fun m _ => hp.base_below m
  have hasc := ascending_sorted hbelow
  have hperm := sorted_perm (members.map p.appraise)
  obtain ⟨seed, others, hr⟩ : ∃ seed others, sorted (members.map p.appraise) = seed :: others := by
    refine List.exists_cons_of_ne_nil fun hnil => hne ?_
    rw [hnil] at hperm
    exact List.map_eq_nil_iff.1 hperm.nil_eq.symm
  rw [hr] at hasc hperm
  obtain ⟨hleast, hasc⟩ := List.pairwise_cons.1 hasc
  obtain ⟨hsb, hob⟩ := List.forall_mem_cons.1 fun y hy => hbelow y (hperm.subset hy)
  have hlen : others.length < members.length := by
    have := hperm.length_eq
    rw [List.length_cons, List.length_map] at this
    omega
  obtain ⟨F, steps, hF, hcourse⟩ :=
    @course_of_growAll _ _ p E seed residuals others _ _ hp hlen hsb hob hasc
  have hsF : (seed :: F).Perm (members.map p.appraise) := (hF.cons seed).trans hperm
  refine ⟨seed, F, steps, _, _, hcourse, ?_, fun y hy => ?_, fun y hy => hleast y (hF.subset hy), ?_⟩
  · refine (hsF.map Tree.plan).trans (.of_eq ?_)
    rw [List.map_map]
    exact List.map_id _
  · obtain ⟨m, -, rfl⟩ := List.mem_map.1 (hsF.subset hy)
    rfl
  · unfold solve
    rw [hr]

/-- What a search finds for members that are apart. -/
structure Finds (p : Pricing ν) (E : List Edge) (members : List Node) (residuals : List Expr)
    (t : JoinTree) (left : List Expr) : Prop where
  found : p.solve E members residuals = some ⟨t.plan, left⟩
  bare : t.plan.bare = t.plan
  leaves : t.leaves.Perm members
  connects : ∀ e ∈ t.edges, e.connects t.leaves = true
  again : p.solve t.edges t.leaves t.residuals = some ⟨t.plan, []⟩

/-- A search that is repeated on the flattened result of a search finds this result again. -/
theorem solve_solve (hp : p.Lawful) (hap : members.Pairwise Node.Apart)
    (he : ∀ e ∈ E, e.connects members = true) (hsize : 2 ≤ members.length)
    (hbare : ∀ m ∈ members, m.bare = m) : ∃ t left, Finds p E members residuals t left := by
  have hne : members ≠ [] := fun h => by simp [h] at hsize
  obtain ⟨seed, F, steps, plans, left, hcourse, hperm, hprice, hleast, hsolve⟩ :=
    @exists_course_of_solve _ _ p E _ residuals _ hp hne
  -- The members are now listed in the order in which the search takes them.
  generalize hms : (seed :: F).map Tree.plan = ms at hperm
  have hapart : ms.Pairwise Node.Apart := (hperm.pairwise_iff fun h => h.symm).2 hap
  have hconn : ∀ e ∈ E, e.connects ms = true := fun e hes =>
    Edge.connects_of_ends hap (he e hes) hperm rfl
  obtain ⟨takes, t, ht⟩ := hcourse.exists_whole hms hapart hconn fun m hm =>
    hbare m (hperm.subset hm)
  obtain ⟨hdeal, hnone⟩ := ht.deal_residuals
  have hagain := ht.course hp hcourse hms hapart (hperm.length_eq ▸ hsize)
  refine ⟨t, undealt takes residuals, ⟨?_, ht.bare, ht.leaves ▸ hperm, fun e het => ?_, ?_⟩⟩
  · rw [hsolve, hcourse.left_eq, ht.assembled residuals rfl]
  · obtain ⟨f, hf, hends⟩ := List.mem_map.1 (ht.ends.subset (List.mem_map_of_mem het))
    exact Edge.connects_of_ends hap (he f hf) (ht.leaves ▸ hperm) hends.symm
  · rw [ht.leaves, ← hms, solve_of_course hp hagain hprice hleast, ht.assembled _ hdeal, hnone]

end Pricing

end JoinOrder
