import JoinOrder.Proofs.Groups
import JoinOrder.Proofs.Survival

/-!
# Counting conditions

Reordering moves conditions about and turns equalities into residual conditions, but it has no step
that repeats a condition on purpose. An equality is repeated by accident: a search never removes
an edge from its list, so a tree that already carries an edge takes it again with every further
member that has an end of it. In a *sparse* plan no edge of a group touches more than two members.
Reordering a sparse plan gives a sparse plan with no more conditions, and so does doing it any
number of times (`Reorder.conditionCount_le_of_sparse`).
-/

namespace JoinOrder

/-- The number of conditions of an operator. -/
def UnaryOp.conditionCount : UnaryOp → Nat
  | filter conditions => conditions.length
  | project _ => 0
  | limit _ => 0

/-- The number of conditions of a join, equalities and residual ones. -/
def Join.conditionCount (j : Join) : Nat := j.edges.length + j.residuals.length

namespace Node

/-- The number of conditions in a plan; those of a shared part count wherever it stands. -/
def conditionCount : Node → Nat
  | scan _ _ => 0
  | unary _ op input => op.conditionCount + input.conditionCount
  | join _ j left right => j.conditionCount + left.conditionCount + right.conditionCount

/-- In every group that may be reordered, an edge touches at most two members. -/
def Sparse (config : Config) (n : Node) : Prop :=
  ∀ g ∈ n.groups, config.admits g.members.length = true →
    ∀ e ∈ (JoinGroup.ofPlan g).edges, g.members.countP e.touches ≤ 2

instance (config : Config) (n : Node) : Decidable (n.Sparse config) :=
  inferInstanceAs (Decidable (∀ g ∈ n.groups, config.admits g.members.length = true →
    ∀ e ∈ (JoinGroup.ofPlan g).edges, g.members.countP e.touches ≤ 2))

theorem conditionCount_eq (n : Node) : n.conditionCount =
    n.innerEdges.length + n.innerResiduals.length + (n.members.map conditionCount).sum := by
  induction n with
  | scan => simp [conditionCount, innerEdges, innerResiduals, members]
  | unary => simp [conditionCount, innerEdges, innerResiduals, members]
  | join tag j l r ihl ihr =>
    rw [conditionCount, innerEdges, innerResiduals, members]
    split
    · simp only [ihl, ihr, Join.conditionCount, List.length_append, List.map_append, List.sum_append]
      omega
    · simp [conditionCount]

end Node

theorem JoinGroup.length_ofPlan (n : Node) :
    (ofPlan n).edges.length + (ofPlan n).residuals.length =
      n.innerEdges.length + n.innerResiduals.length := by
  have := (List.filter_append_perm (·.connects n.members) n.innerEdges).length_eq
  rw [List.length_append] at this
  simp only [ofPlan, List.length_append, List.length_map]
  omega

namespace JoinTree
variable {t : JoinTree} {E : List Edge}

theorem conditionCount_plan (t : JoinTree) : t.plan.conditionCount =
    t.edges.length + t.residuals.length + (t.leaves.map Node.conditionCount).sum := by
  induction t with
  | leaf n => simp [plan, edges, residuals, leaves]
  | join tag es rs l r ihl ihr =>
    simp only [plan, Node.conditionCount, Join.conditionCount, ihl, ihr, edges, residuals, leaves,
      List.length_append, List.map_append, List.sum_append]
    omega

theorem Built.length_edges_le (h : t.Built E) (hle : ∀ e ∈ E, t.uses e ≤ 1) :
    t.edges.length ≤ E.length := by
  have := (h.map_ends_edges_of_le_one hle).length_eq
  rw [List.length_map, List.length_map] at this
  exact this ▸ List.length_filter_le ..

theorem Built.exists_ends_eq (h : t.Built E) {e : Edge} (he : e ∈ t.edges) :
    ∃ f ∈ E, e.ends = f.ends := by
  have := h.map_ends_edges.subset (List.mem_map_of_mem he)
  obtain ⟨f, hf, hmem⟩ := List.mem_flatMap.1 this
  exact ⟨f, hf, (List.mem_replicate.1 hmem).2⟩

end JoinTree

theorem Dresses.conditionCount {config : Config} {n q : Node} {s : Solution}
    (h : Dresses config n s q) : q.conditionCount = s.plan.conditionCount + s.pending.length := by
  obtain ⟨filtered, hf, hq⟩ := h
  have hfc : filtered.conditionCount = s.plan.conditionCount + s.pending.length := by
    split at hf
    · rename_i hp
      rw [hf, hp]
      rfl
    · obtain ⟨tag, rfl⟩ := hf
      exact Nat.add_comm ..
  split at hq
  · obtain ⟨-, tag, rfl⟩ := hq
    rw [← hfc]
    exact Nat.zero_add _
  · rw [hq, hfc]

namespace Reorder
variable {ν σ : Type} [CostScale ν] {context : Context ν σ}

/-- The plan `q` stands for `n`, is sparse and has no more conditions. -/
structure NoMoreConditions (config : Config) (n q : Node) : Prop where
  stands : q.StandsFor n
  sparse : q.Sparse config
  count : q.conditionCount ≤ n.conditionCount

section Members
variable {config : Config} {n : Node} {ms : List Node}

theorem sparse_of_mem_members {m : Node} (h : n.Sparse config) (hm : m ∈ n.members) :
    m.Sparse config := fun g hg => h g (Node.groups_subset_of_mem_members hm hg)

theorem noMoreConditions_of_members {P : Node → Node → Prop} {ns : List Node}
    (hP : ∀ m q, P m q → m.Sparse config → NoMoreConditions config m q)
    (h : ∀ m ∈ ns, m.Sparse config) (hms : List.Forall₂ P ns ms) :
    List.Forall₂ (NoMoreConditions config) ns ms := by
  induction hms with
  | nil => exact .nil
  | cons hmq _ ih =>
    rw [List.forall_mem_cons] at h
    exact .cons (hP _ _ hmq h.1) (ih h.2)

theorem sum_conditionCount_le {ns : List Node}
    (h : List.Forall₂ (NoMoreConditions config) ns ms) :
    (ms.map Node.conditionCount).sum ≤ (ns.map Node.conditionCount).sum := by
  induction h with
  | nil => exact le_rfl
  | cons hmq _ ih =>
    have := hmq.count
    simp only [List.map_cons, List.sum_cons]
    omega

end Members

theorem noMoreConditions_of_kept {config : Config} {n q : Node} (hn : n.isInnerJoin = true)
    (ha : config.admits n.members.length = false) (h : Regrouped (NoMoreConditions config) n q) :
    NoMoreConditions config n q := by
  have hmem := h.members fun _ _ h => h.stands.inner
  refine ⟨.of_inner hn (h.sameColumns fun _ _ h => h.stands.produces), ?_, ?_⟩
  · intro g hg hadm
    rcases Node.mem_groups_iff.1 hg with ⟨-, rfl⟩ | ⟨m, hm, hg⟩
    · rw [← hmem.length_eq, ha] at hadm
      cases hadm
    · obtain ⟨k, -, hkm⟩ := exists_of_mem_right hmem hm
      exact hkm.sparse g hg hadm
  · clear hmem hn ha
    induction h with
    | member _ hR => exact hR.count
    | join _ _ _ ihl ihr =>
      simp only [Node.conditionCount]
      omega

theorem noMoreConditions_of_joined {n q : Node} {ms : List Node} {a b : Session ν σ} {s : Solution}
    (hn : n.isInnerJoin = true) (ha : context.config.admits n.members.length = true)
    (hsparse : n.Sparse context.config)
    (hms : List.Forall₂ (NoMoreConditions context.config) n.members ms)
    (hs : Search.solve ⟨context.estimator, context.model, (JoinGroup.ofPlan n).edges⟩ ms
      (JoinGroup.ofPlan n).residuals a = .ok (some s) b)
    (hq : Dresses context.config n s q) : NoMoreConditions context.config n q := by
  obtain ⟨-, t, left, hfound, hf, -⟩ := Search.forest_of_solve (ne_nil_of_members hms) hs
  cases hfound
  have hb := hf.built t (by simp)
  have hl : t.leaves.Perm ms := by simpa using hf.leaves
  have hsame : List.Forall₂ Node.SameColumns n.members ms := hms.imp fun _ _ h => h.stands.produces
  have htouch : ∀ e ∈ (JoinGroup.ofPlan n).edges, t.leaves.countP e.touches ≤ 2 := fun e he => by
    rw [hl.countP_eq, ← countP_touches_congr hsame]
    exact hsparse n (Node.mem_groups_self hn) ha e he
  have hinner : ∀ m ∈ t.leaves, m.isInnerJoin = false := fun m hm =>
    not_inner_of_standsFor (hms.imp fun _ _ h => h.stands) m (hl.subset hm)
  refine ⟨.of_inner hn (hq.produces (JoinTree.sameColumns_plan hl hsame)), ?_, ?_⟩
  · intro g hg hadm e he
    rw [hq.groups] at hg
    rcases JoinTree.mem_groups_plan hinner hg with rfl | ⟨m, hm, hg⟩
    · rw [JoinTree.members_plan hinner]
      obtain ⟨hed, -⟩ := List.mem_filter.1 he
      rw [JoinTree.innerEdges_plan hinner] at hed
      obtain ⟨f, hfE, hends⟩ := hb.exists_ends_eq hed
      rw [show e.touches = f.touches from funext (Edge.touches_of_ends hends)]
      exact htouch f hfE
    · obtain ⟨k, hk, hkm⟩ := exists_of_mem_right hms (hl.subset hm)
      exact hkm.sparse g hg hadm e he
  · have hle : t.edges.length ≤ (JoinGroup.ofPlan n).edges.length :=
      hb.length_edges_le fun e he => by
        have := t.uses_lt e
        have := htouch e he
        omega
    have hres := hf.residuals.length_eq
    have hsum := (hl.map Node.conditionCount).sum_eq
    have := sum_conditionCount_le hms
    have := JoinGroup.length_ofPlan n
    rw [hq.conditionCount, t.conditionCount_plan, n.conditionCount_eq]
    simp only [List.flatMap_singleton, List.length_append] at hres ⊢
    omega

/-- Reordering keeps a plan sparse and adds no condition. -/
theorem noMoreConditions (context : Context ν σ) : Invariant context False fun n q =>
    n.Sparse context.config → NoMoreConditions context.config n q where
  refl n h := ⟨.refl n, h, le_rfl⟩
  unary tag tag' op ih h := by
    have ⟨hst, hsp, hc⟩ := ih fun g hg => h g (by rwa [Node.groups_unary])
    refine ⟨hst.unary .., fun g hg => hsp g (by rwa [Node.groups_unary] at hg), ?_⟩
    simp only [Node.conditionCount]
    omega
  outer tag tag' hj ihl ihr h := by
    have ⟨hstl, hspl, hcl⟩ := ihl fun g hg =>
      h g (by rw [Node.groups_outer hj]; exact List.mem_append_left _ hg)
    have ⟨hstr, hspr, hcr⟩ := ihr fun g hg =>
      h g (by rw [Node.groups_outer hj]; exact List.mem_append_right _ hg)
    refine ⟨hstl.join hstr .., fun g hg => ?_, ?_⟩
    · rw [Node.groups_outer hj] at hg
      exact (List.mem_append.1 hg).elim (hspl g) (hspr g)
    · simp only [Node.conditionCount]
      omega
  kept hn ha hR h := noMoreConditions_of_kept hn ha
    (hR.imp fun m hm q h' => h' (sparse_of_mem_members h hm))
  joined hn ha hms hs _ hq h :=
    noMoreConditions_of_joined hn ha h
    (noMoreConditions_of_members (fun _ _ h => h) (fun _ => sparse_of_mem_members h) hms) hs hq

/-- Reorders a plan a number of times. -/
def repeated (context : Context ν σ) : (times : Nat) → Node → Planning ν σ Node
  | 0, n => return n
  | times + 1, n => do repeated context times (← rewrite context n)

/-- However often a sparse plan is reordered, it never gets more conditions. -/
theorem conditionCount_le_of_sparse {k : Nat} {n q : Node} {a b : Session ν σ}
    (hn : n.Sparse context.config) (h : repeated context k n a = .ok q b) :
    q.conditionCount ≤ n.conditionCount := by
  induction k generalizing n a with
  | zero =>
    obtain ⟨rfl, -⟩ := Action.pure_eq_ok.1 h
    exact le_rfl
  | succ k ih =>
    obtain ⟨m, u, hm, h⟩ := Action.bind_eq_ok.1 h
    have hstep := (noMoreConditions context).rewrite False.elim hm hn
    exact (ih hstep.sparse h).trans hstep.count

end Reorder

end JoinOrder
