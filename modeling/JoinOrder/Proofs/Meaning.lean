import JoinOrder.Proofs.Survival
import JoinOrder.Proofs.Thinning
import JoinOrder.Proofs.Totality

/-!
# Reordering keeps the meaning

A smooth search attaches every edge of its group to some join, and leaves a residual condition
pending only to have it filtered on top. So the solution, dressed up, satisfies the same conditions
on the product of the same members as the group did. From there the meaning of a whole plan is kept
operator by operator (`Reorder.denote_rewrite`).
-/

namespace JoinOrder

namespace Node

/-- In every group a join puts out those columns of its conditions that the group puts out. -/
def Local (n : Node) : Prop := ∀ g ∈ n.groups, g.LocalIn g.produces

instance (n : Node) : Decidable n.Local :=
  inferInstanceAs (Decidable (∀ g ∈ n.groups, g.LocalIn g.produces))

theorem columnSet_congr {m n : Node} (h : m.SameColumns n) : m.columnSet = n.columnSet := by
  ext c
  have := h c
  rw [Bool.eq_iff_iff, produces_iff, produces_iff] at this
  unfold columnSet
  rw [List.mem_toFinset, List.mem_toFinset, this]

end Node

theorem JoinTree.Built.localIn {E : List Edge} {t : JoinTree} (h : t.Built E)
    (hm : ∀ m ∈ t.leaves, m.isInnerJoin = false) (known : Column → Bool) :
    t.plan.LocalIn known := by
  have hres : ∀ {l r : JoinTree} {rs : List Expr}, (∀ e ∈ rs, e.coveredBy l.plan r.plan = true) →
      ∀ e ∈ rs, ∀ c ∈ e.columns, (l.plan.produces c || r.plan.produces c) = true :=
    fun h e he c hc => List.all_eq_true.1 (h e he) c hc
  induction h with
  | leaf n => exact Node.localIn_of_not_inner (hm n (by simp [leaves]))
  | @connected l r rs tag _ _ hc ihl ihr =>
    rw [plan, Node.LocalIn, Join.isInner_inner, if_pos rfl]
    refine ⟨ihl fun m h => hm m (by simp [leaves, h]), ihr fun m h => hm m (by simp [leaves, h]), ?_⟩
    intro e he c hce _
    rcases List.mem_append.1 he with he | he
    · obtain ⟨f, hf, rfl⟩ := List.mem_map.1 he
      obtain ⟨-, hl, hr⟩ := of_mem_connecting hf
      have hcf : c = f.left ∨ c = f.right := by simpa [Edge.toExpr, Expr.columns] using hce
      rcases hcf with rfl | rfl
      · rw [hl, Bool.true_or]
      · rw [hr, Bool.or_true]
    · exact hres hc e he c hce
  | @crossed l r rs tag _ _ hc ihl ihr =>
    rw [plan, Node.LocalIn, Join.isInner_inner, if_pos rfl]
    refine ⟨ihl fun m h => hm m (by simp [leaves, h]), ihr fun m h => hm m (by simp [leaves, h]), ?_⟩
    exact fun e he c hce _ => hres hc e he c hce

/-- The plan `q` stands for `n` and means the same under every interpretation. -/
structure MeansTheSame (n q : Node) : Prop where
  stands : q.StandsFor n
  denote : ∀ (V : Type) (I : Interpretation V), I.denote q = I.denote n

namespace Interpretation
variable {V : Type} (I : Interpretation V) {n q : Node}

theorem eq_env_of_mem_denote {a : Row V} (hn : n.isInnerJoin = true) (ha : a ∈ I.denote n)
    {c : Column} (hc : n.produces c = false) : a c = I.env c := by
  cases n with
  | scan => cases hn
  | unary => cases hn
  | join tag j l r =>
    rw [I.denote_inner hn] at ha
    refine eq_env_of_mem_product (Multiset.mem_of_mem_filter ha) ?_
    rw [Node.produces_join, Bool.or_eq_false_iff] at hc
    simpa [factor] using hc

theorem over_eq_of_mem_denote {a : Row V} (hn : n.isInnerJoin = true) (ha : a ∈ I.denote n)
    {p : Column → Bool} (hp : ∀ c, n.produces c = true → p c = true) : Row.over p a I.env = a := by
  funext c
  cases hc : p c with
  | true => rw [Row.over, if_pos hc]
  | false =>
    have : n.produces c = false := Bool.eq_false_iff.2 fun h => by rw [hp c h] at hc; cases hc
    rw [Row.over, if_neg (by rw [hc]; exact Bool.false_ne_true), I.eq_env_of_mem_denote hn ha this]

/-- A tree of inner joins is the part of the product of its members that satisfies all its
conditions. -/
theorem denote_eq_product (hn : n.isInnerJoin = true) (hap : n.members.Pairwise Node.Apart)
    (hl : n.LocalIn n.produces) : I.denote n =
      (product I.env (n.members.map I.factor)).filter (I.satAll n.groupConditions · = true) := by
  have hs : Separate (n.members.map I.factor ++ []) := by
    rw [List.append_nil]
    exact List.pairwise_map.2 hap
  have := I.product_members hl (fun c hc => hc.elim id fun ⟨f, hf, _⟩ => by cases hf) hs
  rw [List.append_nil] at this
  have hmap : (I.denote n).map (fun a => Row.over n.produces a I.env) = I.denote n :=
    (Multiset.map_congr rfl fun a ha => I.over_eq_of_mem_denote hn ha fun _ h => h).trans
      (Multiset.map_id' _)
  rw [← this, ← hmap]
  simp [product, factor, hmap]

theorem factor_congr (h : MeansTheSame n q) : I.factor q = I.factor n := by
  unfold factor
  rw [h.denote V I, funext h.stands.produces]

theorem map_factor_congr {ns ms : List Node} (h : List.Forall₂ MeansTheSame ns ms) :
    ms.map I.factor = ns.map I.factor := by
  induction h with
  | nil => rfl
  | cons hm _ ih => rw [List.map_cons, List.map_cons, I.factor_congr hm, ih]

theorem denote_unary_congr {i i' : Node} (h : MeansTheSame i i') (tag tag' : Tag) (op : UnaryOp) :
    I.denote (.unary tag' op i') = I.denote (.unary tag op i) := by
  rw [denote, denote, h.denote V I, Node.columnSet_congr h.stands.produces]

theorem denote_join_congr {l l' r r' : Node} (hl : MeansTheSame l l') (hr : MeansTheSame r r')
    (tag tag' : Tag) (j : Join) : I.denote (.join tag' j l' r') = I.denote (.join tag j l r) := by
  rw [denote, denote, hl.denote V I, hr.denote V I, Node.columnSet_congr hl.stands.produces,
    Node.columnSet_congr hr.stands.produces, funext hl.stands.produces, funext hr.stands.produces]

theorem satAll_ofPlan {used : Edge → Bool}
    (he : q.innerEdges = n.innerEdges.filter fun e => !e.connects n.members || used e)
    (hr : q.innerResiduals = n.innerResiduals) (a : Row V) :
    (I.satAll (((JoinGroup.ofPlan n).edges.filter used).map Edge.toExpr) a &&
      I.satAll (JoinGroup.ofPlan n).residuals a) = I.satAll q.groupConditions a := by
  rw [← satAll_append]
  refine I.satAll_perm ?_ a
  unfold JoinGroup.ofPlan Node.groupConditions
  have hconn : q.innerEdges.filter (·.connects n.members) =
      (n.innerEdges.filter (·.connects n.members)).filter used := by
    rw [he, List.filter_filter, List.filter_filter]
    refine List.filter_congr fun e _ => ?_
    cases e.connects n.members <;> simp
  have hrest : q.innerEdges.filter (!·.connects n.members) =
      n.innerEdges.filter (!·.connects n.members) := by
    rw [he, List.filter_filter]
    refine List.filter_congr fun e _ => ?_
    cases e.connects n.members <;> simp
  have hsplit := (List.filter_append_perm (·.connects n.members) q.innerEdges).map Edge.toExpr
  rw [hconn, hrest, List.map_append] at hsplit
  rw [hr]
  refine List.Perm.trans ?_ (hsplit.append_right _)
  rw [List.append_assoc]
  exact List.perm_append_comm.append_left _

theorem denote_of_dresses {config : Config} {s : Solution} (h : Dresses config n s q)
    (hs : s.plan.isInnerJoin = true) (hsame : n.SameColumns s.plan) :
    I.denote q = (I.denote s.plan).filter (I.satAll s.pending · = true) := by
  obtain ⟨filtered, hf, hq⟩ := h
  have hden : I.denote filtered = (I.denote s.plan).filter (I.satAll s.pending · = true) := by
    split at hf
    · rename_i hp
      rw [hf, hp]
      exact (Multiset.filter_eq_self.2 fun _ _ => rfl).symm
    · obtain ⟨tag, rfl⟩ := hf
      rfl
  split at hq
  · obtain ⟨-, tag, rfl⟩ := hq
    rw [← hden, denote, unary]
    refine (Multiset.map_congr rfl fun a ha => ?_).trans (Multiset.map_id' _)
    rw [hden] at ha
    refine I.over_eq_of_mem_denote hs (Multiset.mem_of_mem_filter ha) fun c hc => ?_
    rw [← hsame c, Node.produces_iff] at hc
    exact decide_eq_true hc
  · rw [hq, hden]

/-- Truth values, of which an equality compares two, and every other condition holds. The row of the
table `a` is true in its columns, and those of other tables are false. -/
def truth : Interpretation Bool where
  env _ := false
  scan _ s := {fun c => decide (c ∈ s.columns) && s.table = "a"}
  sat
    | .binary .eq (.column l) (.column r), a => a l == a r
    | _, _ => true
  limit _ _ rows := rows
  outer _ _ _ rows _ := rows
  sat_congr e a b h := by
    split
    · rename_i l r
      rw [h l (by simp [Expr.columns]), h r (by simp [Expr.columns])]
    · rfl
  sat_swapped _ _ := Bool.beq_comm

end Interpretation

namespace Reorder
variable {ν σ : Type} [CostScale ν] {context : Context ν σ}

theorem smooth_of_less (h : ∀ n l r e c e', context.model.join context.estimator n l r e = .ok c e' →
      CostScale.less c CostScale.ceiling = true) (n : Node) (a : Session ν σ) :
    Smooth context n a := by
  have hsettles : ∀ n ms (a : Session ν σ), SettlesSmoothly context n ms a := fun _ ms a _ _ =>
    Search.smooth_of_less h ms _ a
  refine ⟨?_, fun ms b _ => hsettles n ms b⟩
  induction n generalizing a with
  | scan => trivial
  | unary tag op i ih => exact ⟨ih a, fun ms b _ => hsettles i ms b⟩
  | join tag j l r ihl ihr =>
    refine ⟨ihl a, fun ms b _ => ?_⟩
    split
    · exact ihr b
    · exact ⟨hsettles l ms b, fun _ d _ => ⟨ihr d, fun ns e _ => hsettles r ns e⟩⟩

/-- A tree over the members of a plan means what the plan means, as far as it satisfies what is left,
if it has the conditions of the plan together with what is left. -/
theorem denote_of_built {V : Type} (I : Interpretation V) {E : List Edge} {n : Node} {t : JoinTree}
    {ms : List Node} {left : List Expr} (hn : n.isInnerJoin = true)
    (hap : n.members.Pairwise Node.Apart) (hl : n.LocalIn n.produces)
    (hms : List.Forall₂ MeansTheSame n.members ms) (htl : t.leaves.Perm ms) (hb : t.Built E)
    (hinner : ∀ m ∈ t.leaves, m.isInnerJoin = false) (htn : t.plan.isInnerJoin = true)
    (hconditions : ∀ a, (I.satAll left a &&
      (I.satAll (t.edges.map Edge.toExpr) a && I.satAll t.residuals a)) =
        I.satAll n.groupConditions a) :
    (I.denote t.plan).filter (I.satAll left · = true) = I.denote n := by
  have hsame : List.Forall₂ Node.SameColumns n.members ms := hms.imp fun _ _ h => h.stands.produces
  have htap : t.leaves.Pairwise Node.Apart :=
    (htl.pairwise_iff fun h => h.symm).2 (pairwise_apart_congr hsame hap)
  have hprod : product I.env (t.leaves.map I.factor) = product I.env (n.members.map I.factor) := by
    have hsep : Separate (t.leaves.map I.factor) := List.pairwise_map.2 htap
    rw [product_perm (htl.map I.factor) hsep, I.map_factor_congr hms]
  rw [I.denote_eq_product hn hap hl,
    I.denote_eq_product htn (by rwa [JoinTree.members_plan hinner]) (hb.localIn hinner _),
    JoinTree.members_plan hinner, hprod, Multiset.filter_filter]
  refine Multiset.filter_congr fun a _ => ?_
  rw [← Bool.and_eq_true_iff, ← hconditions, Node.groupConditions, JoinTree.innerEdges_plan hinner,
    JoinTree.innerResiduals_plan hinner, I.satAll_append]

/-- The plan `q` means what `n` means without some equalities, and without none if `full`. -/
def MeansThinned (full : Prop) (n q : Node) : Prop :=
  ∃ k, (Thinned n k ∧ (full → k = n)) ∧ MeansTheSame k q

namespace MeansThinned
variable {full : Prop} {n q : Node}

theorem stands (h : MeansThinned full n q) : q.StandsFor n := by
  obtain ⟨k, ⟨hk, -⟩, hq⟩ := h
  exact hk.stands.trans hq.stands

theorem refl (full : Prop) (n : Node) : MeansThinned full n n :=
  ⟨n, ⟨.refl n, fun _ => rfl⟩, ⟨.refl n, fun _ _ => rfl⟩⟩

theorem unary {i i' : Node} (h : MeansThinned full i i') (tag tag' : Tag) (op : UnaryOp) :
    MeansThinned full (.unary tag op i) (.unary tag' op i') := by
  obtain ⟨k, ⟨hk, hfull⟩, hq⟩ := h
  refine ⟨.unary tag op k, ⟨hk.unary tag op, fun hf => by rw [hfull hf]⟩, ?_⟩
  exact ⟨hq.stands.unary .., fun V I => I.denote_unary_congr hq ..⟩

theorem join {l l' r r' : Node} (hl : MeansThinned full l l') (hr : MeansThinned full r r')
    (tag tag' : Tag) (j : Join) : MeansThinned full (.join tag j l r) (.join tag' j l' r') := by
  obtain ⟨k, ⟨hk, hfull⟩, hq⟩ := hl
  obtain ⟨k', ⟨hk', hfull'⟩, hq'⟩ := hr
  refine ⟨.join tag j k k', ⟨.outer tag hk hk', fun hf => by rw [hfull hf, hfull' hf]⟩, ?_⟩
  exact ⟨hq.stands.join hq'.stands .., fun V I => I.denote_join_congr hq hq' ..⟩

theorem of_regrouped (h : Regrouped (MeansThinned full) n q) : MeansThinned full n q := by
  induction h with
  | member _ hR => exact hR
  | join _ _ _ ihl ihr => exact ihl.join ihr ..

theorem of_members {P : Node → Node → Prop} {ns ms : List Node}
    (hP : ∀ m q, P m q → m.Disjoint → m.Local → MeansThinned full m q) (hd : ∀ m ∈ ns, m.Disjoint)
    (hl : ∀ m ∈ ns, m.Local) (hms : List.Forall₂ P ns ms) :
    List.Forall₂ (MeansThinned full) ns ms := by
  induction hms with
  | nil => exact .nil
  | cons hmq _ ih =>
    rw [List.forall_mem_cons] at hd hl
    exact .cons (hP _ _ hmq hd.1 hl.1) (ih hd.2 hl.2)

/-- A search joins a group anew without a change of meaning, but for the edges that it drops. It drops
none if it is smooth. -/
theorem of_joined {ms : List Node} {a b : Session ν σ} {s : Solution}
    (hn : n.isInnerJoin = true) (hap : n.members.Pairwise Node.Apart)
    (hl : n.LocalIn n.produces) (hms : List.Forall₂ (MeansThinned full) n.members ms)
    (hs : Search.solve ⟨context.estimator, context.model, (JoinGroup.ofPlan n).edges⟩ ms
      (JoinGroup.ofPlan n).residuals a = .ok (some s) b)
    (hsmooth : full → Search.Smooth ⟨context.estimator, context.model, (JoinGroup.ofPlan n).edges⟩ ms
      (JoinGroup.ofPlan n).residuals a)
    (hq : Dresses context.config n s q) : MeansThinned full n q := by
  have hsame : List.Forall₂ Node.SameColumns n.members ms := hms.imp fun _ _ h => h.stands.produces
  obtain ⟨t, left, hfound, hf, hle, huses⟩ :=
    Search.smooth_iff_uses (ne_nil_of_members hms) (pairwise_apart_congr hsame hap)
      (connects_of_mem_ofPlan hsame) hs
  cases hfound
  have hb := hf.built t (by simp)
  have htl : t.leaves.Perm ms := by simpa using hf.leaves
  have hinner : ∀ m ∈ t.leaves, m.isInnerJoin = false := fun m hm =>
    not_inner_of_standsFor (hms.imp fun _ _ h => h.stands) m (htl.subset hm)
  have htn : t.plan.isInnerJoin = true := JoinTree.isInnerJoin_plan (by
    rw [htl.length_eq, ← hms.length_eq]
    exact Node.two_le_length_members hn)
  have hcols : n.SameColumns t.plan := JoinTree.sameColumns_plan htl hsame
  -- the plan without the edges that the tree does not use
  let used : Edge → Bool := fun e => t.uses e = 1
  obtain ⟨ks, hks, hkms⟩ := exists_between_of_forall₂ hms
  have hR : ∀ m k, (Thinned m k ∧ (full → k = m)) → k.StandsFor m := fun _ _ h => h.1.stands
  have hRinner := fun m k h => (hR m k h).inner
  obtain ⟨k, hk, rfl⟩ := Trimmed.exists_of_members hRinner
    (fun e => !e.connects n.members || used e) hks
  have hkcols : n.SameColumns k := hk.sameColumns fun m k h => (hR m k h).produces
  have hkap : k.members.Pairwise Node.Apart :=
    pairwise_apart_congr (hks.imp fun m k h => (hR m k h).produces) hap
  have hklocal : k.LocalIn k.produces := by
    rw [← funext hkcols]
    exact hk.localIn hR hl
  have hkn := hk.isInnerJoin hn
  refine ⟨k, ⟨hk.thinned fun _ _ h => h.1, fun hfull => ?_⟩, .of_inner hkn fun c => ?_, fun V I => ?_⟩
  · refine hk.eq_of_keep (fun _ _ h => h.2 hfull) fun e he => ?_
    cases hc : e.connects n.members with
    | false => rfl
    | true => exact decide_eq_true (huses.1 (hsmooth hfull) e (List.mem_filter.2 ⟨he, hc⟩))
  · exact (hkcols c).symm.trans (hq.produces hcols c)
  · rw [I.denote_of_dresses hq htn hcols]
    refine denote_of_built I hkn hkap hklocal hkms htl hb hinner htn fun row => ?_
    have hres : (t.residuals ++ left).Perm (JoinGroup.ofPlan n).residuals := by
      simpa using hf.residuals
    show (I.satAll left row && _) = _
    rw [← I.satAll_ofPlan (hk.innerEdges hRinner) (hk.innerResiduals hRinner),
      ← I.satAll_perm hres, ← I.satAll_edges (hb.map_ends_edges_of_le_one hle), I.satAll_append]
    ac_rfl

end MeansThinned

theorem meansThinned (context : Context ν σ) (full : Prop) : Invariant context full fun n q =>
    n.Disjoint → n.Local → MeansThinned full n q where
  refl n _ _ := .refl full n
  unary tag tag' op ih hd hl := by
    rw [Node.Disjoint, Node.groups_unary] at hd
    rw [Node.Local, Node.groups_unary] at hl
    exact (ih hd hl).unary ..
  outer tag tag' hj ihl ihr hd hl := by
    rw [Node.Disjoint, Node.groups_outer hj, List.forall_mem_append] at hd
    rw [Node.Local, Node.groups_outer hj, List.forall_mem_append] at hl
    exact (ihl hd.1 hl.1).join (ihr hd.2 hl.2) ..
  kept _ _ hR hd hl := .of_regrouped (hR.imp fun m hm q h =>
    h (fun g hg => hd g (Node.groups_subset_of_mem_members hm hg))
      (fun g hg => hl g (Node.groups_subset_of_mem_members hm hg)))
  joined hn _ hms hs hsmooth hq hd hl :=
    have hself := Node.mem_groups_self hn
    .of_joined hn (hd _ hself) (hl _ hself)
      (MeansThinned.of_members (fun _ _ h => h)
        (fun _ hm g hg => hd g (Node.groups_subset_of_mem_members hm hg))
        (fun _ hm g hg => hl g (Node.groups_subset_of_mem_members hm hg)) hms)
      hs hsmooth hq

/-- Reordering a plan whose groups are disjoint and local gives a plan that means, under every
interpretation, what the given one means without the equalities that stalled searches have dropped.
It means the same as the given one if no search stalls. With reliable collaborators, reordering a
well-formed plan succeeds, unless a ranking panics. -/
theorem denote_rewrite {n : Node} (hd : n.Disjoint) (hl : n.Local) (a : Session ν σ) :
    (context.Reliable → n.WellFormed → (∃ q b, rewrite context n a = .ok q b) ∨
      ∃ b, rewrite context n a = .error .disorder b ∧ Panics context n) ∧
    ∀ q b, rewrite context n a = .ok q b → ∃ k, Thinned n k ∧ (Smooth context n a → k = n) ∧
      ∀ (V : Type) (I : Interpretation V), I.denote q = I.denote k := by
  refine ⟨fun hrel hw => rewrite_or_panic hrel hw a, fun q b h => ?_⟩
  obtain ⟨k, ⟨hk, hsmooth⟩, hq⟩ :=
    (meansThinned context (Smooth context n a)).rewrite (fun hsmooth => hsmooth) h hd hl
  exact ⟨k, hk, hsmooth, hq.denote⟩

theorem denote_rewrite_twoTables : ∃ q b,
    rewrite (.constant 1) .twoTables (.unused 3) = .ok q b ∧
      ∀ (V : Type) (I : Interpretation V), I.denote q = I.denote .twoTables := by
  have hrel : (Context.constant 1).Reliable :=
    ⟨fun _ _ => .pure _, fun _ => .pure _, fun _ _ _ => .pure _⟩
  have hsmooth : Smooth (.constant 1) .twoTables (.unused 3) :=
    smooth_of_less (fun _ _ _ _ _ _ h => (Action.pure_eq_ok.1 h).1 ▸ rfl) _ _
  have hall := @denote_rewrite _ _ _ (.constant 1) .twoTables (by decide) (by decide) (.unused 3)
  obtain ⟨q, b, hq⟩ := (hall.1 hrel ⟨trivial, trivial⟩).resolve_right
    fun ⟨_, _, _, _, _, _, _, hp⟩ => not_rankingPanics _ _ _ hp
  obtain ⟨k, -, hk, hden⟩ := hall.2 q b hq
  refine ⟨q, b, hq, ?_⟩
  rwa [hk hsmooth] at hden

/-- The two tables without the equality. -/
def crossedTables : Node :=
  .join ⟨4, 4⟩ .cross (.scan ⟨0, 0⟩ (.ofNames "a" ["x"] none)) (.scan ⟨1, 1⟩ (.ofNames "b" ["y"] none))

/-- Reordering may change the meaning of a plan if joins cost as much as the ceiling. -/
theorem denote_rewrite_atCeiling :
    (rewrite (.constant 1000) .twoTables).result? (.unused 3) = some crossedTables ∧
      Interpretation.truth.denote crossedTables ≠ Interpretation.truth.denote .twoTables := by
  refine ⟨by decide +kernel, ?_⟩
  have hnone : Interpretation.truth.denote .twoTables = 0 := by
    simp [Interpretation.denote, Node.twoTables, product, Interpretation.truth, Join.isInner,
      Interpretation.satAll, Join.conditions, Row.over, Edge.toExpr, TableScan.ofNames, Node.schema,
      Schema.ofList, firsts, Schema.contains, Node.produces, Multiset.filter_singleton]
  have hsome : Interpretation.truth.denote crossedTables ≠ 0 := by
    simp [Interpretation.denote, crossedTables, product, Interpretation.truth,
      Interpretation.satAll, Join.conditions, Join.cross, Join.isInner]
  rwa [hnone]

end Reorder

end JoinOrder
