import JoinOrder.Proofs.ExactCosts
import JoinOrder.Proofs.Forest
import JoinOrder.Proofs.Survival

/-!
# Where conditions are placed

A residual condition is attached to the first join of the journal that covers it, and to no other
(`Search.residuals_of_solve`). That holds whatever the costs.

Over members that share no column, an edge is met by exactly one join of a tree, the lowest one above
its two members. If no join costs too much, that join carries it, since every edge is used
(`Search.edges_of_solve`).
-/

namespace JoinOrder

namespace Search
variable {ν σ : Type} [CostScale ν] {s : Search ν σ} {members : List Node} {residuals : List Expr}
  {a b : Session ν σ}

/-- Whatever the costs, each join of a search takes, in order, those residual conditions that it
covers and that no join committed before it covers. The conditions that no join covers are left over;
if there are two members or more, these are the ones that the whole plan does not cover. So every
condition is attached once or left over, and no join below the one that has it covers it. -/
theorem residuals_of_solve {found : Option Solution} (hne : members ≠ [])
    (h : s.solve members residuals a = .ok found b) :
    ∃ (t : JoinTree) (left : List Expr) (Js : List Joint), found = some ⟨t.plan, left⟩ ∧
      t.leaves.Perm members ∧ Js.Perm t.joints ∧ Js.length + 1 = members.length ∧
      s.solveJournal members residuals a = .ok (found, Js.map Joint.plan) b ∧
      (∀ i (hi : i < Js.length), Js[i].residuals = residuals.filter fun e =>
        Js[i].plan.covers e && !(Js.take i).any (·.plan.covers e)) ∧
      left = residuals.filter (fun e => !Js.any (·.plan.covers e)) ∧
      (2 ≤ members.length → left = residuals.filter (!t.plan.covers ·)) ∧
      (Js.flatMap Joint.residuals ++ left).Perm residuals ∧
      ∀ J ∈ Js, ∀ e ∈ J.residuals, ∀ K ∈ J.left.joints ++ J.right.joints, K.plan.covers e = false := by
  obtain ⟨t, left, Js, rfl, hleaves, -, hjournal, hjs, hcom, -⟩ := journal_of_solve hne h
  have hany : ∀ e, Js.any (·.plan.covers e) = t.covers e := fun e => by
    rw [t.covers_eq_any, hjs.any_eq]
  refine ⟨t, left, Js, rfl, hleaves, hjs, ?_, hjournal, hcom.residuals_getElem, hcom.left_eq, ?_,
    hcom.residuals_perm, ?_⟩
  · rw [hjs.length_eq, t.length_joints, hleaves.length_eq]
  · intro hsize
    rw [← hleaves.length_eq] at hsize
    rw [hcom.left_eq]
    refine List.filter_congr fun e _ => ?_
    rw [hany, t.covers_eq hsize]
  · intro J hJ e he K hK
    obtain ⟨i, hi, rfl⟩ := List.getElem_of_mem hJ
    -- a join below was committed before, and what it covers was no longer pending
    have hbefore : K ∈ Js.take i := by simpa using hcom.below_getElem i hi hK
    rw [hcom.residuals_getElem i hi, List.mem_filter, Bool.and_eq_true, Bool.not_eq_true'] at he
    exact Bool.eq_false_iff.2 fun hcov =>
      Bool.eq_false_iff.1 he.2.2 (List.any_eq_true.2 ⟨K, hbefore, hcov⟩)

end Search

/-- The condition `c < d`. -/
def Expr.less (c d : Column) : Expr := .binary .lt (.column c) (.column d)

/-- Conditions between two tables, one of them given twice, and one on a table that is not there. -/
def fourTables.conditions : List Expr :=
  [.less ⟨"c", "z"⟩ ⟨"d", "w"⟩, .less ⟨"a", "x"⟩ ⟨"b", "y"⟩, .less ⟨"a", "x"⟩ ⟨"e", "v"⟩,
    .less ⟨"b", "y"⟩ ⟨"c", "z"⟩, .less ⟨"a", "x"⟩ ⟨"b", "y"⟩]

theorem Search.residuals_of_solve_fourTables : ∃ (t : JoinTree) (Js : List Joint) (b : _),
    (twoTables 1).solve fourTables fourTables.conditions (.unused 4) =
      .ok (some ⟨t.plan, [.less ⟨"a", "x"⟩ ⟨"e", "v"⟩]⟩) b ∧
    Js.Perm t.joints ∧ Js.length = 3 ∧
    (∀ i (hi : i < Js.length), Js[i].residuals = fourTables.conditions.filter fun e =>
      Js[i].plan.covers e && !(Js.take i).any (·.plan.covers e)) := by
  obtain ⟨plan, b, h⟩ : ∃ plan b, (twoTables 1).solve fourTables fourTables.conditions (.unused 4) =
      .ok (some ⟨plan, [.less ⟨"a", "x"⟩ ⟨"e", "v"⟩]⟩) b := ⟨_, _, rfl⟩
  obtain ⟨t, left, Js, hfound, -, hjs, hlen, -, hres, -⟩ := residuals_of_solve (by decide) h
  cases hfound
  exact ⟨t, Js, b, h, hjs, Nat.succ.inj hlen, hres⟩

namespace Edge
variable {e : Edge} {l r : Node} (hap : l.Apart r)
include hap

theorem not_within_of_between (h : e.between l r = true) :
    e.within l = false ∧ e.within r = false := by
  unfold within
  rcases Bool.or_eq_true_iff.1 h with h | h <;> obtain ⟨h₁, h₂⟩ := Bool.and_eq_true_iff.1 h
  · have hl := Bool.eq_false_iff.2 fun h => hap _ h h₂
    have hr := Bool.eq_false_iff.2 fun h => hap _ h₁ h
    rw [hl, hr, Bool.and_false, Bool.false_and]
    exact ⟨rfl, rfl⟩
  · have hl := Bool.eq_false_iff.2 fun h => hap _ h h₁
    have hr := Bool.eq_false_iff.2 fun h => hap _ h₂ h
    rw [hl, hr, Bool.and_false, Bool.false_and]
    exact ⟨rfl, rfl⟩

theorem not_within_of_within (h : e.within l = true) : e.within r = false :=
  Bool.eq_false_iff.2 fun hr => hap _ (Bool.and_eq_true_iff.1 h).1 (Bool.and_eq_true_iff.1 hr).1

end Edge

namespace JoinTree
variable {t u : JoinTree} {J : Joint} {e : Edge}

/-- A leaf has the left end of the edge, and a leaf has the right one. -/
def owns (t : JoinTree) (e : Edge) : Bool :=
  t.leaves.any (·.produces e.left) && t.leaves.any (·.produces e.right)

theorem owns_eq_within (t : JoinTree) (e : Edge) : t.owns e = e.within t.plan := by
  rw [owns, ← produces_plan, ← produces_plan]
  rfl

theorem apart_of_leaves (h : ∀ m ∈ t.leaves, ∀ n ∈ u.leaves, m.Apart n) : t.plan.Apart u.plan := by
  intro c ht hu
  obtain ⟨m, hm, hmc⟩ := produces_plan_iff.1 ht
  obtain ⟨n, hn, hnc⟩ := produces_plan_iff.1 hu
  exact h m hm n hn c hmc hnc

theorem apart_of_mem_joints (hap : t.leaves.Pairwise Node.Apart) (hJ : J ∈ t.joints) :
    J.left.plan.Apart J.right.plan := by
  induction t with
  | leaf => cases hJ
  | join _ _ _ l r ihl ihr =>
    rw [leaves, List.pairwise_append] at hap
    obtain ⟨hl, hr, hlr⟩ := hap
    rcases mem_joints_join.1 hJ with hJ | hJ | rfl
    · exact ihl hl hJ
    · exact ihr hr hJ
    · exact apart_of_leaves hlr

end JoinTree

namespace Joint
variable {J : Joint} {E : List Edge}

/-- The join is the lowest one above both ends of the edge. -/
def meets (J : Joint) (e : Edge) : Bool := J.tree.owns e && !J.left.owns e && !J.right.owns e

/-- The edge, turned so that its left end is on the left of the join. -/
def turn (J : Joint) (e : Edge) : Edge := if J.left.plan.produces e.left then e else e.swapped

section Apart
variable (hap : J.left.plan.Apart J.right.plan)
include hap

theorem meets_eq_between (e : Edge) : J.meets e = e.between J.left.plan J.right.plan := by
  have htree : J.tree.owns e = (J.left.owns e || J.right.owns e ||
      e.between J.left.plan J.right.plan) := by
    simp only [JoinTree.owns_eq_within]
    exact Edge.within_join ..
  rw [meets, htree]
  cases hb : e.between J.left.plan J.right.plan with
  | true =>
    obtain ⟨hl, hr⟩ := Edge.not_within_of_between hap hb
    rw [JoinTree.owns_eq_within, JoinTree.owns_eq_within, hl, hr]
    rfl
  | false => cases J.left.owns e <;> cases J.right.owns e <;> rfl

theorem connecting_eq_map_turn :
    connecting E J.left.plan J.right.plan = (E.filter J.meets).map J.turn := by
  rw [← List.filterMap_eq_map, List.filterMap_filter]
  refine List.filterMap_congr fun e _ => ?_
  rw [meets_eq_between hap, Edge.between, Edge.orient?]
  have hleft : J.right.plan.produces e.left = true → J.left.plan.produces e.left = false :=
    fun hr => Bool.eq_false_iff.2 fun hl => hap _ hl hr
  cases hll : J.left.plan.produces e.left <;> simp_all [turn]

end Apart

end Joint

theorem JoinTree.countP_meets {t : JoinTree} {e : Edge} (hap : t.leaves.Pairwise Node.Apart)
    (hleaf : ∀ m ∈ t.leaves, e.within m = false) :
    t.joints.countP (·.meets e) = (t.owns e).toNat := by
  induction t with
  | leaf n =>
    rw [owns_eq_within, plan, hleaf n (List.mem_singleton_self _)]
    rfl
  | join tag edges residuals l r ihl ihr =>
    have hlr := apart_of_mem_joints (J := ⟨tag, edges, residuals, l, r⟩) hap (by simp)
    rw [leaves, List.pairwise_append] at hap
    rw [leaves, List.forall_mem_append] at hleaf
    rw [joints, List.countP_append, List.countP_append, List.countP_singleton, ihl hap.1 hleaf.1,
      ihr hap.2.1 hleaf.2, Joint.meets_eq_between hlr]
    simp only [owns_eq_within, plan, Edge.within_join]
    cases hb : e.between l.plan r.plan with
    | true =>
      obtain ⟨hl, hr⟩ := Edge.not_within_of_between hlr hb
      rw [hl, hr]
      rfl
    | false =>
      cases hl : e.within l.plan with
      | true =>
        rw [Edge.not_within_of_within hlr hl]
        rfl
      | false => cases e.within r.plan <;> rfl

theorem JoinTree.owns_of_connects {t : JoinTree} {members : List Node} {e : Edge}
    (hleaves : t.leaves.Perm members) (h : e.connects members = true) : t.owns e = true := by
  obtain ⟨m, n, rest, hperm, hm, hn⟩ := Edge.exists_perm_of_connects h
  have hmem : ∀ {k}, k ∈ m :: n :: rest → k ∈ t.leaves := fun hk =>
    (hleaves.trans hperm).symm.subset hk
  exact Bool.and_eq_true_iff.2 ⟨List.any_eq_true.2 ⟨m, hmem (by simp), hm⟩,
    List.any_eq_true.2 ⟨n, hmem (by simp), hn⟩⟩

/-- If a tree uses an edge as often as its joins meet it, each of these has an equality. -/
theorem JoinTree.edges_ne_nil_of_meets {t : JoinTree} {J : Joint} {e : Edge}
    (hap : t.leaves.Pairwise Node.Apart) (h : t.joints.countP (·.meets e) = t.uses e)
    (hJ : J ∈ t.joints) (hm : J.meets e = true) : J.edges ≠ [] := by
  have huses : t.uses e = (t.joints.filter (·.meets e)).countP (!·.edges.isEmpty) := by
    rw [t.uses_eq_countP, List.countP_filter]
    refine List.countP_congr fun K hK => ?_
    rw [Joint.meets_eq_between (apart_of_mem_joints hap hK)]
  rw [huses, List.countP_eq_length_filter, eq_comm, List.countP_eq_length] at h
  simpa using h J (List.mem_filter.2 ⟨hJ, hm⟩)

namespace Search
variable {ν σ : Type} [CostScale ν] {s : Search ν σ} {members : List Node} {residuals : List Expr}
  {a b : Session ν σ}

/-- Over members that are apart, and if no join costs too much, every edge is carried once, by the
lowest join above its two members, with its left end in the left input and its right end in the right
one. The equalities of a join are in the order of the edges, and there are no others. -/
theorem edges_of_solve {found : Solution} (hap : members.Pairwise Node.Apart)
    (he : ∀ e ∈ s.edges, e.connects members = true) (hless : s.Affordable members residuals a)
    (h : s.solve members residuals a = .ok (some found) b) :
    ∃ t : JoinTree, found.plan = t.plan ∧ t.leaves.Perm members ∧
      (∀ J ∈ t.joints, J.edges = (s.edges.filter J.meets).map J.turn ∧
        ∀ e ∈ J.edges, J.left.plan.produces e.left = true ∧ J.right.plan.produces e.right = true) ∧
      (∀ e ∈ s.edges, t.joints.countP (·.meets e) = 1) ∧
      (t.edges.map Edge.ends).Perm (s.edges.map Edge.ends) := by
  have hne : members ≠ [] := by
    rintro rfl
    cases h
  obtain ⟨t, left, hfound, hforest, hle, hsmooth⟩ := smooth_iff_uses hne hap he h
  cases hfound
  have huses := hsmooth.1 hless.smooth
  have hleaves : t.leaves.Perm members := by simpa using hforest.leaves
  have hbuilt : t.Built s.edges := hforest.built t (List.mem_singleton_self t)
  have hap' : t.leaves.Pairwise Node.Apart := (hleaves.pairwise_iff fun h => h.symm).2 hap
  have hjoint : ∀ J ∈ t.joints, J.left.plan.Apart J.right.plan := fun J hJ =>
    JoinTree.apart_of_mem_joints hap' hJ
  have hmeets : ∀ e ∈ s.edges, t.joints.countP (·.meets e) = 1 := by
    intro e hes
    have hleaf : ∀ m ∈ t.leaves, e.within m = false := fun m hm =>
      Edge.not_within_of_connects hap (he e hes) m (hleaves.subset hm)
    rw [JoinTree.countP_meets hap' hleaf, JoinTree.owns_of_connects hleaves (he e hes)]
    rfl
  refine ⟨t, rfl, hleaves, fun J hJ => ?_, hmeets, (hbuilt.edges_perm_iff hle).2 huses⟩
  have hedges : J.edges = connecting s.edges J.left.plan J.right.plan := by
    rcases (JoinTree.built_iff.1 hbuilt J hJ).1 with hJe | hJe
    · exact hJe
    · rw [hJe, eq_comm, connecting_eq_nil]
      -- an edge met here is used, which only a join that carries it can do
      intro e hes
      rw [← Joint.meets_eq_between (hjoint J hJ)]
      exact Bool.eq_false_iff.2 fun hm =>
        JoinTree.edges_ne_nil_of_meets hap' ((hmeets e hes).trans (huses e hes).symm) hJ hm hJe
  exact ⟨hedges.trans (Joint.connecting_eq_map_turn (hjoint J hJ)),
    fun e he => (of_mem_connecting (hedges ▸ he)).2⟩

theorem edges_of_solve_fourTables : ∃ (t : JoinTree) (left : List Expr) (b : _),
    triangle.solve fourTables [] (.unused 4) = .ok (some ⟨t.plan, left⟩) b ∧
      (∀ J ∈ t.joints, J.edges = (triangle.edges.filter J.meets).map J.turn) ∧
      ∀ e ∈ triangle.edges, t.joints.countP (·.meets e) = 1 := by
  obtain ⟨_, b, h⟩ := Action.exists_of_result? (x := triangle.solve fourTables [])
    (a := .unused 4) (by decide +kernel)
  obtain ⟨_, left, -, rfl, -⟩ := journal_of_solve (by decide) h
  have hless : triangle.Affordable fourTables [] (.unused 4) :=
    affordable_of_less (fun _ _ _ _ _ _ h => less_of_constant (by decide) h) _ _ _
  obtain ⟨t, hplan, -, hjoints, hmeets, -⟩ := edges_of_solve (by decide) (by decide) hless h
  exact ⟨t, left, b, hplan ▸ h, fun J hJ => (hjoints J hJ).1, hmeets⟩

end Search

end JoinOrder
