import JoinOrder.Proofs.ExactCosts
import JoinOrder.Proofs.Journal

/-!
# Bushy assembly

Trees without edges between them are assembled by as many joins as it takes, without equalities. The
trees stay in order, and no more joins come above any of them than the number of trees can be halved
(`Assembly.bushy_of_assemble`). A join is a cross join unless it covers a condition that is pending
when the join is made.
-/

namespace JoinOrder

/-- The operator of the join. -/
def Joint.join (J : Joint) : Join := ⟨.inner, J.edges, J.residuals⟩

/-- The conditions that are pending when these joins have been made. -/
def stillPending (conditions : List Expr) (made : List Joint) : List Expr :=
  conditions.filter fun e => !made.any (·.plan.covers e)

/-- Without equalities, a join that takes no condition is a cross join. -/
theorem Joint.isCross_join {J : Joint} {conditions : List Expr} (he : J.edges = [])
    (hr : J.residuals = conditions.filter J.plan.covers) :
    J.join.isCross = true ↔ ∀ e ∈ conditions, J.plan.covers e = false := by
  have hcross : J.join.isCross = true ↔ J.residuals = [] := by
    simp [join, Join.isCross, Join.isInner, he]
  rw [hcross, hr, List.filter_eq_nil_iff]
  simp only [Bool.not_eq_true]

theorem Commits.residuals_stillPending {done made : List Joint} {pending left : List Expr}
    (h : Commits done pending made left) (i : Nat) (hi : i < made.length) :
    made[i].residuals = (stillPending pending (made.take i)).filter made[i].plan.covers := by
  rw [h.residuals_getElem i hi, stillPending, List.filter_filter]

namespace Assembly

theorem leaves_of_rounds {a : Supply} {plans : List Node} {pending left : List Expr} {t : JoinTree}
    {Js : List Joint} (h : Rounds a (plans.map .leaf) pending t Js left) :
    t.leaves = plans ∧ Js.Perm t.joints ∧ Js.length + 1 = plans.length := by
  have hleaves : t.leaves = plans := by
    rw [h.leaves, List.flatMap_map]
    exact List.flatMap_singleton' plans
  have hnone : (plans.map JoinTree.leaf).flatMap JoinTree.joints = [] := by
    simp [List.flatMap_map, JoinTree.joints]
  have hjoints := (h.crosses (List.Subset.refl _)).joints
  rw [hnone, List.flatMap_singleton, List.nil_append] at hjoints
  refine ⟨hleaves, hjoints.symm, ?_⟩
  rw [← hjoints.length_eq, t.length_joints, hleaves]

theorem Rounds.rounds_eq {a : Supply} {plans : List Node} {pending left : List Expr} {t : JoinTree}
    {Js : List Joint} {k : Nat} (h : Rounds a (plans.map .leaf) pending t Js left)
    (hk : Nat.clog 2 plans.length ≤ k) :
    rounds k plans pending a = (some ⟨t.plan, left⟩, a.advance (plans.length - 1)) := by
  have hplans : (plans.map JoinTree.leaf).map JoinTree.plan = plans := by
    rw [List.map_map]
    exact List.map_id _
  have hlen := (leaves_of_rounds h).2.2
  have hrun := h.run (k := k) (by rwa [List.length_map])
  rw [hplans] at hrun
  rw [← fst_roundsJournal, ← hlen, Nat.add_sub_cancel]
  exact congrArg (fun x => (x.1.1, x.2)) hrun

theorem supply_assemble (plans : List Node) (pending : List Expr) (a : Supply) :
    (assemble plans pending a).2 = a.advance (plans.length - 1) := by
  by_cases hne : plans = []
  · rw [hne]
    rfl
  · obtain ⟨t, Js, left, h⟩ := exists_rounds a (plans.map .leaf) pending (by simpa using hne)
    rw [assemble, h.rounds_eq (clog_two_le_self _)]

/-- A list of trees that is not empty is assembled to one tree, however many rounds are allowed
beyond those that are needed. The given trees are its leaves in the given order. All joins above them
are new: they take their ids one after the other, and there is one less than there are trees. None
has an equality. The number of joins above a tree is at most the binary logarithm of the number of
trees, rounded up, and above the first tree it is that. Each join takes the conditions that it covers
and that are pending when it is made; it is a cross join if and only if there are none. -/
theorem bushy_of_assemble {plans : List Node} (hne : plans ≠ []) (pending : List Expr) (a : Supply) :
    ∃ (t : JoinTree) (Js : List Joint) (left : List Expr),
      assemble plans pending a = (some ⟨t.plan, left⟩, a.advance (plans.length - 1)) ∧
      (∀ k, Nat.clog 2 plans.length ≤ k → rounds k plans pending a = assemble plans pending a) ∧
      t.leaves = plans ∧ Js.Perm t.joints ∧ Js.length = plans.length - 1 ∧
      (∀ J ∈ t.joints, J.edges = []) ∧
      t.depths.length = plans.length ∧ (∀ d ∈ t.depths, d ≤ Nat.clog 2 plans.length) ∧
      t.depths.head? = some (Nat.clog 2 plans.length) ∧
      (∀ i (hi : i < Js.length), Js[i].tag = a.tagAt i ∧
        Js[i].residuals = (stillPending pending (Js.take i)).filter Js[i].plan.covers ∧
        (Js[i].join.isCross = true ↔
          ∀ e ∈ stillPending pending (Js.take i), Js[i].plan.covers e = false)) ∧
      left = stillPending pending Js := by
  have hts : plans.map JoinTree.leaf ≠ [] := by simpa using hne
  obtain ⟨t, Js, left, hr⟩ := exists_rounds a _ pending hts
  obtain ⟨hleaves, hjoints, hlen⟩ := leaves_of_rounds hr
  have hcommits := (hr.crosses (List.Subset.refl _)).commits
  have hrun := hr.rounds_eq (clog_two_le_self _)
  have hdepths := hr.depths_le (m := 0) (by simp [JoinTree.depths])
  have hhead := hr.head_depths
  refine ⟨t, Js, left, hrun, fun k hk => (hr.rounds_eq hk).trans hrun.symm, hleaves,
    hjoints, by omega, fun J hJ => hr.edges J (hjoints.mem_iff.2 hJ), ?_, ?_, ?_, ?_,
    hcommits.left_eq⟩
  · rw [t.length_depths, hleaves]
  · simpa using hdepths
  · obtain ⟨p, ps, rfl⟩ := List.exists_cons_of_ne_nil hne
    simpa [JoinTree.depths] using hhead
  · intro i hi
    have hres := hcommits.residuals_stillPending i hi
    exact ⟨hr.tags i hi, hres, Joint.isCross_join (hr.edges _ (List.getElem_mem hi)) hres⟩

/-- Five trees take three rounds. The condition is covered by the first join. -/
theorem bushy_of_assemble_fiveTrees :
    let plans := fourTables ++ [.twoTables]
    let condition : Expr := .binary .lt (.column ⟨"a", "x"⟩) (.column ⟨"b", "y"⟩)
    ∃ (t : JoinTree) (Js : List Joint),
      assemble plans [condition] ⟨4, 4⟩ = (some ⟨t.plan, []⟩, ⟨8, 8⟩) ∧
      rounds 3 plans [condition] ⟨4, 4⟩ = assemble plans [condition] ⟨4, 4⟩ ∧
      t.leaves = plans ∧ Js.length = 4 ∧ Js.Perm t.joints ∧ t.depths.head? = some 3 ∧
      (∀ d ∈ t.depths, d ≤ 3) ∧ [] = stillPending [condition] Js := by
  intro plans condition
  have hne : plans ≠ [] := by decide
  have hclog : Nat.clog 2 plans.length = 3 := by decide
  obtain ⟨t, Js, left, hrun, hrounds, hleaves, hjoints, hlen, -, -, hdepths, hhead, -, hleft⟩ :=
    bushy_of_assemble hne [condition] ⟨4, 4⟩
  have hnone : (assemble plans [condition] ⟨4, 4⟩).1.map Solution.pending = some [] := by
    decide +kernel
  rw [hrun] at hnone
  cases hnone
  rw [hclog] at hrounds hdepths hhead
  exact ⟨t, Js, hrun, hrounds 3 le_rfl, hleaves, hlen, hjoints, hhead, hdepths, hleft⟩

end Assembly

end JoinOrder
