import JoinOrder.Proofs.ExactCosts
import JoinOrder.Proofs.Journal
import JoinOrder.Proofs.Merging

/-!
# What becomes of the members

Whatever the costs, a search puts every member into its result, as often as it is given, and adds
only joins (`Search.members_of_solve`). The columns of a join tree are those of its leaves, from left
to right, each where it comes first (`JoinTree.schema_plan`).
-/

namespace JoinOrder

namespace JoinTree

theorem joinsOver_plan (t : JoinTree) : Node.JoinsOver (t.leaves.map Node.schema) t.plan := by
  induction t with
  | leaf n => exact .leaf n
  | join tag edges residuals l r ihl ihr =>
    rw [leaves, List.map_append]
    exact .join tag _ ihl ihr

theorem schema_plan (t : JoinTree) :
    t.plan.schema = .ofList (t.leaves.flatMap fun m => m.schema.columns) := by
  rw [t.joinsOver_plan.schema_eq, List.flatMap_map]

theorem eq_leaf {t : JoinTree} {m : Node} (h : t.leaves = [m]) : t = .leaf m := by
  cases t with
  | leaf n => rw [List.singleton_inj.1 h]
  | join tag edges residuals l r =>
    have hlen := congrArg List.length h
    have hl := List.length_pos_iff.2 l.leaves_ne_nil
    have hr := List.length_pos_iff.2 r.leaves_ne_nil
    rw [leaves, List.length_append, List.length_singleton] at hlen
    omega

end JoinTree

namespace Search
variable {ν σ : Type} [CostScale ν] {s : Search ν σ} {members : List Node} {residuals : List Expr}
  {a b : Session ν σ}

/-- Whatever the costs, a search finds nothing only if there is no member. Otherwise it finds a tree
of inner joins whose leaves are the given members, each as often as it is given; there is one join
less than members. The columns are those of all members, none of them twice. A single member is the
result itself. -/
theorem members_of_solve {found : Option Solution} (h : s.solve members residuals a = .ok found b) :
    (found = none ↔ members = []) ∧ ∀ solution, found = some solution →
      ∃ t : JoinTree, solution.plan = t.plan ∧ t.leaves.Perm members ∧
        t.joints.length + 1 = members.length ∧ solution.plan.schema.columns.Nodup ∧
        (∀ c, c ∈ solution.plan.schema.columns ↔ ∃ m ∈ members, c ∈ m.schema.columns) ∧
        ∀ m, members = [m] → solution.plan = m := by
  by_cases hne : members = []
  · subst hne
    cases h
    exact ⟨iff_of_true rfl rfl, fun _ h => by cases h⟩
  · obtain ⟨t, left, -, rfl, hleaves, -⟩ := journal_of_solve hne h
    refine ⟨iff_of_false (Option.some_ne_none _) hne, fun solution hsolution => ?_⟩
    cases hsolution
    refine ⟨t, rfl, hleaves, ?_, t.plan.schema.nodup, fun c => ?_, ?_⟩
    · rw [t.length_joints, hleaves.length_eq]
    · rw [t.schema_plan, Schema.mem_ofList, List.mem_flatMap]
      exact exists_congr fun m => and_congr_left' hleaves.mem_iff
    · rintro m rfl
      rw [JoinTree.eq_leaf (List.perm_singleton.1 hleaves), JoinTree.plan]

/-- Every table is given twice, as the same node. -/
theorem members_of_solve_fourTables : ∃ (t : JoinTree) (left : List Expr) (b : _),
    triangle.solve (fourTables ++ fourTables) [] (.unused 4) = .ok (some ⟨t.plan, left⟩) b ∧
      t.leaves.Perm (fourTables ++ fourTables) ∧ t.joints.length = 7 := by
  obtain ⟨found, b, h⟩ := Action.exists_of_result?
    (x := triangle.solve (fourTables ++ fourTables) []) (a := .unused 4) (by decide +kernel)
  obtain ⟨hnone, hsome⟩ := members_of_solve h
  cases found with
  | none => exact absurd (hnone.1 rfl) (by decide)
  | some solution =>
    obtain ⟨t, hplan, hleaves, hlen, -⟩ := hsome solution rfl
    exact ⟨t, solution.pending, b, hplan ▸ h, hleaves, Nat.succ.inj hlen⟩

end Search

end JoinOrder
