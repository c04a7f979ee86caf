import Mathlib.Algebra.GroupWithZero.Nat
import JoinOrder.Proofs.JoinTree

/-!
# Joints

A joint is one of the joins of a join tree, together with the two trees that it joins. What a tree
carries is read off the list of its joints: the residual conditions, how often it uses an edge, and
which conditions some join of it covers.

Taking the joints without an equality out of a tree `cut`s it into pieces. A tree that has grown leaf
by leaf is one piece (`Grown.cut`), and if all pieces are of this kind, the tree is `Built`
(`built_of_cut`).
-/

namespace JoinOrder

/-- One of the joins of a tree, with the trees that it joins. -/
structure Joint where
  tag : Tag
  edges : List Edge
  residuals : List Expr
  left : JoinTree
  right : JoinTree

namespace Joint

/-- The tree whose last join it is. -/
def tree (J : Joint) : JoinTree := .join J.tag J.edges J.residuals J.left J.right

/-- The join as a plan. -/
def plan (J : Joint) : Node := J.tree.plan

theorem covers_plan (J : Joint) (e : Expr) :
    J.plan.covers e = e.coveredBy J.left.plan J.right.plan := Node.covers_join ..

end Joint

namespace JoinTree
variable {E : List Edge} {t l r : JoinTree} {J K : Joint} {e : Edge}

/-- The joins of a tree: those of the left tree, those of the right tree, the last one. -/
def joints : JoinTree → List Joint
  | leaf _ => []
  | join tag edges residuals l r => l.joints ++ r.joints ++ [⟨tag, edges, residuals, l, r⟩]

/-- The trees that are left when joins without an equality are taken out, from the last one on. -/
def cut : JoinTree → List JoinTree
  | leaf n => [leaf n]
  | join tag edges residuals l r =>
    if edges.isEmpty then l.cut ++ r.cut else [join tag edges residuals l r]

@[simp] theorem mem_joints_join {tag : Tag} {edges : List Edge} {residuals : List Expr} :
    J ∈ (join tag edges residuals l r).joints ↔
      J ∈ l.joints ∨ J ∈ r.joints ∨ J = ⟨tag, edges, residuals, l, r⟩ := by
  rw [joints, List.mem_append, List.mem_append, List.mem_singleton, or_assoc]

theorem joints_tree (J : Joint) : J.tree.joints = J.left.joints ++ J.right.joints ++ [J] := rfl

theorem leaves_tree (J : Joint) : J.tree.leaves = J.left.leaves ++ J.right.leaves := rfl

theorem length_joints (t : JoinTree) : t.joints.length + 1 = t.leaves.length := by
  induction t with
  | leaf => rfl
  | join _ _ _ l r ihl ihr =>
    simp only [joints, leaves, List.length_append, List.length_singleton]
    omega

theorem residuals_eq_flatMap (t : JoinTree) : t.residuals = t.joints.flatMap Joint.residuals := by
  induction t with
  | leaf => rfl
  | join _ _ _ l r ihl ihr => simp [residuals, joints, ihl, ihr]

theorem uses_eq_countP (e : Edge) (t : JoinTree) : t.uses e =
    t.joints.countP fun J => !J.edges.isEmpty && e.between J.left.plan J.right.plan := by
  induction t with
  | leaf => rfl
  | join _ _ _ l r ihl ihr =>
    rw [uses, joints, List.countP_append, List.countP_append, ihl, ihr, List.countP_singleton]
    congr 1
    cases (_ && _ : Bool) <;> rfl

/-- A join covers what one of the joins below it covers. -/
theorem covers_of_mem_joints {e : Expr} (hJ : J ∈ t.joints) (h : J.plan.covers e = true) :
    t.covers e = true := by
  induction t with
  | leaf => cases hJ
  | join tag es residuals l r ihl ihr =>
    rw [covers_join, ← Node.covers_join tag .cross]
    have hprod : ∀ c, (l.plan.produces c = true ∨ r.plan.produces c = true) →
        (Node.join tag .cross l.plan r.plan).produces c = true := fun c hc => by
      rwa [Node.produces_join, Bool.or_eq_true]
    rcases mem_joints_join.1 hJ with hJ | hJ | rfl
    · exact Node.covers_mono (fun c hc => hprod c (.inl hc)) (covers_plan (ihl hJ))
    · exact Node.covers_mono (fun c hc => hprod c (.inr hc)) (covers_plan (ihr hJ))
    · exact (Node.covers_join ..).trans ((Joint.covers_plan _ e).symm.trans h)

theorem covers_eq_any (e : Expr) (t : JoinTree) : t.covers e = t.joints.any (·.plan.covers e) := by
  rw [Bool.eq_iff_iff, List.any_eq_true]
  constructor
  · intro h
    cases t with
    | leaf => cases h
    | join tag edges residuals l r =>
      refine ⟨⟨tag, edges, residuals, l, r⟩, by simp, ?_⟩
      rwa [Joint.covers_plan]
  · rintro ⟨J, hJ, h⟩
    exact covers_of_mem_joints hJ h

/-- The equalities of all joints are those between the inputs, or none. -/
theorem built_iff : t.Built E ↔ ∀ J ∈ t.joints,
    (J.edges = connecting E J.left.plan J.right.plan ∨ J.edges = []) ∧
      ∀ e ∈ J.residuals, J.plan.covers e = true := by
  constructor
  · intro h
    induction h with
    | leaf => exact fun J hJ => by cases hJ
    | connected tag _ _ hc ihl ihr =>
      intro J hJ
      rcases mem_joints_join.1 hJ with hJ | hJ | rfl
      · exact ihl J hJ
      · exact ihr J hJ
      · exact ⟨.inl rfl, fun e he => (Joint.covers_plan _ e).trans (hc e he)⟩
    | crossed tag _ _ hc ihl ihr =>
      intro J hJ
      rcases mem_joints_join.1 hJ with hJ | hJ | rfl
      · exact ihl J hJ
      · exact ihr J hJ
      · exact ⟨.inr rfl, fun e he => (Joint.covers_plan _ e).trans (hc e he)⟩
  · intro h
    induction t with
    | leaf n => exact .leaf n
    | join tag edges residuals l r ihl ihr =>
      have hl := ihl fun J hJ => h J (mem_joints_join.2 (.inl hJ))
      have hr := ihr fun J hJ => h J (mem_joints_join.2 (.inr (.inl hJ)))
      obtain ⟨he, hc⟩ := h ⟨tag, edges, residuals, l, r⟩ (by simp)
      have hc : ∀ e ∈ residuals, e.coveredBy l.plan r.plan = true := fun e he =>
        (Joint.covers_plan _ e).symm.trans (hc e he)
      rcases he with he | he
      · dsimp only at he
        rw [he]
        exact .connected tag hl hr hc
      · dsimp only at he
        rw [he]
        exact .crossed tag hl hr hc

/-- In a tree that has grown, every join is with a single leaf and has an equality. -/
theorem Grown.of_mem_joints (h : t.Grown E) (hJ : J ∈ t.joints) :
    J.edges ≠ [] ∧ ∃ m, J.right = .leaf m := by
  induction h with
  | leaf => cases hJ
  | join tag _ hm _ ih =>
    rcases mem_joints_join.1 hJ with hJ | hJ | rfl
    · exact ih hJ
    · cases hJ
    · exact ⟨hm, _, rfl⟩

theorem Grown.cut (h : t.Grown E) : t.cut = [t] := by
  cases h with
  | leaf => rfl
  | join tag _ hm _ => rw [JoinTree.cut, if_neg (by simpa using hm)]

theorem flatMap_cut_of_grown {ts : List JoinTree} (h : ∀ t ∈ ts, t.Grown E) :
    ts.flatMap JoinTree.cut = ts := by
  rw [List.flatMap_congr (g := fun t => [t]) fun t ht => (h t ht).cut, List.flatMap_singleton']

theorem leaves_cut (t : JoinTree) : t.cut.flatMap leaves = t.leaves := by
  induction t with
  | leaf => rfl
  | join _ edges _ l r ihl ihr =>
    rw [JoinTree.cut]
    split
    · rw [List.flatMap_append, ihl, ihr, leaves]
    · exact List.flatMap_singleton ..

theorem sum_uses_cut (e : Edge) (t : JoinTree) : (t.cut.map (·.uses e)).sum = t.uses e := by
  induction t with
  | leaf => rfl
  | join _ edges _ l r ihl ihr =>
    rw [JoinTree.cut]
    split
    · rename_i h
      rw [List.map_append, List.sum_append, ihl, ihr, uses, h]
      rfl
    · exact Nat.add_zero _

/-- A join without an equality, or a join of one of the pieces. -/
theorem mem_joints_cut (hJ : J ∈ t.joints) : J.edges = [] ∨ ∃ u ∈ t.cut, J ∈ u.joints := by
  induction t with
  | leaf => cases hJ
  | join tag edges residuals l r ihl ihr =>
    rw [JoinTree.cut]
    split
    · rename_i h
      rcases mem_joints_join.1 hJ with hJ | hJ | rfl
      · exact (ihl hJ).imp_right fun ⟨u, hu, hJ⟩ => ⟨u, List.mem_append_left _ hu, hJ⟩
      · exact (ihr hJ).imp_right fun ⟨u, hu, hJ⟩ => ⟨u, List.mem_append_right _ hu, hJ⟩
      · exact .inl (List.isEmpty_iff.1 h)
    · exact .inr ⟨_, List.mem_singleton_self _, hJ⟩

theorem built_of_cut (h : ∀ u ∈ t.cut, u.Grown E)
    (hc : ∀ J ∈ t.joints, ∀ e ∈ J.residuals, J.plan.covers e = true) : t.Built E := by
  refine built_iff.2 fun J hJ => ⟨?_, hc J hJ⟩
  rcases mem_joints_cut hJ with he | ⟨u, hu, hJu⟩
  · exact .inr he
  · exact (built_iff.1 (h u hu).built J hJu).1

/-- If all joins of the pieces have an equality, there is one piece more than joins without one. -/
theorem countP_edgeless (h : ∀ u ∈ t.cut, ∀ J ∈ u.joints, J.edges ≠ []) :
    t.joints.countP (·.edges.isEmpty) + 1 = t.cut.length := by
  induction t with
  | leaf => rfl
  | join tag edges residuals l r ihl ihr =>
    rw [JoinTree.cut] at h ⊢
    split at h
    · rename_i he
      rw [if_pos he, joints, List.countP_append, List.countP_append, List.countP_singleton, if_pos he,
        List.length_append, ← ihl fun u hu => h u (List.mem_append_left _ hu),
        ← ihr fun u hu => h u (List.mem_append_right _ hu)]
      omega
    · rename_i he
      have hnone : (join tag edges residuals l r).joints.countP (·.edges.isEmpty) = 0 :=
        List.countP_eq_zero.2 fun J hJ => by
          simpa using h _ (List.mem_singleton_self _) J hJ
      rw [if_neg he, hnone]
      rfl

end JoinTree

end JoinOrder
