import Mathlib.Data.List.Forall2
import JoinOrder.Proofs.JoinTree
import JoinOrder.Proofs.Rewriting

/-!
# The groups of a plan

`Node.groups` lists the roots of all groups of inner joins in a plan: that of the plan itself and
those below its members. What a plan puts out is what the members of its group put out together.
-/

namespace JoinOrder

namespace Node

/-- The plan, if it is the root of a group. -/
def rootGroup (n : Node) : List Node := if n.isInnerJoin then [n] else []

/-- The roots of the groups below the members of a plan. -/
def groupsBelow : Node → List Node
  | scan _ _ => []
  | unary _ _ input => input.rootGroup ++ input.groupsBelow
  | join _ j left right =>
    if j.isInner then left.groupsBelow ++ right.groupsBelow
    else (left.rootGroup ++ left.groupsBelow) ++ (right.rootGroup ++ right.groupsBelow)

/-- The roots of all groups of a plan. -/
def groups (n : Node) : List Node := n.rootGroup ++ n.groupsBelow

variable {n m : Node} {c : Column}

theorem groups_of_not_inner (h : n.isInnerJoin = false) : n.groups = n.groupsBelow := by
  rw [groups, rootGroup, if_neg (by simp [h]), List.nil_append]

theorem mem_groups_self (h : n.isInnerJoin = true) : n ∈ n.groups := by
  rw [groups, rootGroup, if_pos h]
  exact List.mem_cons_self ..

theorem groups_unary (tag : Tag) (op : UnaryOp) (i : Node) : (unary tag op i).groups = i.groups :=
  groups_of_not_inner rfl

theorem groups_outer {tag : Tag} {j : Join} {l r : Node} (hj : j.isInner = false) :
    (join tag j l r).groups = l.groups ++ r.groups := by
  have hn : (join tag j l r).isInnerJoin = false := hj
  rw [groups_of_not_inner hn, groupsBelow, if_neg (by simp [hj])]
  rfl

theorem not_inner_of_mem_members (h : m ∈ n.members) : m.isInnerJoin = false := by
  induction n with
  | scan =>
    rw [List.mem_singleton.1 h]
    rfl
  | unary =>
    rw [List.mem_singleton.1 h]
    rfl
  | join tag j l r ihl ihr =>
    rw [members] at h
    split at h
    · exact (List.mem_append.1 h).elim ihl ihr
    · rw [List.mem_singleton.1 h]
      exact Bool.eq_false_iff.2 ‹_›

theorem groupsBelow_eq_flatMap (n : Node) : n.groupsBelow = n.members.flatMap groupsBelow := by
  induction n with
  | scan => rfl
  | unary => exact (List.flatMap_singleton ..).symm
  | join tag j l r ihl ihr =>
    rw [members]
    split
    · rename_i hj
      rw [groupsBelow, if_pos hj, List.flatMap_append, ← ihl, ← ihr]
    · exact (List.flatMap_singleton ..).symm

theorem groups_subset_of_mem_members (h : m ∈ n.members) : m.groups ⊆ n.groups := by
  rw [groups_of_not_inner (not_inner_of_mem_members h)]
  refine fun g hg => List.mem_append_right _ ?_
  rw [groupsBelow_eq_flatMap]
  exact List.mem_flatMap.2 ⟨m, h, hg⟩

theorem mem_groups_iff {g : Node} : g ∈ n.groups ↔
    (n.isInnerJoin = true ∧ g = n) ∨ ∃ m ∈ n.members, g ∈ m.groups := by
  have hmem : (∃ m ∈ n.members, g ∈ m.groups) ↔ g ∈ n.groupsBelow := by
    rw [groupsBelow_eq_flatMap, List.mem_flatMap]
    refine exists_congr fun m => and_congr_right fun hm => ?_
    rw [groups_of_not_inner (not_inner_of_mem_members hm)]
  rw [hmem, groups, List.mem_append]
  refine or_congr_left ?_
  rw [rootGroup]
  split <;> simp_all

theorem produces_members (n : Node) (c : Column) :
    n.produces c = n.members.any (·.produces c) := by
  induction n with
  | scan => simp [members]
  | unary => simp [members]
  | join tag j l r ihl ihr =>
    rw [members]
    split
    · rw [produces_join, ihl, ihr, List.any_append]
    · simp

theorem two_le_length_members {n : Node} (h : n.isInnerJoin = true) : 2 ≤ n.members.length := by
  cases n with
  | scan => cases h
  | unary => cases h
  | join t j l r =>
    have hj : j.isInner = true := h
    rw [members, if_pos hj, List.length_append]
    have := List.length_pos_iff.2 (Reorder.members_ne_nil l)
    have := List.length_pos_iff.2 (Reorder.members_ne_nil r)
    omega

/-- Every projection is to columns of its input. -/
def WellFormed : Node → Prop
  | scan _ _ => True
  | unary _ op input => op.missing? input.produces = none ∧ input.WellFormed
  | join _ _ left right => left.WellFormed ∧ right.WellFormed

theorem mem_groups_join {tag : Tag} {j : Join} {l r g : Node} (h : g ∈ (join tag j l r).groups) :
    (j.isInner = true ∧ g = join tag j l r) ∨ g ∈ l.groups ∨ g ∈ r.groups := by
  cases hj : j.isInner with
  | false =>
    rw [groups_outer hj] at h
    exact .inr (List.mem_append.1 h)
  | true =>
    have hn : (join tag j l r).isInnerJoin = true := hj
    rw [groups, rootGroup, if_pos hn, groupsBelow, if_pos hj, List.singleton_append,
      List.mem_cons, List.mem_append] at h
    rcases h with rfl | hl | hr
    · exact .inl ⟨rfl, rfl⟩
    · exact .inr (.inl (List.mem_append_right _ hl))
    · exact .inr (.inr (List.mem_append_right _ hr))

/-- The groups of a plan are trees of inner joins. A property that inputs share with what is above
them holds of the groups of a plan if it holds of the plan. -/
theorem of_mem_groups {P : Node → Prop} {g : Node}
    (hu : ∀ {tag op i}, P (.unary tag op i) → P i)
    (hj : ∀ {tag j l r}, P (.join tag j l r) → P l ∧ P r) (hn : P n) (h : g ∈ n.groups) :
    g.isInnerJoin = true ∧ P g := by
  induction n with
  | scan => cases h
  | unary tag op i ih =>
    rw [groups_unary] at h
    exact ih (hu hn) h
  | join tag j l r ihl ihr =>
    rcases mem_groups_join h with ⟨hi, rfl⟩ | hl | hr
    · exact ⟨hi, hn⟩
    · exact ihl (hj hn).1 hl
    · exact ihr (hj hn).2 hr

/-- In every group no two members put out the same column. -/
def Disjoint (n : Node) : Prop := ∀ g ∈ n.groups, g.members.Pairwise Apart

instance (n : Node) : Decidable n.Disjoint :=
  inferInstanceAs (Decidable (∀ g ∈ n.groups, g.members.Pairwise Apart))

/-- The plan `q` puts out the columns of `n`, and is no inner join if `n` is none. -/
structure StandsFor (q n : Node) : Prop where
  produces : n.SameColumns q
  inner : n.isInnerJoin = false → q.isInnerJoin = false

namespace StandsFor

theorem refl (n : Node) : n.StandsFor n := ⟨fun _ => rfl, fun h => h⟩

theorem of_inner {q : Node} (hn : n.isInnerJoin = true) (h : n.SameColumns q) : q.StandsFor n :=
  ⟨h, fun hn' => by rw [hn'] at hn; cases hn⟩

theorem trans {k : Node} (h : m.StandsFor n) (h' : k.StandsFor m) : k.StandsFor n :=
  ⟨fun c => (h.produces c).trans (h'.produces c), fun hn => h'.inner (h.inner hn)⟩

theorem unary {i i' : Node} (h : i'.StandsFor i) (tag tag' : Tag) (op : UnaryOp) :
    (Node.unary tag' op i').StandsFor (.unary tag op i) := by
  refine ⟨fun c => ?_, fun _ => rfl⟩
  have := h.produces c
  rw [Bool.eq_iff_iff, produces_iff, produces_iff] at this ⊢
  cases op with
  | project => rfl
  | filter => exact this
  | limit => exact this

theorem join {l l' r r' : Node} (hl : l'.StandsFor l) (hr : r'.StandsFor r) (tag tag' : Tag)
    (j : Join) : (Node.join tag' j l' r').StandsFor (.join tag j l r) := by
  refine ⟨fun c => ?_, fun h => h⟩
  rw [produces_join, produces_join, hl.produces, hr.produces]

end StandsFor

end Node

theorem Dresses.produces {config : Config} {n q : Node} {s : Solution} (h : Dresses config n s q)
    (hs : n.SameColumns s.plan) : n.SameColumns q := by
  intro c
  obtain ⟨filtered, hf, hq⟩ := h
  have hfp : n.produces c = filtered.produces c := by
    rw [hs c]
    split at hf
    · rw [hf]
    · obtain ⟨tag, rfl⟩ := hf
      rfl
  split at hq
  · obtain ⟨-, tag, rfl⟩ := hq
    rw [Bool.eq_iff_iff, Node.produces_iff, Node.produces_iff]
    exact Schema.mem_ofList.symm
  · rw [hq, hfp]

theorem Dresses.groups {config : Config} {n q : Node} {s : Solution} (h : Dresses config n s q) :
    q.groups = s.plan.groups := by
  obtain ⟨filtered, hf, hq⟩ := h
  have hfg : filtered.groups = s.plan.groups := by
    split at hf
    · rw [hf]
    · obtain ⟨tag, rfl⟩ := hf
      exact Node.groups_unary ..
  split at hq
  · obtain ⟨-, tag, rfl⟩ := hq
    rw [Node.groups_unary, hfg]
  · rw [hq, hfg]

namespace Regrouped
variable {R : Node → Node → Prop} {n q : Node}

theorem imp {R' : Node → Node → Prop} (h : Regrouped R n q)
    (hR : ∀ m ∈ n.members, ∀ q, R m q → R' m q) : Regrouped R' n q := by
  induction h with
  | member hn hR' => exact .member hn (hR _ (by simp [Node.members_of_not_inner hn]) _ hR')
  | join hj _ _ ihl ihr =>
    rw [Node.members, if_pos hj] at hR
    exact .join hj (ihl fun m hm => hR m (List.mem_append_left _ hm))
      (ihr fun m hm => hR m (List.mem_append_right _ hm))

theorem sameColumns (h : Regrouped R n q) (hR : ∀ m q, R m q → m.SameColumns q) :
    n.SameColumns q := by
  induction h with
  | member _ hR' => exact hR _ _ hR'
  | join _ _ _ ihl ihr =>
    intro c
    rw [Node.produces_join, Node.produces_join, ihl c, ihr c]

theorem members (h : Regrouped R n q)
    (hR : ∀ m q, R m q → m.isInnerJoin = false → q.isInnerJoin = false) :
    List.Forall₂ R n.members q.members := by
  induction h with
  | member hn hR' =>
    rw [Node.members_of_not_inner hn, Node.members_of_not_inner (hR _ _ hR' hn)]
    exact .cons hR' .nil
  | join hj _ _ ihl ihr =>
    rw [Node.members, Node.members, if_pos hj, if_pos hj]
    exact List.rel_append ihl ihr

end Regrouped

namespace JoinTree
variable {t : JoinTree}

theorem isInnerJoin_plan (h : 2 ≤ t.leaves.length) : t.plan.isInnerJoin = true := by
  cases t with
  | leaf => simp [leaves] at h
  | join => rfl

theorem sameColumns_plan {n : Node} {ms : List Node} (hl : t.leaves.Perm ms)
    (hms : List.Forall₂ Node.SameColumns n.members ms) : n.SameColumns t.plan := by
  intro c
  rw [n.produces_members, any_produces_congr hms, t.produces_plan]
  exact (hl.any_eq ..).symm

theorem mem_groups_plan (h : ∀ m ∈ t.leaves, m.isInnerJoin = false) {g : Node}
    (hg : g ∈ t.plan.groups) : g = t.plan ∨ ∃ m ∈ t.leaves, g ∈ m.groups := by
  rcases Node.mem_groups_iff.1 hg with ⟨-, rfl⟩ | ⟨m, hm, hg⟩
  · exact .inl rfl
  · exact .inr ⟨m, members_plan h ▸ hm, hg⟩

end JoinTree

namespace Reorder

section Members
variable {n : Node} {ms : List Node}

theorem connects_of_mem_ofPlan (h : List.Forall₂ Node.SameColumns n.members ms) :
    ∀ e ∈ (JoinGroup.ofPlan n).edges, e.connects ms = true := fun e he => by
  rw [← Edge.connects_congr h]
  exact (List.mem_filter.1 he).2

theorem not_inner_of_standsFor (h : List.Forall₂ (fun m q => q.StandsFor m) n.members ms) :
    ∀ m ∈ ms, m.isInnerJoin = false := fun m hm => by
  obtain ⟨k, hk, hkm⟩ := exists_of_mem_right h hm
  exact hkm.inner (Node.not_inner_of_mem_members hk)

end Members

variable {ν σ : Type} [CostScale ν]

theorem sameColumns_of_solve {search : Search ν σ} {n : Node} {ms : List Node}
    {residuals : List Expr} {a b : Session ν σ} {s : Solution}
    (hms : List.Forall₂ Node.SameColumns n.members ms)
    (hs : search.solve ms residuals a = .ok (some s) b) : n.SameColumns s.plan := by
  obtain ⟨-, t, left, hfound, hf, -⟩ := Search.forest_of_solve (ne_nil_of_members hms) hs
  cases hfound
  exact JoinTree.sameColumns_plan (by simpa using hf.leaves) hms

/-- Reordering keeps the columns, and makes an inner join of nothing else. -/
theorem standsFor (context : Context ν σ) : Invariant context False fun n q => q.StandsFor n where
  refl n := .refl n
  unary tag tag' op h := h.unary tag tag' op
  outer tag tag' _ hl hr := hl.join hr tag tag' _
  kept hn _ h := .of_inner hn (h.sameColumns fun _ _ h => h.produces)
  joined hn _ hms hs _ hq :=
    .of_inner hn (hq.produces (sameColumns_of_solve (hms.imp fun _ _ h => h.produces) hs))

section Columns
variable {context : Context ν σ} {n q : Node} {ms : List Node} {a b c d : Session ν σ}

theorem sameColumns_of_members (hms : rewriteMembers context n a = .ok ms b) :
    List.Forall₂ Node.SameColumns n.members ms :=
  ((standsFor context).rewriteMembers False.elim hms).imp fun _ _ h => h.produces

theorem sameColumns_of_settle (hms : rewriteMembers context n a = .ok ms b)
    (hq : settle context n ms c = .ok q d) : n.SameColumns q :=
  ((standsFor context).settle ((standsFor context).rewriteMembers False.elim hms) False.elim
    hq).produces

end Columns

end Reorder

end JoinOrder
