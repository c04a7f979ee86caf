import Mathlib.Data.List.Perm.Basic
import JoinOrder.Proofs.Connection

/-!
# Join trees

A join tree is a tree of inner joins above given plans, its leaves. It tells the joins that a
search has made from the inner joins that a member may begin with.

`Built` trees are what a search makes: a join carries all edges between its inputs, or none. How
often a tree `uses` an edge settles which equalities it carries (`Built.map_ends_edges`). An edge is
used less often than it touches leaves (`uses_lt`), and a tree grown leaf by leaf uses every edge
within it that touches two of its leaves (`Grown.uses_pos`).
-/

namespace JoinOrder

/-- Inner joins above given plans. -/
inductive JoinTree where
  | leaf (n : Node)
  | join (tag : Tag) (edges : List Edge) (residuals : List Expr) (left right : JoinTree)

namespace JoinTree

/-- The tree as a plan. -/
def plan : JoinTree → Node
  | leaf n => n
  | join tag edges residuals l r => .join tag ⟨.inner, edges, residuals⟩ l.plan r.plan

/-- The plans below the joins, from left to right. -/
def leaves : JoinTree → List Node
  | leaf n => [n]
  | join _ _ _ l r => l.leaves ++ r.leaves

/-- The equalities of all joins. -/
def edges : JoinTree → List Edge
  | leaf _ => []
  | join _ edges _ l r => l.edges ++ r.edges ++ edges

/-- The residual conditions of all joins. -/
def residuals : JoinTree → List Expr
  | leaf _ => []
  | join _ _ residuals l r => l.residuals ++ r.residuals ++ residuals

/-- Some join covers the condition: then the one at the root does. -/
def covers (e : Expr) : JoinTree → Bool
  | leaf _ => false
  | join _ _ _ l r => e.coveredBy l.plan r.plan

/-- The number of joins that carry the edge. -/
def uses (e : Edge) : JoinTree → Nat
  | leaf _ => 0
  | join _ edges _ l r =>
    l.uses e + r.uses e + (!edges.isEmpty && e.between l.plan r.plan).toNat

variable {t l r : JoinTree} {E : List Edge}

theorem produces_plan (t : JoinTree) (c : Column) :
    t.plan.produces c = t.leaves.any (·.produces c) := by
  induction t with
  | leaf n => simp [plan, leaves]
  | join _ _ _ l r ihl ihr => rw [plan, Node.produces_join, ihl, ihr, leaves, List.any_append]

theorem produces_plan_iff {c : Column} :
    t.plan.produces c = true ↔ ∃ m ∈ t.leaves, m.produces c = true := by
  rw [produces_plan, List.any_eq_true]

theorem exists_produces_map_plan {ts : List JoinTree} {c : Column} :
    (∃ n ∈ ts.map plan, n.produces c = true) ↔ ∃ m ∈ ts.flatMap leaves, m.produces c = true := by
  constructor
  · rintro ⟨n, hn, hc⟩
    obtain ⟨t, ht, rfl⟩ := List.mem_map.1 hn
    obtain ⟨m, hm, hc⟩ := produces_plan_iff.1 hc
    exact ⟨m, List.mem_flatMap.2 ⟨t, ht, hm⟩, hc⟩
  · rintro ⟨m, hm, hc⟩
    obtain ⟨t, ht, hm⟩ := List.mem_flatMap.1 hm
    exact ⟨t.plan, List.mem_map_of_mem ht, produces_plan_iff.2 ⟨m, hm, hc⟩⟩

theorem leaves_ne_nil (t : JoinTree) : t.leaves ≠ [] := by
  induction t with
  | leaf n => simp [leaves]
  | join _ _ _ l r ihl ihr => simp [leaves, ihl]

theorem touches_plan {e : Edge} : e.touches t.plan = true ↔ 0 < t.leaves.countP e.touches := by
  unfold Edge.touches
  rw [Bool.or_eq_true, List.countP_pos_iff]
  constructor
  · rintro (h | h)
    · obtain ⟨m, hm, h⟩ := produces_plan_iff.1 h
      exact ⟨m, hm, by rw [h, Bool.true_or]⟩
    · obtain ⟨m, hm, h⟩ := produces_plan_iff.1 h
      exact ⟨m, hm, by rw [h, Bool.or_true]⟩
  · rintro ⟨m, hm, h⟩
    rw [Bool.or_eq_true] at h
    exact h.imp (fun h => produces_plan_iff.2 ⟨m, hm, h⟩) fun h => produces_plan_iff.2 ⟨m, hm, h⟩

theorem covers_join (e : Expr) (tag : Tag) (edges : List Edge) (residuals : List Expr)
    (l r : JoinTree) : (join tag edges residuals l r).covers e = e.coveredBy l.plan r.plan := rfl

theorem covers_plan {e : Expr} (h : t.covers e = true) : t.plan.covers e = true := by
  cases t with
  | leaf => cases h
  | join tag edges residuals l r => rw [plan, Node.covers_join]; exact h

/-- An edge is used less often than it touches leaves. -/
theorem uses_lt (e : Edge) (t : JoinTree) : t.uses e = 0 ∨ t.uses e < t.leaves.countP e.touches := by
  induction t with
  | leaf n => exact .inl rfl
  | join tag edges residuals l r ihl ihr =>
    rw [uses, leaves, List.countP_append]
    cases hb : !edges.isEmpty && e.between l.plan r.plan with
    | false => simp only [Bool.toNat_false]; omega
    | true =>
      have hb := (Bool.and_eq_true_iff.1 hb).2
      have hl := touches_plan.1 (Edge.touches_left hb)
      have hr := touches_plan.1 (Edge.touches_right hb)
      simp only [Bool.toNat_true]; omega

/-- A join carries the edges between its inputs or none, and residual conditions that it covers. -/
inductive Built (E : List Edge) : JoinTree → Prop
  | leaf (n : Node) : Built E (.leaf n)
  | connected {l r : JoinTree} {residuals : List Expr} (tag : Tag) (hl : Built E l) (hr : Built E r)
      (hc : ∀ e ∈ residuals, e.coveredBy l.plan r.plan = true) :
      Built E (.join tag (connecting E l.plan r.plan) residuals l r)
  | crossed {l r : JoinTree} {residuals : List Expr} (tag : Tag) (hl : Built E l) (hr : Built E r)
      (hc : ∀ e ∈ residuals, e.coveredBy l.plan r.plan = true) :
      Built E (.join tag [] residuals l r)

/-- One leaf after the other was joined with what was there before, on some edges. -/
inductive Grown (E : List Edge) : JoinTree → Prop
  | leaf (n : Node) : Grown E (.leaf n)
  | join {l : JoinTree} {m : Node} {residuals : List Expr} (tag : Tag) (hl : Grown E l)
      (hm : connecting E l.plan m ≠ []) (hc : ∀ e ∈ residuals, e.coveredBy l.plan m = true) :
      Grown E (.join tag (connecting E l.plan m) residuals l (.leaf m))

theorem Grown.built (h : t.Grown E) : t.Built E := by
  induction h with
  | leaf n => exact .leaf n
  | join tag _ _ hc ih => exact .connected tag ih (.leaf _) hc

theorem map_filter_eq_flatMap {α β : Type} (p : α → Bool) (f : α → β) (as : List α) :
    (as.filter p).map f = as.flatMap fun a => List.replicate (p a).toNat (f a) := by
  induction as with
  | nil => rfl
  | cons a as ih => cases h : p a <;> simp [h, ih]

/-- The equalities of a tree are, up to order and turning, the edges it may use, each as often as
it is used. -/
theorem Built.map_ends_edges (h : t.Built E) :
    (t.edges.map Edge.ends).Perm (E.flatMap fun e => List.replicate (t.uses e) e.ends) := by
  induction h with
  | leaf n => simp [edges, uses]
  | @connected l r residuals tag _ _ _ ihl ihr =>
    have own : (connecting E l.plan r.plan).map Edge.ends = E.flatMap fun e =>
        List.replicate (!(connecting E l.plan r.plan).isEmpty && e.between l.plan r.plan).toNat
          e.ends := by
      rw [map_ends_connecting, map_filter_eq_flatMap]
      refine List.flatMap_congr fun e he => ?_
      cases hb : e.between l.plan r.plan with
      | false => simp
      | true =>
        have : connecting E l.plan r.plan ≠ [] := fun h => by
          simp [connecting_eq_nil.1 h e he] at hb
        simp [List.isEmpty_eq_false_iff.2 this]
    rw [edges, List.map_append, List.map_append, own]
    refine ((ihl.append ihr).append_right _).trans ?_
    refine ((List.flatMap_append_perm E _ _).append_right _).trans ?_
    refine (List.flatMap_append_perm E _ _).trans (.of_eq ?_)
    simp only [uses, List.replicate_append_replicate]
  | @crossed l r residuals tag _ _ _ ihl ihr =>
    rw [edges, List.append_nil, List.map_append]
    refine (ihl.append ihr).trans ((List.flatMap_append_perm E _ _).trans (.of_eq ?_))
    simp [uses, List.replicate_append_replicate]

/-- A grown tree uses every edge within it that touches two of its leaves. -/
theorem Grown.uses_pos (h : t.Grown E) {e : Edge} (ht : e.within t.plan = true)
    (hc : 2 ≤ t.leaves.countP e.touches) : 0 < t.uses e := by
  induction h with
  | leaf n =>
    have := List.countP_le_length (p := e.touches) (l := leaves (.leaf n))
    simp only [leaves, List.length_cons, List.length_nil] at this hc
    omega
  | @join l m _ tag _ hne _ ih =>
    rw [leaves, leaves, List.countP_append, List.countP_singleton] at hc
    rw [uses]
    by_cases hm : e.touches m = true
    · have hl : e.touches l.plan = true := touches_plan.2 (by rw [if_pos hm] at hc; omega)
      have hb : e.between l.plan m = true := Edge.between_of_within ht hl hm
      simp [plan, hb, List.isEmpty_eq_false_iff.2 hne]
    · rw [if_neg hm] at hc
      rw [plan, plan, Edge.within_join, Bool.or_eq_true, Bool.or_eq_true] at ht
      rcases ht with (hl | hr) | hb
      · have := ih hl hc
        omega
      · rw [Edge.touches, (Bool.and_eq_true_iff.1 hr).1, Bool.true_or] at hm
        exact absurd rfl hm
      · exact absurd (Edge.touches_right hb) hm

end JoinTree

@[simp] theorem Join.isInner_inner (edges : List Edge) (residuals : List Expr) :
    Join.isInner ⟨.inner, edges, residuals⟩ = true := rfl

namespace Node
variable {n : Node}

theorem members_of_not_inner (h : n.isInnerJoin = false) : n.members = [n] := by
  cases n with
  | join t j l r => rw [members, if_neg (by simpa [isInnerJoin] using h)]
  | _ => rfl

theorem innerEdges_of_not_inner (h : n.isInnerJoin = false) : n.innerEdges = [] := by
  cases n with
  | join t j l r => rw [innerEdges, if_neg (by simpa [isInnerJoin] using h)]
  | _ => rfl

theorem innerResiduals_of_not_inner (h : n.isInnerJoin = false) : n.innerResiduals = [] := by
  cases n with
  | join t j l r => rw [innerResiduals, if_neg (by simpa [isInnerJoin] using h)]
  | _ => rfl

end Node

namespace JoinTree
variable {t : JoinTree} (h : ∀ n ∈ t.leaves, n.isInnerJoin = false)
include h

theorem members_plan : t.plan.members = t.leaves := by
  induction t with
  | leaf n => exact Node.members_of_not_inner (h n (by simp [leaves]))
  | join tag edges residuals l r ihl ihr =>
    rw [plan, Node.members, Join.isInner_inner, if_pos rfl, leaves, ihl fun n hn => h n (by simp [leaves, hn]),
      ihr fun n hn => h n (by simp [leaves, hn])]

theorem innerEdges_plan : t.plan.innerEdges = t.edges := by
  induction t with
  | leaf n => exact Node.innerEdges_of_not_inner (h n (by simp [leaves]))
  | join tag es residuals l r ihl ihr =>
    rw [plan, Node.innerEdges, Join.isInner_inner, if_pos rfl, edges, ihl fun n hn => h n (by simp [leaves, hn]),
      ihr fun n hn => h n (by simp [leaves, hn])]

theorem innerResiduals_plan : t.plan.innerResiduals = t.residuals := by
  induction t with
  | leaf n => exact Node.innerResiduals_of_not_inner (h n (by simp [leaves]))
  | join tag edges rs l r ihl ihr =>
    rw [plan, Node.innerResiduals, Join.isInner_inner, if_pos rfl, residuals,
      ihl fun n hn => h n (by simp [leaves, hn]), ihr fun n hn => h n (by simp [leaves, hn])]

end JoinTree

end JoinOrder
