import JoinOrder.Proofs.Pricing

/-!
# Reordering with known prices

Where a search is a function, so is reordering (`Pricing.rewrite`). Its results are bare plans. It
rewrites the members of a group one by one, so rewriting a plan is a matter of its operator and of
the members of its group (`rewrite_of_inner` and its companions), and properties of what it gives
are shown by induction over groups (`Node.group_induction`).
-/

namespace JoinOrder

namespace Node

/-- The bare tree of inner joins over the images of the members. -/
def mapMembers (f : Node → Node) : Node → Node
  | join tag j left right =>
    if j.isInner then .join .blank j (left.mapMembers f) (right.mapMembers f)
    else f (.join tag j left right)
  | n => f n

/-- Induction from the members of a group to the whole group. -/
theorem group_induction {P : Node → Prop} (scan : ∀ tag s, P (.scan tag s))
    (unary : ∀ tag op i, P i → P (.unary tag op i))
    (outer : ∀ tag j l r, j.isInner = false → P l → P r → P (.join tag j l r))
    (inner : ∀ n, n.isInnerJoin = true → (∀ m ∈ n.members, P m) → P n) (n : Node) : P n := by
  have root : ∀ n : Node, (∀ m ∈ n.members, P m) → P n := fun n h => by
    cases hn : n.isInnerJoin with
    | true => exact inner n hn h
    | false => exact h n (by rw [members_of_not_inner hn]; exact List.mem_singleton_self n)
  refine root n ?_
  induction n with
  | scan tag s => exact fun m hm => List.mem_singleton.1 hm ▸ scan tag s
  | unary tag op i ih => exact fun m hm => List.mem_singleton.1 hm ▸ unary tag op i (root i ih)
  | join tag j l r ihl ihr =>
    intro m hm
    rw [members] at hm
    split at hm
    · exact (List.mem_append.1 hm).elim (ihl m) (ihr m)
    · rename_i hj
      rw [List.mem_singleton.1 hm]
      exact outer tag j l r (Bool.eq_false_iff.2 hj) (root l ihl) (root r ihr)

section MapMembers
variable {f g : Node → Node} {n : Node}

theorem isInnerJoin_mapMembers (h : n.isInnerJoin = true) : (n.mapMembers f).isInnerJoin = true := by
  cases n with
  | scan => cases h
  | unary => cases h
  | join tag j l r =>
    have hj : j.isInner = true := h
    rw [mapMembers, if_pos hj]
    exact hj

theorem members_mapMembers (h : ∀ m ∈ n.members, (f m).isInnerJoin = false) :
    (n.mapMembers f).members = n.members.map f := by
  induction n with
  | scan => exact members_of_not_inner (h _ (List.mem_singleton_self _))
  | unary => exact members_of_not_inner (h _ (List.mem_singleton_self _))
  | join tag j l r ihl ihr =>
    rw [members] at h ⊢
    rw [mapMembers]
    split
    · rename_i hj
      rw [if_pos hj, List.forall_mem_append] at h
      rw [members, if_pos hj, ihl h.1, ihr h.2, List.map_append]
    · rename_i hj
      rw [if_neg hj] at h
      exact members_of_not_inner (h _ (List.mem_singleton_self _))

theorem mapMembers_eq_bare (h : ∀ m ∈ n.members, f m = m.bare) : n.mapMembers f = n.bare := by
  induction n with
  | scan => exact h _ (List.mem_singleton_self _)
  | unary => exact h _ (List.mem_singleton_self _)
  | join tag j l r ihl ihr =>
    rw [members] at h
    rw [mapMembers]
    split
    · rename_i hj
      rw [if_pos hj, List.forall_mem_append] at h
      rw [ihl h.1, ihr h.2, bare]
    · rename_i hj
      rw [if_neg hj] at h
      exact h _ (List.mem_singleton_self _)

theorem bare_mapMembers (h : ∀ m ∈ n.members, (f m).bare = f m) :
    (n.mapMembers f).bare = n.mapMembers f := by
  induction n with
  | scan => exact h _ (List.mem_singleton_self _)
  | unary => exact h _ (List.mem_singleton_self _)
  | join tag j l r ihl ihr =>
    rw [members] at h
    rw [mapMembers]
    split
    · rename_i hj
      rw [if_pos hj, List.forall_mem_append] at h
      rw [bare, ihl h.1, ihr h.2]
    · rename_i hj
      rw [if_neg hj] at h
      exact h _ (List.mem_singleton_self _)

theorem sameColumns_mapMembers (h : ∀ m ∈ n.members, m.SameColumns (f m)) :
    n.SameColumns (n.mapMembers f) := by
  induction n with
  | scan => exact h _ (List.mem_singleton_self _)
  | unary => exact h _ (List.mem_singleton_self _)
  | join tag j l r ihl ihr =>
    rw [members] at h
    rw [mapMembers]
    split
    · rename_i hj
      rw [if_pos hj, List.forall_mem_append] at h
      intro c
      rw [produces_join, produces_join, ihl h.1 c, ihr h.2 c]
    · rename_i hj
      rw [if_neg hj] at h
      exact h _ (List.mem_singleton_self _)

end MapMembers

end Node

namespace Pricing

/-- The tree of inner joins over new members, which are taken from the front of the list; returns
the rest of it. -/
def rejoin : Node → List Node → Node × List Node
  | .join tag j left right, new =>
    if j.isInner then
      let l := rejoin left new
      let r := rejoin right l.2
      (.join .blank j l.1 r.1, r.2)
    else (new.headD (.join tag j left right), new.tail)
  | n, new => (new.headD n, new.tail)

/-- Filters a plan by the conditions that are left over, if there are any. -/
def filterBy (conditions : List Expr) (n : Node) : Node :=
  if conditions.isEmpty then n else .unary .blank (.filter conditions) n

/-- Brings the columns into the order of a schema. -/
def arrange (s : Schema) (n : Node) : Node :=
  if n.schema = s then n else .unary .blank (.project s.columns) n

/-- The solution for the group of `n` with what it takes to make up for `n`. -/
def dressed (config : Config) (n : Node) (s : Solution) : Node :=
  let filtered := filterBy s.pending s.plan
  if config.restoreColumnOrder then arrange n.schema filtered else filtered

variable {ν : Type} [CostScale ν] (p : Pricing ν) (config : Config)

/-- The tree of inner joins `n` over its rewritten members. -/
def settleGroup (n : Node) (members : List Node) : Node :=
  if config.admits members.length then
    match p.solve (JoinGroup.ofPlan n).edges members (JoinGroup.ofPlan n).residuals with
    | none => n
    | some s => dressed config n s
  else (rejoin n members).1

/-- The plan `n` over its rewritten members. -/
def settle (n : Node) (members : List Node) : Node :=
  if n.isInnerJoin then p.settleGroup config n members else members.headD n

/-- The rewritten members of the group that a plan belongs to. -/
def rewriteMembers : Node → List Node
  | .scan _ s => [.scan .blank s]
  | .unary _ op input => [.unary .blank op (p.settle config input (rewriteMembers input))]
  | .join _ j left right =>
    if j.isInner then rewriteMembers left ++ rewriteMembers right
    else [.join .blank j (p.settle config left (rewriteMembers left))
      (p.settle config right (rewriteMembers right))]

/-- Reorders every group of inner joins in a plan. -/
def rewrite (n : Node) : Node := p.settle config n (p.rewriteMembers config n)

section Rejoin
variable {f : Node → Node} {n : Node}

theorem rejoin_map (f : Node → Node) (n : Node) (new : List Node) :
    rejoin n (n.members.map f ++ new) = (n.mapMembers f, new) := by
  induction n generalizing new with
  | scan => rfl
  | unary => rfl
  | join tag j l r ihl ihr =>
    rw [rejoin, Node.members, Node.mapMembers]
    split
    · rw [List.map_append, List.append_assoc, ihl]
      dsimp only
      rw [ihr]
    · rfl

end Rejoin

variable {p config} {n : Node}

theorem settle_of_inner (h : n.isInnerJoin = true) (ms : List Node) :
    p.settle config n ms = p.settleGroup config n ms := if_pos h

theorem settle_of_not_inner (h : n.isInnerJoin = false) (m : Node) :
    p.settle config n [m] = m := if_neg (by simp [h])

theorem rewrite_unary (tag : Tag) (op : UnaryOp) (i : Node) :
    p.rewrite config (.unary tag op i) = .unary .blank op (p.rewrite config i) := rfl

theorem rewrite_outer {tag : Tag} {j : Join} {l r : Node} (hj : j.isInner = false) :
    p.rewrite config (.join tag j l r) =
      .join .blank j (p.rewrite config l) (p.rewrite config r) := by
  have hn : (Node.join tag j l r).isInnerJoin = false := hj
  rw [rewrite, rewriteMembers, hj, if_neg Bool.false_ne_true, settle_of_not_inner hn]
  rfl

theorem rewriteMembers_of_not_inner (h : n.isInnerJoin = false) :
    p.rewriteMembers config n = [p.rewrite config n] := by
  cases n with
  | scan => rfl
  | unary => rfl
  | join tag j l r =>
    have hj : j.isInner = false := h
    rw [rewrite_outer hj, rewriteMembers, hj, if_neg Bool.false_ne_true]
    rfl

theorem rewriteMembers_eq (n : Node) :
    p.rewriteMembers config n = n.members.map (p.rewrite config) := by
  induction n with
  | scan => rfl
  | unary => rfl
  | join tag j l r ihl ihr =>
    cases hj : j.isInner with
    | true => rw [rewriteMembers, Node.members, if_pos hj, if_pos hj, ihl, ihr, List.map_append]
    | false =>
      have hn : (Node.join tag j l r).isInnerJoin = false := hj
      rw [rewriteMembers_of_not_inner hn, Node.members_of_not_inner hn, List.map_singleton]

theorem rewrite_of_inner (h : n.isInnerJoin = true) :
    p.rewrite config n = p.settleGroup config n (n.members.map (p.rewrite config)) := by
  rw [rewrite, settle_of_inner h, rewriteMembers_eq]

end Pricing

end JoinOrder
