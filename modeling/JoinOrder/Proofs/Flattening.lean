import JoinOrder.Proofs.ExactCosts
import JoinOrder.Proofs.Groups

/-!
# Flattening a tree of inner joins

A node of a plan is found by the way that leads down to it from the root, its *place*. A part of the
plan that is shared stands at several places. `Node.Reaches` follows the ways through inner joins
only, and `Node.Lists` says of a list of nodes that it has what stands at the ends of those ways,
place by place, in a given order of the places.

The members of a group are what the ways out of the tree of inner joins lead to, from left to right,
and its conditions are those of the inner joins in postorder (`JoinGroup.ofPlan_flattens`).
-/

namespace JoinOrder

/-- The inputs of a join. -/
inductive Side where
  | left
  | right

/-- The way down from the root of a plan. -/
abbrev Place := List Side

namespace Place

/-- The two ways part somewhere, and `p` goes to the left. -/
def LeftOf (p q : Place) : Prop :=
  ∃ common p' q', p = common ++ .left :: p' ∧ q = common ++ .right :: q'

/-- In postorder: the place `p` is to the left of `q` or below it. -/
def Before (p q : Place) : Prop := p.LeftOf q ∨ ∃ side down, p = q ++ side :: down

variable {p q : Place}

theorem LeftOf.cons (h : p.LeftOf q) (side : Side) : LeftOf (side :: p) (side :: q) := by
  obtain ⟨common, p', q', rfl, rfl⟩ := h
  exact ⟨side :: common, p', q', rfl, rfl⟩

theorem leftOf_of_sides (p q : Place) : LeftOf (.left :: p) (.right :: q) := ⟨[], p, q, rfl, rfl⟩

theorem Before.cons (h : p.Before q) (side : Side) : Before (side :: p) (side :: q) := by
  rcases h with h | ⟨side', down, rfl⟩
  · exact .inl (h.cons side)
  · exact .inr ⟨side', down, rfl⟩

/-- The places below a join that are these ones on its left and on its right. -/
def onSides (ps qs : List Place) : List Place :=
  ps.map (Side.left :: ·) ++ qs.map (Side.right :: ·)

variable {ps qs : List Place} {R : Place → Place → Prop}

theorem eq_cons_of_mem_onSides (h : p ∈ onSides ps qs) : ∃ side down, p = side :: down := by
  rcases List.mem_append.1 h with h | h
  · obtain ⟨down, -, rfl⟩ := List.mem_map.1 h
    exact ⟨_, down, rfl⟩
  · obtain ⟨down, -, rfl⟩ := List.mem_map.1 h
    exact ⟨_, down, rfl⟩

theorem pairwise_onSides (hcons : ∀ side p q, R p q → R (side :: p) (side :: q))
    (hsides : ∀ p q, R (.left :: p) (.right :: q)) (hps : ps.Pairwise R) (hqs : qs.Pairwise R) :
    (onSides ps qs).Pairwise R := by
  refine List.pairwise_append.2 ⟨?_, ?_, fun p hp q hq => ?_⟩
  · exact List.pairwise_map.2 (hps.imp (hcons _ _ _))
  · exact List.pairwise_map.2 (hqs.imp (hcons _ _ _))
  · obtain ⟨p', -, rfl⟩ := List.mem_map.1 hp
    obtain ⟨q', -, rfl⟩ := List.mem_map.1 hq
    exact hsides p' q'

end Place

namespace Node

/-- The way `p` leads to `m`, and leaves only inner joins behind. -/
inductive Reaches : Node → Place → Node → Prop
  | here (n : Node) : Reaches n [] n
  | left {tag : Tag} {j : Join} {l r m : Node} {p : Place} (hj : j.isInner = true)
      (h : Reaches l p m) : Reaches (.join tag j l r) (.left :: p) m
  | right {tag : Tag} {j : Join} {l r m : Node} {p : Place} (hj : j.isInner = true)
      (h : Reaches r p m) : Reaches (.join tag j l r) (.right :: p) m

/-- The nodes with `P` at the ends of ways through inner joins, each as often as it stands there, in
the order `R` of their places. -/
def Lists (n : Node) (R : Place → Place → Prop) (P : Node → Prop) (ms : List Node) : Prop :=
  ∃ places : List Place, places.Pairwise R ∧
    List.Forall₂ (fun p m => n.Reaches p m ∧ P m) places ms ∧
    ∀ p m, n.Reaches p m → P m → p ∈ places

variable {n l r : Node} {R : Place → Place → Prop} {P : Node → Prop}

theorem reaches_of_not_inner {p : Place} {m : Node} (hn : n.isInnerJoin = false)
    (h : n.Reaches p m) : p = [] ∧ m = n := by
  cases h with
  | here => exact ⟨rfl, rfl⟩
  | left hj => exact absurd hj (Bool.eq_false_iff.1 hn)
  | right hj => exact absurd hj (Bool.eq_false_iff.1 hn)

theorem lists_of_not_inner (hn : n.isInnerJoin = false) (hP : P n) : n.Lists R P [n] := by
  refine ⟨[[]], List.pairwise_singleton .., .cons ⟨.here n, hP⟩ .nil, fun p m h _ => ?_⟩
  rw [(reaches_of_not_inner hn h).1]
  exact List.mem_singleton_self _

theorem lists_nil (hn : n.isInnerJoin = false) (hP : ¬ P n) : n.Lists R P [] := by
  refine ⟨[], .nil, .nil, fun p m h hm => ?_⟩
  rw [(reaches_of_not_inner hn h).2] at hm
  exact absurd hm hP

section Sides
variable {tag : Tag} {j : Join} {ps qs : List Place} {ls rs : List Node} (hj : j.isInner = true)
include hj

theorem forall₂_onSides (hl : List.Forall₂ (fun p m => l.Reaches p m ∧ P m) ps ls)
    (hr : List.Forall₂ (fun p m => r.Reaches p m ∧ P m) qs rs) :
    List.Forall₂ (fun p m => (join tag j l r).Reaches p m ∧ P m) (Place.onSides ps qs)
      (ls ++ rs) := by
  refine List.rel_append (List.forall₂_map_left_iff.2 ?_) (List.forall₂_map_left_iff.2 ?_)
  · exact hl.imp fun _ _ h => ⟨.left hj h.1, h.2⟩
  · exact hr.imp fun _ _ h => ⟨.right hj h.1, h.2⟩

omit hj in
theorem mem_onSides_of_reaches (hl : ∀ p m, l.Reaches p m → P m → p ∈ ps)
    (hr : ∀ p m, r.Reaches p m → P m → p ∈ qs) {p : Place} {m : Node}
    (h : (join tag j l r).Reaches p m) (hm : P m) :
    p = [] ∧ P (join tag j l r) ∨ p ∈ Place.onSides ps qs := by
  cases h with
  | here => exact .inl ⟨rfl, hm⟩
  | left _ h => exact .inr (List.mem_append_left _ (List.mem_map_of_mem (hl _ _ h hm)))
  | right _ h => exact .inr (List.mem_append_right _ (List.mem_map_of_mem (hr _ _ h hm)))

variable (hcons : ∀ side p q, R p q → R (side :: p) (side :: q))
  (hsides : ∀ p q, R (.left :: p) (.right :: q)) (hl : l.Lists R P ls) (hr : r.Lists R P rs)
include hcons hsides hl hr

/-- What a tree of inner joins lists without its root is what its sides list. -/
theorem lists_append (hP : ¬ P (join tag j l r)) : (join tag j l r).Lists R P (ls ++ rs) := by
  obtain ⟨ps, hps, hls, hl⟩ := hl
  obtain ⟨qs, hqs, hrs, hr⟩ := hr
  refine ⟨Place.onSides ps qs, Place.pairwise_onSides hcons hsides hps hqs,
    forall₂_onSides hj hls hrs, fun p m h hm => ?_⟩
  exact (mem_onSides_of_reaches hl hr h hm).resolve_left fun h => hP h.2

/-- The root comes last where `R` puts a place behind the places below it. -/
theorem lists_concat (hP : P (join tag j l r)) (hlast : ∀ side p, R (side :: p) []) :
    (join tag j l r).Lists R P (ls ++ rs ++ [join tag j l r]) := by
  obtain ⟨ps, hps, hls, hl⟩ := hl
  obtain ⟨qs, hqs, hrs, hr⟩ := hr
  refine ⟨Place.onSides ps qs ++ [[]], ?_, ?_, fun p m h hm => ?_⟩
  · refine List.pairwise_append.2 ⟨Place.pairwise_onSides hcons hsides hps hqs,
      List.pairwise_singleton .., fun p hp q hq => ?_⟩
    obtain ⟨side, down, rfl⟩ := Place.eq_cons_of_mem_onSides hp
    rw [List.mem_singleton.1 hq]
    exact hlast side down
  · exact List.rel_append (forall₂_onSides hj hls hrs) (.cons ⟨.here _, hP⟩ .nil)
  · rcases mem_onSides_of_reaches hl hr h hm with ⟨rfl, -⟩ | hp
    · exact List.mem_append_right _ (List.mem_singleton_self _)
    · exact List.mem_append_left _ hp

end Sides

/-- The members stand where the ways leave the tree of inner joins, from left to right. -/
theorem lists_members (n : Node) : n.Lists Place.LeftOf (·.isInnerJoin = false) n.members := by
  induction n with
  | scan => exact lists_of_not_inner rfl rfl
  | unary => exact lists_of_not_inner rfl rfl
  | join tag j l r ihl ihr =>
    cases hj : j.isInner with
    | false =>
      have hn : (Node.join tag j l r).isInnerJoin = false := hj
      rw [members_of_not_inner hn]
      exact lists_of_not_inner hn hn
    | true =>
      rw [members, if_pos hj]
      refine lists_append hj (fun side _ _ h => h.cons side) Place.leftOf_of_sides ihl ihr ?_
      exact fun hn => absurd hj (Bool.eq_false_iff.1 hn)

/-- The inner joins of the tree at the root, in postorder. -/
def innerJoins : Node → List Node
  | scan _ _ => []
  | unary _ _ _ => []
  | join tag j left right =>
    if j.isInner then left.innerJoins ++ right.innerJoins ++ [join tag j left right] else []

theorem lists_innerJoins (n : Node) :
    n.Lists Place.Before (·.isInnerJoin = true) n.innerJoins := by
  induction n with
  | scan => exact lists_nil rfl Bool.false_ne_true
  | unary => exact lists_nil rfl Bool.false_ne_true
  | join tag j l r ihl ihr =>
    rw [innerJoins]
    cases hj : j.isInner with
    | false => exact lists_nil hj (by simp [isInnerJoin, hj])
    | true =>
      exact lists_concat hj (fun side _ _ h => h.cons side)
        (fun p q => .inl (Place.leftOf_of_sides p q)) ihl ihr hj fun side p => .inr ⟨side, p, rfl⟩

/-- The equalities of a join at the root. -/
def rootEdges : Node → List Edge
  | join _ j _ _ => j.edges
  | _ => []

/-- The other conditions of a join at the root. -/
def rootResiduals : Node → List Expr
  | join _ j _ _ => j.residuals
  | _ => []

theorem innerEdges_eq_flatMap (n : Node) : n.innerEdges = n.innerJoins.flatMap rootEdges := by
  induction n with
  | scan => rfl
  | unary => rfl
  | join tag j l r ihl ihr =>
    rw [innerEdges, innerJoins]
    split
    · rw [List.flatMap_append, List.flatMap_append, ← ihl, ← ihr, List.flatMap_singleton]
      rfl
    · rfl

theorem innerResiduals_eq_flatMap (n : Node) :
    n.innerResiduals = n.innerJoins.flatMap rootResiduals := by
  induction n with
  | scan => rfl
  | unary => rfl
  | join tag j l r ihl ihr =>
    rw [innerResiduals, innerJoins]
    split
    · rw [List.flatMap_append, List.flatMap_append, ← ihl, ← ihr, List.flatMap_singleton]
      rfl
    · rfl

end Node

/-- The first of the plans to produce the column `c` is at the position `i`. -/
def FirstProducer (plans : List Node) (c : Column) (i : Nat) : Prop :=
  ∃ n, plans[i]? = some n ∧ n.produces c = true ∧
    ∀ k m, k < i → plans[k]? = some m → m.produces c = false

theorem ownerOf?_eq_some_iff {plans : List Node} {c : Column} {i : Nat} :
    ownerOf? plans c = some i ↔ FirstProducer plans c i := by
  unfold ownerOf? FirstProducer
  rw [List.findIdx?_eq_some_iff_getElem]
  constructor
  · rintro ⟨hi, hp, hfirst⟩
    refine ⟨plans[i], List.getElem?_eq_getElem hi, hp, fun k m hk hm => ?_⟩
    obtain ⟨hk', rfl⟩ := List.getElem?_eq_some_iff.1 hm
    exact Bool.eq_false_iff.2 (hfirst k hk)
  · rintro ⟨n, hn, hp, hfirst⟩
    obtain ⟨hi, rfl⟩ := List.getElem?_eq_some_iff.1 hn
    refine ⟨hi, hp, fun k hk => Bool.eq_false_iff.1 (hfirst k _ hk ?_)⟩
    exact List.getElem?_eq_getElem (hk.trans hi)

theorem Edge.connects_iff {e : Edge} {plans : List Node} : e.connects plans = true ↔
    ∃ i j, FirstProducer plans e.left i ∧ FirstProducer plans e.right j ∧ i ≠ j := by
  simp only [← ownerOf?_eq_some_iff]
  unfold connects
  cases ownerOf? plans e.left <;> cases ownerOf? plans e.right <;> simp

theorem perm_of_split (p : Edge → Bool) (edges : List Edge) (residuals : List Expr) :
    ((edges.filter p).map Edge.toExpr ++
      (residuals ++ (edges.filter (!p ·)).map Edge.toExpr)).Perm
      (edges.map Edge.toExpr ++ residuals) := by
  have hsplit := ((List.filter_append_perm p edges).map Edge.toExpr).append_right residuals
  rw [List.map_append] at hsplit
  refine List.Perm.trans ?_ hsplit
  rw [List.append_assoc]
  exact List.perm_append_comm.append_left _

/-- The group of a tree of inner joins has two members or more, which stand at the ends of its ways,
from left to right. Every condition of one of its inner joins is a condition of the group, as often
as it stands in the tree. The equalities are taken in postorder: one whose ends two different members
are the first to produce is an edge, and any other one comes after the residual conditions. -/
theorem JoinGroup.ofPlan_flattens {n : Node} (hn : n.isInnerJoin = true) :
    2 ≤ (ofPlan n).members.length ∧
    n.Lists Place.LeftOf (·.isInnerJoin = false) (ofPlan n).members ∧
    ∃ joins, n.Lists Place.Before (·.isInnerJoin = true) joins ∧
      ((ofPlan n).edges.map Edge.toExpr ++ (ofPlan n).residuals).Perm
        (joins.flatMap fun k => k.rootEdges.map Edge.toExpr ++ k.rootResiduals) ∧
      ∃ stays : Edge → Bool,
        (∀ e, stays e = true ↔ ∃ i j, FirstProducer (ofPlan n).members e.left i ∧
          FirstProducer (ofPlan n).members e.right j ∧ i ≠ j) ∧
        (ofPlan n).edges = (joins.flatMap Node.rootEdges).filter stays ∧
        (ofPlan n).residuals = joins.flatMap Node.rootResiduals ++
          ((joins.flatMap Node.rootEdges).filter (!stays ·)).map Edge.toExpr := by
  refine ⟨Node.two_le_length_members hn, n.lists_members, n.innerJoins, n.lists_innerJoins, ?_,
    (·.connects n.members), fun e => Edge.connects_iff, ?_, ?_⟩
  · refine (perm_of_split (·.connects n.members) n.innerEdges n.innerResiduals).trans ?_
    rw [n.innerEdges_eq_flatMap, n.innerResiduals_eq_flatMap, List.map_flatMap]
    exact List.flatMap_append_perm ..
  · rw [← n.innerEdges_eq_flatMap]
    rfl
  · rw [← n.innerEdges_eq_flatMap, ← n.innerResiduals_eq_flatMap]
    rfl

/-- A join of two tables, joined with itself on an equality of a column with itself. -/
def joinTwice : Node :=
  .join ⟨3, 3⟩ ⟨.inner, [⟨⟨"a", "x"⟩, ⟨"a", "x"⟩⟩], [.isNull (.column ⟨"b", "y"⟩)]⟩ .twoTables
    .twoTables

theorem JoinGroup.ofPlan_flattens_joinTwice :
    joinTwice.Lists Place.LeftOf (·.isInnerJoin = false) joinTwice.members ∧
      joinTwice.members.map Node.cell = [0, 1, 0, 1] ∧
      (ofPlan joinTwice).edges = [⟨⟨"a", "x"⟩, ⟨"b", "y"⟩⟩, ⟨⟨"a", "x"⟩, ⟨"b", "y"⟩⟩] ∧
      ∃ joins, joinTwice.Lists Place.Before (·.isInnerJoin = true) joins ∧
        (joins.flatMap fun k => k.rootEdges.map Edge.toExpr ++ k.rootResiduals).length = 4 := by
  obtain ⟨-, hmembers, joins, hjoins, hperm, -⟩ := ofPlan_flattens (n := joinTwice) rfl
  refine ⟨hmembers, by decide, by decide, joins, hjoins, ?_⟩
  rw [← hperm.length_eq]
  decide

end JoinOrder
