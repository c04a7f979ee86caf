import JoinOrder.Plan.Shape
import JoinOrder.Proofs.Costs
import JoinOrder.Proofs.Groups

/-!
# Searching with known prices

If the costs of members and joins are given by functions of their structure, a search is a function
too: no step fails, nothing is remembered, and the tags of new nodes do not matter. `Pricing.solve`
is this function, step by step like the search that asks its collaborators. It works on *bare*
plans, in which all tags are blank; two plans have one shape if and only if they are equal when
bare.
-/

namespace JoinOrder

/-- The tag of nodes that are told apart by their shape alone. -/
def Tag.blank : Tag := ⟨0, 0⟩

namespace Node

/-- The plan with blank tags. -/
def bare : Node → Node
  | scan _ s => scan .blank s
  | unary _ op input => unary .blank op input.bare
  | join _ j left right => join .blank j left.bare right.bare

variable {m n : Node}

theorem bare_eq_iff : m.bare = n.bare ↔ m.shape = n.shape := by
  induction m generalizing n with
  | scan => cases n <;> simp [bare, shape]
  | unary _ _ _ ih => cases n <;> simp [bare, shape, ih]
  | join _ _ _ _ ihl ihr => cases n <;> simp [bare, shape, ihl, ihr]

@[simp] theorem shape_bare (n : Node) : n.bare.shape = n.shape := by
  induction n with
  | scan => rfl
  | unary _ _ _ ih => rw [bare, shape, shape, ih]
  | join _ _ _ _ ihl ihr => rw [bare, shape, shape, ihl, ihr]

@[simp] theorem bare_bare (n : Node) : n.bare.bare = n.bare := bare_eq_iff.2 n.shape_bare

@[simp] theorem schema_bare (n : Node) : n.bare.schema = n.schema := schema_eq_of_shape n.shape_bare

@[simp] theorem produces_bare (n : Node) : n.bare.produces = n.produces := by
  funext c
  unfold produces
  rw [schema_bare]

@[simp] theorem isInnerJoin_bare (n : Node) : n.bare.isInnerJoin = n.isInnerJoin := by
  cases n <;> rfl

theorem members_bare (n : Node) : n.bare.members = n.members.map bare := by
  induction n with
  | scan => rfl
  | unary => rfl
  | join _ j _ _ ihl ihr =>
    rw [bare, members, members]
    split
    · rw [ihl, ihr, List.map_append]
    · rfl

theorem innerEdges_bare (n : Node) : n.bare.innerEdges = n.innerEdges := by
  induction n with
  | scan => rfl
  | unary => rfl
  | join _ j _ _ ihl ihr => rw [bare, innerEdges, innerEdges, ihl, ihr]

theorem innerResiduals_bare (n : Node) : n.bare.innerResiduals = n.innerResiduals := by
  induction n with
  | scan => rfl
  | unary => rfl
  | join _ j _ _ ihl ihr => rw [bare, innerResiduals, innerResiduals, ihl, ihr]

end Node

theorem connecting_bare (edges : List Edge) (l r : Node) :
    connecting edges l.bare r.bare = connecting edges l r := by
  unfold connecting Edge.orient?
  simp only [Node.produces_bare]

theorem Expr.coveredBy_bare (e : Expr) (l r : Node) :
    e.coveredBy l.bare r.bare = e.coveredBy l r := by
  unfold coveredBy
  simp only [Node.produces_bare]

/-- The solution with blank tags. -/
def Solution.bare (s : Solution) : Solution := ⟨s.plan.bare, s.pending⟩

/-- What members and joins cost. -/
structure Pricing (ν : Type) where
  base : Node → ν
  join : Node → (left right : ν) → ν

namespace Pricing
variable {ν : Type} (p : Pricing ν) (E : List Edge)

/-- A member with its own cost. -/
def appraise (m : Node) : Tree ν := ⟨m, p.base m⟩

/-- The tree joined with a member. -/
def joined (t : Tree ν) (pending : List Expr) (m : Tree ν) : Tree ν :=
  let n := .join .blank (.attaching (connecting E t.plan m.plan) pending t.plan m.plan) t.plan m.plan
  ⟨n, p.join n t.cost m.cost⟩

/-- The candidate that joins the tree with a member. -/
def candidate (t : Tree ν) (pending : List Expr) (position : Nat) (m : Tree ν) : Candidate ν :=
  ⟨position, p.joined E t pending m, pendingAbove pending t.plan m.plan⟩

/-- The joins of the tree with each member connected with it. -/
def candidates (t : Tree ν) (pending : List Expr) : (position : Nat) → List (Tree ν) →
    List (Candidate ν)
  | _, [] => []
  | position, m :: rest =>
    if connecting E t.plan m.plan = [] then candidates t pending (position + 1) rest
    else p.candidate E t pending position m :: candidates t pending (position + 1) rest

variable [CostScale ν]

/-- Grows a tree for at most the given number of joins. -/
def grow : (joins : Nat) → Growth ν → Growth ν
  | 0, g => g
  | joins + 1, g =>
    match Search.cheapest? (p.candidates E g.tree g.pending 0 g.remaining) with
    | none => g
    | some c => grow joins (g.commit c)

/-- Grows trees until no member remains. -/
def growAll : (trees : Nat) → List (Tree ν) → List Expr → List Node × List Expr
  | trees + 1, seed :: remaining, pending =>
    let g := p.grow E remaining.length ⟨seed, remaining, pending⟩
    let others := growAll trees g.remaining g.pending
    (g.tree.plan :: others.1, others.2)
  | _, _, pending => ([], pending)

/-- Joins all members into one plan. -/
def solve (members : List Node) (residuals : List Expr) : Option Solution :=
  let grown := p.growAll E members.length (sorted (members.map p.appraise)) residuals
  (Assembly.assemble grown.1 grown.2 .initial).1.map Solution.bare

/-- All prices are below the ceiling, and the order of the conditions of a join has no price. -/
structure Lawful (p : Pricing ν) : Prop where
  base_below : ∀ n, CostScale.Below (p.base n)
  join_below : ∀ n x y, CostScale.Below x → CostScale.Below y → CostScale.Below (p.join n x y)
  join_perm : ∀ tag (es es' : List Edge) (rs rs' : List Expr) l r x y, es.Perm es' → rs.Perm rs' →
    p.join (.join tag ⟨.inner, es, rs⟩ l r) x y = p.join (.join tag ⟨.inner, es', rs'⟩ l r) x y

section Candidates
variable {p E} {t x : Tree ν} {pending : List Expr} {i : Nat} {rest : List (Tree ν)}
  {c : Candidate ν}

omit [CostScale ν]

theorem candidates_append (pre post : List (Tree ν)) (i : Nat) :
    p.candidates E t pending i (pre ++ post) =
      p.candidates E t pending i pre ++ p.candidates E t pending (i + pre.length) post := by
  induction pre generalizing i with
  | nil => rfl
  | cons m pre ih =>
    rw [List.cons_append, candidates, candidates, ih, List.length_cons, Nat.add_assoc, Nat.add_comm 1]
    split <;> rfl

theorem forall_mem_candidates {P : ν → Prop} :
    (∀ d ∈ p.candidates E t pending i rest, P d.tree.cost) ↔
      ∀ y ∈ rest, connecting E t.plan y.plan ≠ [] → P (p.joined E t pending y).cost := by
  induction rest generalizing i with
  | nil => simp [candidates]
  | cons m rest ih =>
    rw [candidates, List.forall_mem_cons]
    split
    · rename_i hc
      rw [ih]
      exact ⟨fun h => ⟨fun hn => absurd hc hn, h⟩, fun h => h.2⟩
    · rename_i hc
      rw [List.forall_mem_cons, ih]
      exact and_congr_left' ⟨fun h _ => h, fun h => h hc⟩

theorem candidates_eq_nil : p.candidates E t pending i rest = [] ↔
    ∀ y ∈ rest, connecting E t.plan y.plan = [] := by
  induction rest generalizing i with
  | nil => simp [candidates]
  | cons m rest ih =>
    rw [candidates, List.forall_mem_cons]
    split
    · rename_i hc
      rw [ih, and_iff_right hc]
    · rename_i hc
      exact iff_of_false (List.cons_ne_nil _ _) fun h => hc h.1

/-- A candidate among the others comes from a member among the others. -/
theorem split_of_candidates {pre post : List (Candidate ν)}
    (h : p.candidates E t pending i rest = pre ++ c :: post) :
    ∃ ms x ns, rest = ms ++ x :: ns ∧ connecting E t.plan x.plan ≠ [] ∧
      c = p.candidate E t pending (i + ms.length) x ∧
      pre = p.candidates E t pending i ms ∧
      post = p.candidates E t pending (i + ms.length + 1) ns := by
  induction rest generalizing i pre with
  | nil => simp [candidates] at h
  | cons m rest ih =>
    rw [candidates] at h
    split at h
    · rename_i hc
      obtain ⟨ms, x, ns, rfl, hx, hcx, hpre, hpost⟩ := ih h
      refine ⟨m :: ms, x, ns, rfl, hx, ?_, ?_, ?_⟩
      · rw [hcx, List.length_cons, Nat.add_right_comm, Nat.add_assoc]
      · rw [candidates, if_pos hc, hpre]
      · rw [hpost, List.length_cons, Nat.add_right_comm i 1, Nat.add_assoc i]
    · rename_i hc
      cases pre with
      | nil =>
        cases h
        exact ⟨[], m, rest, rfl, hc, rfl, rfl, rfl⟩
      | cons d pre =>
        rw [List.cons_append] at h
        obtain ⟨rfl, htail⟩ := List.cons.inj h
        obtain ⟨ms, x, ns, rfl, hx, hcx, hpre, hpost⟩ := ih htail
        refine ⟨m :: ms, x, ns, rfl, hx, ?_, ?_, ?_⟩
        · rw [hcx, List.length_cons, Nat.add_right_comm, Nat.add_assoc]
        · rw [candidates, if_neg hc, hpre]
        · rw [hpost, List.length_cons, Nat.add_right_comm i 1, Nat.add_assoc i]

theorem commit_candidate (ms ns : List (Tree ν)) :
    (⟨t, ms ++ x :: ns, pending⟩ : Growth ν).commit (p.candidate E t pending ms.length x) =
      ⟨p.joined E t pending x, ms ++ ns, pendingAbove pending t.plan x.plan⟩ := by
  unfold Growth.commit candidate
  simp [List.eraseIdx_append_of_length_le]

end Candidates

end Pricing

end JoinOrder
