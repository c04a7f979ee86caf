import JoinOrder.Proofs.Groups
import JoinOrder.Proofs.Semantics

/-!
# Plans without some equalities

A search that stalls drops edges. What it makes of a plan then means what another plan means, which
lacks these equalities: `Thinned` says so of a whole plan, and `Trimmed` of a single group.
-/

namespace JoinOrder

/-- The second plan is the first one without some equalities of its inner joins. -/
inductive Thinned : Node → Node → Prop
  | refl (n : Node) : Thinned n n
  | unary {i i' : Node} (tag : Tag) (op : UnaryOp) (h : Thinned i i') :
      Thinned (.unary tag op i) (.unary tag op i')
  | outer {j : Join} {l l' r r' : Node} (tag : Tag) (hl : Thinned l l') (hr : Thinned r r') :
      Thinned (.join tag j l r) (.join tag j l' r')
  | inner {es es' : List Edge} {rs : List Expr} {l l' r r' : Node} (tag : Tag)
      (hs : es'.Sublist es) (hl : Thinned l l') (hr : Thinned r r') :
      Thinned (.join tag ⟨.inner, es, rs⟩ l r) (.join tag ⟨.inner, es', rs⟩ l' r')

theorem Thinned.stands {n q : Node} (h : Thinned n q) : q.StandsFor n := by
  induction h with
  | refl n => exact .refl n
  | unary tag op _ ih => exact ih.unary tag tag op
  | outer tag _ _ ihl ihr => exact ihl.join ihr tag tag _
  | inner tag _ _ _ ihl ihr =>
    refine ⟨fun c => ?_, fun h => h⟩
    rw [Node.produces_join, Node.produces_join, ihl.produces c, ihr.produces c]

theorem Join.eq_inner {j : Join} (h : j.isInner = true) : j = ⟨.inner, j.edges, j.residuals⟩ := by
  have hk : j.kind = .inner := of_decide_eq_true h
  rw [← hk]

/-- The second plan is the tree of inner joins of the first one with those of its equalities that
are kept, over members that are related to its own. -/
inductive Trimmed (keep : Edge → Bool) (R : Node → Node → Prop) : Node → Node → Prop
  | member {n q : Node} (hn : n.isInnerJoin = false) (hR : R n q) : Trimmed keep R n q
  | join {tag : Tag} {es : List Edge} {rs : List Expr} {l l' r r' : Node}
      (hl : Trimmed keep R l l') (hr : Trimmed keep R r r') :
      Trimmed keep R (.join tag ⟨.inner, es, rs⟩ l r) (.join tag ⟨.inner, es.filter keep, rs⟩ l' r')

theorem exists_between_of_forall₂ {α β γ : Type} {R : α → β → Prop} {S : β → γ → Prop}
    {as : List α} {cs : List γ} (h : List.Forall₂ (fun a c => ∃ b, R a b ∧ S b c) as cs) :
    ∃ bs, List.Forall₂ R as bs ∧ List.Forall₂ S bs cs := by
  induction h with
  | nil => exact ⟨[], .nil, .nil⟩
  | cons hac _ ih =>
    obtain ⟨b, hR, hS⟩ := hac
    obtain ⟨bs, hRs, hSs⟩ := ih
    exact ⟨b :: bs, .cons hR hRs, .cons hS hSs⟩

namespace Trimmed
variable {keep : Edge → Bool} {R : Node → Node → Prop} {n q : Node}

section Members
variable (hR : ∀ m q, R m q → m.isInnerJoin = false → q.isInnerJoin = false)
include hR

/-- Every choice of related members gives a trimmed tree. -/
theorem exists_of_members (keep : Edge → Bool) {ms : List Node}
    (h : List.Forall₂ R n.members ms) : ∃ q, Trimmed keep R n q ∧ q.members = ms := by
  have leaf : ∀ {n ms}, n.isInnerJoin = false → List.Forall₂ R n.members ms →
      ∃ q, Trimmed keep R n q ∧ q.members = ms := by
    intro n ms hn h
    rw [Node.members_of_not_inner hn] at h
    cases h with
    | cons hq hnil =>
      cases hnil
      exact ⟨_, .member hn hq, Node.members_of_not_inner (hR _ _ hq hn)⟩
  induction n generalizing ms with
  | scan => exact leaf rfl h
  | unary => exact leaf rfl h
  | join tag j l r ihl ihr =>
    cases hj : j.isInner with
    | false => exact leaf hj h
    | true =>
      rw [Node.members, if_pos hj] at h
      obtain ⟨ls, rs, rfl, hl, hr⟩ := exists_of_forall₂_append h
      obtain ⟨l', hl', rfl⟩ := ihl hl
      obtain ⟨r', hr', rfl⟩ := ihr hr
      rw [Join.eq_inner hj]
      exact ⟨_, .join hl' hr', rfl⟩

theorem innerEdges (h : Trimmed keep R n q) : q.innerEdges = n.innerEdges.filter keep := by
  induction h with
  | member hn hq =>
    rw [Node.innerEdges_of_not_inner hn, Node.innerEdges_of_not_inner (hR _ _ hq hn)]
    rfl
  | join _ _ ihl ihr =>
    rw [Node.innerEdges, Node.innerEdges, Join.isInner_inner, Join.isInner_inner, if_pos rfl,
      if_pos rfl, ihl, ihr, List.filter_append, List.filter_append]

theorem innerResiduals (h : Trimmed keep R n q) : q.innerResiduals = n.innerResiduals := by
  induction h with
  | member hn hq =>
    rw [Node.innerResiduals_of_not_inner hn, Node.innerResiduals_of_not_inner (hR _ _ hq hn)]
  | join _ _ ihl ihr =>
    rw [Node.innerResiduals, Node.innerResiduals, Join.isInner_inner, Join.isInner_inner, if_pos rfl,
      if_pos rfl, ihl, ihr]

end Members

theorem isInnerJoin (h : Trimmed keep R n q) (hn : n.isInnerJoin = true) :
    q.isInnerJoin = true := by
  cases h with
  | member hn' => rw [hn'] at hn; cases hn
  | join => rfl

theorem sameColumns (h : Trimmed keep R n q) (hR : ∀ m q, R m q → m.SameColumns q) :
    n.SameColumns q := by
  induction h with
  | member _ hq => exact hR _ _ hq
  | join _ _ ihl ihr =>
    intro c
    rw [Node.produces_join, Node.produces_join, ihl c, ihr c]

theorem localIn {known : Column → Bool} (h : Trimmed keep R n q)
    (hR : ∀ m q, R m q → q.StandsFor m) (hl : n.LocalIn known) : q.LocalIn known := by
  induction h with
  | member hn hq => exact Node.localIn_of_not_inner ((hR _ _ hq).inner hn)
  | @join tag es rs l l' r r' hll hrr ihl ihr =>
    rw [Node.LocalIn, Join.isInner_inner, if_pos rfl] at hl ⊢
    refine ⟨ihl hl.1, ihr hl.2.1, fun e he c hc hk => ?_⟩
    have hsub : (es.filter keep).map Edge.toExpr ++ rs ⊆ es.map Edge.toExpr ++ rs :=
      ((List.filter_sublist.map _).append_right rs).subset
    rw [← hll.sameColumns (fun _ _ h => (hR _ _ h).produces) c,
      ← hrr.sameColumns (fun _ _ h => (hR _ _ h).produces) c]
    exact hl.2.2 e (hsub he) c hc hk

theorem thinned (h : Trimmed keep R n q) (hR : ∀ m q, R m q → Thinned m q) : Thinned n q := by
  induction h with
  | member _ hq => exact hR _ _ hq
  | join _ _ ihl ihr => exact .inner _ List.filter_sublist ihl ihr

theorem eq_of_keep (h : Trimmed keep R n q) (hR : ∀ m q, R m q → q = m)
    (hk : ∀ e ∈ n.innerEdges, keep e = true) : q = n := by
  induction h with
  | member _ hq => exact hR _ _ hq
  | join _ _ ihl ihr =>
    rw [Node.innerEdges, Join.isInner_inner, if_pos rfl] at hk
    simp only [List.forall_mem_append] at hk
    rw [ihl hk.1.1, ihr hk.1.2, List.filter_eq_self.2 hk.2]

end Trimmed

end JoinOrder
