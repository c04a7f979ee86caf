import Mathlib.Data.List.Forall2
import JoinOrder.Reorder
import JoinOrder.Proofs.Forest

/-!
# Invariants of reordering

What reordering does to a plan is a matter of five cases, the fields of `Reorder.Invariant`: a
node stays as it is, an operator that is no inner join gets rewritten inputs, a group that is not
admitted gets rewritten members, and an admitted group is joined anew. A relation between plans that
has these closure properties holds between a plan and what becomes of it (`Invariant.rewrite`).

An invariant may rely on every search of the run being smooth. `full` says whether it does.
-/

namespace JoinOrder

/-- The plan `q` is the tree of inner joins `n` over members that are related to its own. -/
inductive Regrouped (R : Node → Node → Prop) : Node → Node → Prop
  | member {n q : Node} (hn : n.isInnerJoin = false) (hR : R n q) : Regrouped R n q
  | join {tag tag' : Tag} {j : Join} {l l' r r' : Node} (hj : j.isInner = true)
      (hl : Regrouped R l l') (hr : Regrouped R r r') :
      Regrouped R (.join tag j l r) (.join tag' j l' r')

theorem regrouped_refl {R : Node → Node → Prop} (hR : ∀ n, R n n) (n : Node) : Regrouped R n n := by
  induction n with
  | scan => exact .member rfl (hR _)
  | unary => exact .member rfl (hR _)
  | join tag j l r ihl ihr =>
    cases hj : j.isInner with
    | true => exact .join hj ihl ihr
    | false => exact .member hj (hR _)

theorem exists_of_forall₂_append {α β : Type} {R : α → β → Prop} {as bs : List α} {cs : List β}
    (h : List.Forall₂ R (as ++ bs) cs) :
    ∃ cs₁ cs₂, cs = cs₁ ++ cs₂ ∧ List.Forall₂ R as cs₁ ∧ List.Forall₂ R bs cs₂ := by
  induction as generalizing cs with
  | nil => exact ⟨[], cs, rfl, .nil, h⟩
  | cons a as ih =>
    cases h with
    | cons ha h =>
      obtain ⟨cs₁, cs₂, rfl, h₁, h₂⟩ := ih h
      exact ⟨_ :: cs₁, cs₂, rfl, .cons ha h₁, h₂⟩

/-- The plan `q` is the solution `s` for the group of `n`, with a filter for what it leaves pending
and a projection to the columns of `n`, where they are called for. -/
def Dresses (config : Config) (n : Node) (s : Solution) (q : Node) : Prop :=
  ∃ filtered : Node,
    (if s.pending = [] then filtered = s.plan
      else ∃ tag, filtered = .unary tag (.filter s.pending) s.plan) ∧
    if config.restoreColumnOrder = true ∧ filtered.schema ≠ n.schema then
      (∀ c ∈ n.schema.columns, filtered.produces c = true) ∧
        ∃ tag, q = .unary tag (.project n.schema.columns) filtered
    else q = filtered

namespace Reorder
variable {ν σ : Type} [CostScale ν]

/-- The search for an order of the group of `n`, if there is one, is smooth. -/
def SettlesSmoothly (context : Context ν σ) (n : Node) (members : List Node) (a : Session ν σ) :
    Prop :=
  n.isInnerJoin = true → context.config.admits members.length = true →
    Search.Smooth ⟨context.estimator, context.model, (JoinGroup.ofPlan n).edges⟩ members
      (JoinGroup.ofPlan n).residuals a

/-- All searches below the group of a plan are smooth. -/
def SmoothBelow (context : Context ν σ) : Node → Session ν σ → Prop
  | .scan _ _, _ => True
  | .unary _ _ input, a => SmoothBelow context input a ∧
    ∀ ms b, rewriteMembers context input a = .ok ms b → SettlesSmoothly context input ms b
  | .join _ j left right, a => SmoothBelow context left a ∧
    ∀ ms b, rewriteMembers context left a = .ok ms b →
      if j.isInner then SmoothBelow context right b
      else SettlesSmoothly context left ms b ∧ ∀ l d, settle context left ms b = .ok l d →
        SmoothBelow context right d ∧ ∀ ns e, rewriteMembers context right d = .ok ns e →
          SettlesSmoothly context right ns e

/-- All searches for the groups of a plan are smooth. -/
def Smooth (context : Context ν σ) (n : Node) (a : Session ν σ) : Prop :=
  SmoothBelow context n a ∧
    ∀ ms b, rewriteMembers context n a = .ok ms b → SettlesSmoothly context n ms b

/-- A relation that holds between a plan and what reordering makes of it. -/
structure Invariant (context : Context ν σ) (full : Prop) (P : Node → Node → Prop) : Prop where
  refl (n : Node) : P n n
  unary {i i' : Node} (tag tag' : Tag) (op : UnaryOp) (h : P i i') :
    P (.unary tag op i) (.unary tag' op i')
  outer {j : Join} {l l' r r' : Node} (tag tag' : Tag) (hj : j.isInner = false) (hl : P l l')
    (hr : P r r') : P (.join tag j l r) (.join tag' j l' r')
  kept {n q : Node} (hn : n.isInnerJoin = true)
    (ha : context.config.admits n.members.length = false) (h : Regrouped P n q) : P n q
  joined {n q : Node} {ms : List Node} {a b : Session ν σ} {s : Solution}
    (hn : n.isInnerJoin = true) (ha : context.config.admits n.members.length = true)
    (hms : List.Forall₂ P n.members ms)
    (hs : Search.solve ⟨context.estimator, context.model, (JoinGroup.ofPlan n).edges⟩ ms
      (JoinGroup.ofPlan n).residuals a = .ok (some s) b)
    (hsmooth : full → Search.Smooth ⟨context.estimator, context.model, (JoinGroup.ofPlan n).edges⟩
      ms (JoinGroup.ofPlan n).residuals a)
    (hq : Dresses context.config n s q) : P n q

section Building
variable {a b : Supply} {q : Node}

theorem ofOperator_of_node {op : Operator} {inputs : List Node}
    (h : Building.node op inputs a = .ok q b) : ∃ tag, Node.ofOperator tag op inputs = .ok q := by
  unfold Building.node at h
  obtain ⟨tag, u, -, h⟩ := Action.bind_eq_ok.1 h
  exact ⟨tag, (Action.ofExcept_eq_ok.1 h).1⟩

theorem of_node_unary {op : UnaryOp} {input : Node}
    (h : Building.node (.unary op) [input] a = .ok q b) :
    op.missing? input.produces = none ∧ ∃ tag, q = .unary tag op input := by
  obtain ⟨tag, h⟩ := ofOperator_of_node h
  cases hm : op.missing? input.produces with
  | some c =>
    simp only [Node.ofOperator, hm] at h
    cases h
  | none =>
    simp only [Node.ofOperator, hm] at h
    cases h
    exact ⟨rfl, tag, rfl⟩

theorem of_withInputs_unary {tag : Tag} {op : UnaryOp} {input i : Node}
    (h : withInputs (.unary tag op input) [i] a = .ok q b) :
    q = .unary tag op input ∨ ∃ tag', q = .unary tag' op i := by
  unfold withInputs at h
  split at h
  · exact .inl (Action.pure_eq_ok.1 h).1.symm
  · exact .inr (of_node_unary h).2

theorem of_withInputs_join {tag : Tag} {j : Join} {left right l r : Node}
    (h : withInputs (.join tag j left right) [l, r] a = .ok q b) :
    q = .join tag j left right ∨ ∃ tag', q = .join tag' j l r := by
  unfold withInputs at h
  split at h
  · exact .inl (Action.pure_eq_ok.1 h).1.symm
  · obtain ⟨tag', h⟩ := ofOperator_of_node h
    cases h
    exact .inr ⟨tag', rfl⟩

theorem of_withMembers {R : Node → Node → Prop} (hR : ∀ n, R n n) {n : Node} {ms new rest : List Node}
    (hms : List.Forall₂ R n.members ms) (h : withMembers n (ms ++ new) a = .ok (q, rest) b) :
    rest = new ∧ Regrouped R n q := by
  induction n generalizing ms new rest q a b with
  | scan tag s =>
    obtain ⟨h, -⟩ := Action.pure_eq_ok.1 h
    cases hms with
    | cons hR hms =>
      cases hms
      cases h
      exact ⟨rfl, .member rfl hR⟩
  | unary tag op input =>
    obtain ⟨h, -⟩ := Action.pure_eq_ok.1 h
    cases hms with
    | cons hR hms =>
      cases hms
      cases h
      exact ⟨rfl, .member rfl hR⟩
  | join tag j left right ihl ihr =>
    rw [Node.members] at hms
    unfold withMembers at h
    cases hj : j.isInner with
    | true =>
      rw [hj] at hms h
      obtain ⟨ls, rs, rfl, hls, hrs⟩ := exists_of_forall₂_append hms
      obtain ⟨⟨l, new₁⟩, u, hl, h⟩ := Action.bind_eq_ok.1 h
      obtain ⟨⟨r, new₂⟩, v, hr, h⟩ := Action.bind_eq_ok.1 h
      obtain ⟨q', w, hq, h⟩ := Action.bind_eq_ok.1 h
      obtain ⟨h, -⟩ := Action.pure_eq_ok.1 h
      cases h
      rw [List.append_assoc] at hl
      obtain ⟨rfl, hl'⟩ := ihl hls hl
      obtain ⟨rfl, hr'⟩ := ihr hrs hr
      refine ⟨rfl, ?_⟩
      rcases of_withInputs_join hq with rfl | ⟨tag', rfl⟩
      · exact regrouped_refl hR _
      · exact .join hj hl' hr'
    | false =>
      rw [hj] at hms h
      obtain ⟨h, -⟩ := Action.pure_eq_ok.1 h
      cases hms with
      | cons hR hms =>
        cases hms
        cases h
        exact ⟨rfl, .member hj hR⟩

theorem of_filterBy {conditions : List Expr} {n : Node}
    (h : filterBy conditions n a = .ok q b) :
    if conditions = [] then q = n else ∃ tag, q = .unary tag (.filter conditions) n := by
  unfold filterBy at h
  cases conditions with
  | nil => exact (Action.pure_eq_ok.1 h).1.symm
  | cons => exact (of_node_unary h).2

theorem of_arrange {schema : Schema} {n : Node} (h : arrange schema n a = .ok q b) :
    if n.schema = schema then q = n
    else (∀ c ∈ schema.columns, n.produces c = true) ∧
      ∃ tag, q = .unary tag (.project schema.columns) n := by
  unfold arrange at h
  split at h
  · rename_i hs
    rw [if_pos hs]
    exact (Action.pure_eq_ok.1 h).1.symm
  · rename_i hs
    rw [if_neg hs]
    obtain ⟨hm, hq⟩ := of_node_unary h
    exact ⟨fun c hc => by simpa using List.find?_eq_none.1 hm c hc, hq⟩

end Building

theorem members_ne_nil (n : Node) : n.members ≠ [] := by
  induction n with
  | scan => simp [Node.members]
  | unary => simp [Node.members]
  | join tag j l r ihl ihr =>
    rw [Node.members]
    split
    · simp [ihl]
    · simp

theorem ne_nil_of_members {R : Node → Node → Prop} {n : Node} {ms : List Node}
    (h : List.Forall₂ R n.members ms) : ms ≠ [] := fun hnil => by
  rw [hnil] at h
  exact members_ne_nil n (List.forall₂_nil_right_iff.1 h)

theorem settle_of_not_inner {context : Context ν σ} {n m : Node} (hn : n.isInnerJoin = false) :
    settle context n [m] = return m := by
  unfold settle
  rw [if_neg (by simp [hn])]
  rfl

theorem rewriteMembers_unary (context : Context ν σ) (tag : Tag) (op : UnaryOp) (i : Node) :
    rewriteMembers context (.unary tag op i) = rewrite context i >>= fun q => do
      return [← Planning.build (withInputs (.unary tag op i) [q])] := (bind_assoc ..).symm

theorem rewriteMembers_outer (context : Context ν σ) {tag : Tag} {j : Join} {l r : Node}
    (hj : j.isInner = false) :
    rewriteMembers context (.join tag j l r) = rewrite context l >>= fun p =>
      rewrite context r >>= fun q => do
        return [← Planning.build (withInputs (.join tag j l r) [p, q])] := by
  rw [rewriteMembers, if_neg (by simp [hj])]
  unfold rewrite
  simp only [bind_assoc]

theorem of_settle_admitted {context : Context ν σ} {n q : Node} {ms : List Node} {a b : Session ν σ}
    (hn : n.isInnerJoin = true) (ha : context.config.admits ms.length = true) (hne : ms ≠ [])
    (hq : settle context n ms a = .ok q b) :
    ∃ s u, Search.solve ⟨context.estimator, context.model, (JoinGroup.ofPlan n).edges⟩ ms
      (JoinGroup.ofPlan n).residuals a = .ok (some s) u ∧ Dresses context.config n s q := by
  unfold settle settleGroup at hq
  rw [if_pos hn, if_pos ha] at hq
  obtain ⟨found, u, hs, hq⟩ := Action.bind_eq_ok.1 hq
  obtain ⟨-, t, left, rfl, -⟩ := Search.forest_of_solve hne hs
  unfold Planning.build at hq
  obtain ⟨v, hq, -⟩ := Action.onPart_eq_ok.1 hq
  obtain ⟨filtered, w, hf, hq⟩ := Action.bind_eq_ok.1 hq
  refine ⟨_, u, hs, filtered, of_filterBy hf, ?_⟩
  cases hr : context.config.restoreColumnOrder with
  | false =>
    rw [hr] at hq
    simpa using (Action.pure_eq_ok.1 hq).1.symm
  | true =>
    rw [hr] at hq
    have hq := of_arrange hq
    by_cases hsch : filtered.schema = n.schema
    · simpa [hsch] using hq
    · simpa [hsch] using hq

namespace Invariant
variable {context : Context ν σ} {full : Prop} {P : Node → Node → Prop}
  (h : Invariant context full P) {a b : Session ν σ} {n q : Node} {ms : List Node}
include h

theorem settle (hms : List.Forall₂ P n.members ms)
    (hsmooth : full → SettlesSmoothly context n ms a) (hq : settle context n ms a = .ok q b) :
    P n q := by
  cases hn : n.isInnerJoin with
  | false =>
    rw [Node.members_of_not_inner hn] at hms
    cases hms with
    | cons hP hms =>
      cases hms
      rw [settle_of_not_inner hn] at hq
      obtain ⟨rfl, -⟩ := Action.pure_eq_ok.1 hq
      exact hP
  | true =>
    cases ha : context.config.admits ms.length with
    | true =>
      obtain ⟨s, u, hs, hd⟩ := of_settle_admitted hn ha (ne_nil_of_members hms) hq
      exact h.joined hn (by rwa [hms.length_eq]) hms hs (fun hf => hsmooth hf hn ha) hd
    | false =>
      unfold Reorder.settle settleGroup at hq
      rw [if_pos hn, if_neg (by rw [ha]; exact Bool.false_ne_true)] at hq
      obtain ⟨⟨q', rest⟩, u, hw, hq⟩ := Action.bind_eq_ok.1 hq
      obtain ⟨rfl, -⟩ := Action.pure_eq_ok.1 hq
      unfold Planning.build at hw
      obtain ⟨v, hw, -⟩ := Action.onPart_eq_ok.1 hw
      rw [← List.append_nil ms] at hw
      exact h.kept hn (by rwa [hms.length_eq]) (of_withMembers h.refl hms hw).2

theorem rewriteMembers (hsmooth : full → SmoothBelow context n a)
    (hms : rewriteMembers context n a = .ok ms b) : List.Forall₂ P n.members ms := by
  induction n generalizing a b ms with
  | scan tag s =>
    obtain ⟨rfl, -⟩ := Action.pure_eq_ok.1 hms
    exact .cons (h.refl _) .nil
  | unary tag op input ih =>
    unfold Reorder.rewriteMembers at hms
    obtain ⟨is, u, his, hms⟩ := Action.bind_eq_ok.1 hms
    obtain ⟨i, v, hi, hms⟩ := Action.bind_eq_ok.1 hms
    obtain ⟨q, w, hq, hms⟩ := Action.bind_eq_ok.1 hms
    obtain ⟨rfl, -⟩ := Action.pure_eq_ok.1 hms
    have hP := h.settle (ih (fun hf => (hsmooth hf).1) his) (fun hf => (hsmooth hf).2 _ _ his) hi
    unfold Planning.build at hq
    obtain ⟨x, hq, -⟩ := Action.onPart_eq_ok.1 hq
    refine .cons ?_ .nil
    rcases of_withInputs_unary hq with rfl | ⟨tag', rfl⟩
    · exact h.refl _
    · exact h.unary _ _ _ hP
  | join tag j l r ihl ihr =>
    unfold Reorder.rewriteMembers at hms
    rw [Node.members]
    cases hj : j.isInner with
    | true =>
      rw [hj] at hms
      simp only [if_true] at hms
      obtain ⟨ls, u, hls, hms⟩ := Action.bind_eq_ok.1 hms
      obtain ⟨rs, v, hrs, hms⟩ := Action.bind_eq_ok.1 hms
      obtain ⟨rfl, -⟩ := Action.pure_eq_ok.1 hms
      have hsr : full → SmoothBelow context r u := fun hf => by
        have := (hsmooth hf).2 _ _ hls
        rwa [hj, if_pos rfl] at this
      exact List.rel_append (ihl (fun hf => (hsmooth hf).1) hls) (ihr hsr hrs)
    | false =>
      rw [hj] at hms
      simp only [Bool.false_eq_true, if_false] at hms ⊢
      obtain ⟨ls, u, hls, hms⟩ := Action.bind_eq_ok.1 hms
      obtain ⟨l', v, hl, hms⟩ := Action.bind_eq_ok.1 hms
      obtain ⟨rs, w, hrs, hms⟩ := Action.bind_eq_ok.1 hms
      obtain ⟨r', x, hr, hms⟩ := Action.bind_eq_ok.1 hms
      obtain ⟨q, y, hq, hms⟩ := Action.bind_eq_ok.1 hms
      obtain ⟨rfl, -⟩ := Action.pure_eq_ok.1 hms
      have hrest := fun hf => by
        have := (hsmooth hf).2 _ _ hls
        rwa [hj, if_neg Bool.false_ne_true] at this
      have hPl := h.settle (ihl (fun hf => (hsmooth hf).1) hls) (fun hf => (hrest hf).1) hl
      have hPr := h.settle (ihr (fun hf => ((hrest hf).2 _ _ hl).1) hrs)
        (fun hf => ((hrest hf).2 _ _ hl).2 _ _ hrs) hr
      unfold Planning.build at hq
      obtain ⟨z, hq, -⟩ := Action.onPart_eq_ok.1 hq
      refine .cons ?_ .nil
      rcases of_withInputs_join hq with rfl | ⟨tag', rfl⟩
      · exact h.refl _
      · exact h.outer _ _ hj hPl hPr

/-- An invariant holds between a plan and what reordering makes of it. -/
theorem rewrite (hsmooth : full → Smooth context n a) (hq : rewrite context n a = .ok q b) :
    P n q := by
  obtain ⟨ms, u, hms, hq⟩ := Action.bind_eq_ok.1 hq
  exact h.settle (h.rewriteMembers (fun hf => (hsmooth hf).1) hms)
    (fun hf => (hsmooth hf).2 _ _ hms) hq

end Invariant

end Reorder

end JoinOrder
