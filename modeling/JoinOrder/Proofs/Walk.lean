import JoinOrder.Proofs.Groups
import JoinOrder.Proofs.Heap
import JoinOrder.Proofs.PricedRewriting

/-!
# The walk of a rewriting

To rewrite a node is to rewrite its *parts* from left to right and to finish the node with what they
have become (`Reorder.rewrite_eq`). The parts of an inner join are the members of its group, those
of any other node are its inputs. `Node.Walks` says which nodes are reached in this way, the groups
of a plan among them, and `Reorder.Calls` in which session each of them is rewritten.
-/

namespace JoinOrder

namespace Node

/-- The plans that have to be rewritten before a node is. -/
def parts (n : Node) : List Node := if n.isInnerJoin then n.members else n.inputs

/-- To rewrite `n` is to rewrite `m`, among others: `m` is `n` itself or is reached from a part. -/
inductive Walks : Node → Node → Prop
  | self (n : Node) : n.Walks n
  | part {n k m : Node} (hk : k ∈ n.parts) (h : k.Walks m) : n.Walks m

variable {k m n : Node}

theorem parts_of_inner (h : n.isInnerJoin = true) : n.parts = n.members := if_pos h

theorem parts_of_not_inner (h : n.isInnerJoin = false) : n.parts = n.inputs :=
  if_neg (Bool.eq_false_iff.1 h)

theorem parts_outer {tag : Tag} {j : Join} {l r : Node} (hj : j.isInner = false) :
    (join tag j l r).parts = [l, r] := parts_of_not_inner hj

/-- Induction from the parts of a node to the node. -/
theorem walk_induction {P : Node → Prop} (step : ∀ n, (∀ m ∈ n.parts, P m) → P n) (n : Node) :
    P n := by
  refine group_induction (fun tag s => ?_) (fun tag op i hi => ?_) (fun tag j l r hj hl hr => ?_)
    (fun n hn hm => step n ?_) n
  · exact step _ fun m hm => nomatch hm
  · exact step _ (List.forall_mem_singleton.2 hi)
  · refine step _ ?_
    rw [parts_outer hj]
    exact List.forall_mem_cons.2 ⟨hl, List.forall_mem_singleton.2 hr⟩
  · rwa [parts_of_inner hn]

theorem mem_preorder_of_member (h : m ∈ n.members) : m ∈ n.preorder := by
  induction n with
  | scan => exact h
  | unary =>
    rw [List.mem_singleton.1 h]
    exact mem_preorder_self _
  | join tag j l r ihl ihr =>
    rw [members] at h
    split at h
    · exact List.mem_cons_of_mem _ (List.mem_append.2 ((List.mem_append.1 h).imp ihl ihr))
    · rw [List.mem_singleton.1 h]
      exact mem_preorder_self _

theorem mem_preorder_of_part (h : m ∈ n.parts) : m ∈ n.preorder := by
  unfold parts at h
  split at h
  · exact mem_preorder_of_member h
  · exact mem_preorder_of_input h m.mem_preorder_self

namespace Walks

theorem trans (h : n.Walks m) (h' : m.Walks k) : n.Walks k := by
  induction h with
  | self => exact h'
  | part hk _ ih => exact .part hk (ih h')

theorem of_part (h : m ∈ n.parts) : n.Walks m := .part h (.self m)

theorem mem_preorder (h : n.Walks m) : m ∈ n.preorder := by
  induction h with
  | self n => exact n.mem_preorder_self
  | part hk _ ih => exact mem_preorder_trans ih (mem_preorder_of_part hk)

end Walks

theorem walks_iff : n.Walks m ↔ m = n ∨ ∃ k ∈ n.parts, k.Walks m := by
  constructor
  · rintro (_ | ⟨hk, h⟩)
    · exact .inl rfl
    · exact .inr ⟨_, hk, h⟩
  · rintro (rfl | ⟨k, hk, h⟩)
    · exact .self _
    · exact .part hk h

theorem mem_groups_iff_parts {g : Node} : g ∈ n.groups ↔
    (n.isInnerJoin = true ∧ g = n) ∨ ∃ k ∈ n.parts, g ∈ k.groups := by
  cases hn : n.isInnerJoin with
  | true => rw [mem_groups_iff, parts_of_inner hn, hn]
  | false =>
    have hparts : g ∈ n.groups ↔ ∃ k ∈ n.inputs, g ∈ k.groups := by
      cases n with
      | scan => simp [groups, rootGroup, groupsBelow, inputs, isInnerJoin]
      | unary tag op i => simp [groups_unary, inputs]
      | join tag j l r =>
        have hj : j.isInner = false := hn
        simp [groups_outer hj, inputs]
    rw [parts_of_not_inner hn, hparts]
    simp

/-- The groups of a plan are the inner joins on the walk. -/
theorem mem_groups_iff_walks {g : Node} : g ∈ n.groups ↔ n.Walks g ∧ g.isInnerJoin = true := by
  induction n using walk_induction with
  | step n ih =>
    rw [mem_groups_iff_parts, walks_iff]
    constructor
    · rintro (⟨hn, rfl⟩ | ⟨k, hk, hg⟩)
      · exact ⟨.inl rfl, hn⟩
      · obtain ⟨hw, hinner⟩ := (ih k hk).1 hg
        exact ⟨.inr ⟨k, hk, hw⟩, hinner⟩
    · rintro ⟨rfl | ⟨k, hk, hw⟩, hinner⟩
      · exact .inl ⟨hinner, rfl⟩
      · exact .inr ⟨k, hk, (ih k hk).2 ⟨hw, hinner⟩⟩

end Node

namespace Reorder
variable {ν σ : Type} [CostScale ν] (context : Context ν σ)

/-- The node over its parts, which have been rewritten. -/
def finish (n : Node) (parts : List Node) : Planning ν σ Node :=
  if n.isInnerJoin then settleGroup context n parts else Planning.build (withInputs n parts)

section Equations
variable {n : Node}

theorem rewrite_of_not_inner (hn : n.isInnerJoin = false) {x : Planning ν σ Node}
    (hx : rewriteMembers context n = x >>= fun q => return [q]) : rewrite context n = x := by
  rw [rewrite, hx, bind_assoc]
  simp only [pure_bind, settle_of_not_inner hn]
  exact bind_pure x

theorem rewrite_scan (tag : Tag) (s : TableScan) :
    rewrite context (.scan tag s) = return .scan tag s :=
  rewrite_of_not_inner context rfl (pure_bind ..).symm

theorem rewrite_unary (tag : Tag) (op : UnaryOp) (i : Node) :
    rewrite context (.unary tag op i) = rewrite context i >>= fun q =>
      Planning.build (withInputs (.unary tag op i) [q]) := by
  refine rewrite_of_not_inner context rfl ?_
  rw [rewriteMembers_unary, bind_assoc]

theorem rewrite_outer {tag : Tag} {j : Join} {l r : Node} (hj : j.isInner = false) :
    rewrite context (.join tag j l r) = rewrite context l >>= fun p =>
      rewrite context r >>= fun q => Planning.build (withInputs (.join tag j l r) [p, q]) := by
  have hn : (Node.join tag j l r).isInnerJoin = false := hj
  refine rewrite_of_not_inner context hn ?_
  rw [rewriteMembers_outer context hj]
  simp only [bind_assoc]

theorem rewriteMembers_of_not_inner (hn : n.isInnerJoin = false) :
    rewriteMembers context n = rewrite context n >>= fun q => return [q] := by
  cases n with
  | scan tag s =>
    rw [rewrite_scan, pure_bind]
    rfl
  | unary tag op i => rw [rewrite_unary, rewriteMembers_unary, bind_assoc]
  | join tag j l r =>
    have hj : j.isInner = false := hn
    rw [rewrite_outer context hj, rewriteMembers_outer context hj]
    simp only [bind_assoc]

/-- The members of a group are rewritten one by one. -/
theorem rewriteMembers_eq (n : Node) :
    rewriteMembers context n = n.members.mapM (rewrite context) := by
  have alone {n : Node} (hn : n.isInnerJoin = false) :
      rewriteMembers context n = n.members.mapM (rewrite context) := by
    rw [rewriteMembers_of_not_inner context hn, Node.members_of_not_inner hn, List.mapM_cons,
      List.mapM_nil]
    simp only [pure_bind]
  induction n with
  | scan => exact alone rfl
  | unary => exact alone rfl
  | join tag j l r ihl ihr =>
    cases hj : j.isInner with
    | false => exact alone hj
    | true =>
      rw [rewriteMembers, Node.members, if_pos hj, if_pos hj, ihl, ihr, List.mapM_append]

/-- A node is rewritten by rewriting its parts and finishing it. -/
theorem rewrite_eq (n : Node) :
    rewrite context n = n.parts.mapM (rewrite context) >>= finish context n := by
  cases hn : n.isInnerJoin with
  | true =>
    rw [rewrite, rewriteMembers_eq, Node.parts_of_inner hn]
    refine congrArg _ (funext fun ms => ?_)
    rw [settle, finish, if_pos hn, if_pos hn]
  | false =>
    have hfinish : finish context n = fun ps => Planning.build (withInputs n ps) :=
      funext fun ps => if_neg (by simp [hn])
    rw [Node.parts_of_not_inner hn, hfinish]
    cases n with
    | scan tag s => rfl
    | unary tag op i =>
      rw [rewrite_unary, Node.inputs, List.mapM_cons, List.mapM_nil]
      simp only [pure_bind, bind_assoc]
    | join tag j l r =>
      have hj : j.isInner = false := hn
      rw [rewrite_outer context hj, Node.inputs, List.mapM_cons, List.mapM_cons, List.mapM_nil]
      simp only [pure_bind, bind_assoc]

end Equations

section Calls
variable {context} {p n m q : Node} {a b c : Session ν σ}

/-- To rewrite `p` from the session `a`, the walk rewrites `n` from the session `b`. -/
inductive Calls (context : Context ν σ) (p : Node) (a : Session ν σ) : Node → Session ν σ → Prop
  | self : Calls context p a p a
  | part {n k : Node} {pre post qs : List Node} {b c : Session ν σ} (h : Calls context p a n b)
      (hparts : n.parts = pre ++ k :: post) (hpre : pre.mapM (rewrite context) b = .ok qs c) :
      Calls context p a k c

theorem Calls.walks (h : Calls context p a n b) : p.Walks n := by
  induction h with
  | self => exact .self p
  | part _ hparts _ ih =>
    refine ih.trans (.of_part ?_)
    rw [hparts]
    exact List.mem_append_right _ (List.mem_cons_self ..)

/-- If rewriting a plan succeeds, every node on its walk is rewritten with success. -/
theorem exists_calls (hw : n.Walks m) (h : Calls context p a n b)
    (hq : rewrite context n b = .ok q c) :
    ∃ u r v, Calls context p a m u ∧ rewrite context m u = .ok r v := by
  induction hw generalizing b q c with
  | self => exact ⟨b, q, c, h, hq⟩
  | part hk _ ih =>
    obtain ⟨pre, post, hparts⟩ := List.append_of_mem hk
    rw [rewrite_eq, hparts, List.mapM_append] at hq
    obtain ⟨_, _, hq, -⟩ := Action.bind_eq_ok.1 hq
    obtain ⟨qs, u, hpre, hq⟩ := Action.bind_eq_ok.1 hq
    rw [List.mapM_cons, bind_assoc] at hq
    obtain ⟨r, v, hr, -⟩ := Action.bind_eq_ok.1 hq
    exact ih (h.part hparts hpre) hr

end Calls

end Reorder

end JoinOrder
