import Mathlib.Data.List.Flatten
import JoinOrder.Proofs.JoinTree

/-!
# Dealing out conditions

The joins of a search take residual conditions one after the other, each all that it covers of what
is left. `deal` gives the blocks that they take, `undealt` what remains. Put together in any order,
the blocks are dealt out as before (`deal_flatten_perm`). So it does not matter that the blocks of a
joined group are listed tree by tree, not in the order in which the joins were made.
-/

namespace JoinOrder

/-- The blocks of conditions that are taken one after the other. -/
def deal : List (Expr → Bool) → List Expr → List (List Expr)
  | [], _ => []
  | takes :: rest, es => es.filter takes :: deal rest (es.filter (!takes ·))

/-- The conditions that are not taken. -/
def undealt : List (Expr → Bool) → List Expr → List Expr
  | [], es => es
  | takes :: rest, es => undealt rest (es.filter (!takes ·))

variable {ps qs : List (Expr → Bool)} {es fs : List Expr}

theorem deal_append (ps qs : List (Expr → Bool)) (es : List Expr) :
    deal (ps ++ qs) es = deal ps es ++ deal qs (undealt ps es) := by
  induction ps generalizing es with
  | nil => rfl
  | cons p ps ih => rw [List.cons_append, deal, deal, undealt, ih, List.cons_append]

theorem undealt_append (ps qs : List (Expr → Bool)) (es : List Expr) :
    undealt (ps ++ qs) es = undealt qs (undealt ps es) := by
  induction ps generalizing es with
  | nil => rfl
  | cons p ps ih => rw [List.cons_append, undealt, undealt, ih]

@[simp] theorem length_deal (ps : List (Expr → Bool)) (es : List Expr) :
    (deal ps es).length = ps.length := by
  induction ps generalizing es with
  | nil => rfl
  | cons p ps ih => rw [deal, List.length_cons, List.length_cons, ih]

theorem deal_eq_of_append (h : deal (ps ++ qs) es = deal (ps ++ qs) fs) :
    deal ps es = deal ps fs ∧ deal qs (undealt ps es) = deal qs (undealt ps fs) := by
  rw [deal_append, deal_append] at h
  exact List.append_inj h (by rw [length_deal, length_deal])

theorem flatten_deal_perm (ps : List (Expr → Bool)) (es : List Expr) :
    ((deal ps es).flatten ++ undealt ps es).Perm es := by
  induction ps generalizing es with
  | nil => exact .refl _
  | cons p ps ih =>
    rw [deal, undealt, List.flatten_cons, List.append_assoc]
    exact ((ih _).append_left _).trans (List.filter_append_perm p es)

theorem mem_of_mem_deal {b : List Expr} {e : Expr} (hb : b ∈ deal ps es) (he : e ∈ b) : e ∈ es := by
  induction ps generalizing es with
  | nil => cases hb
  | cons p ps ih =>
    rcases List.mem_cons.1 hb with rfl | hb
    · exact (List.mem_filter.1 he).1
    · exact (List.mem_filter.1 (ih hb)).1

theorem mem_of_mem_undealt {e : Expr} (he : e ∈ undealt ps es) : e ∈ es := by
  induction ps generalizing es with
  | nil => exact he
  | cons p ps ih => exact (List.mem_filter.1 (ih he)).1

/-- In whatever order the blocks are put together, they are dealt out in the same way. -/
theorem deal_flatten_perm {bs : List (List Expr)} (h : bs.Perm (deal ps es)) :
    deal ps bs.flatten = deal ps es := by
  induction ps generalizing es bs with
  | nil => rfl
  | cons p ps ih =>
    have hmem : es.filter p ∈ bs := h.symm.subset (List.mem_cons_self ..)
    obtain ⟨pre, post, rfl⟩ := List.append_of_mem hmem
    have hrest : (pre ++ post).Perm (deal ps (es.filter (!p ·))) :=
      (List.perm_cons _).1 (List.perm_middle.symm.trans h)
    have hnone : ∀ cs : List (List Expr), cs ⊆ pre ++ post →
        cs.flatten.filter p = [] ∧ cs.flatten.filter (!p ·) = cs.flatten := by
      intro cs hcs
      have hp : ∀ e ∈ cs.flatten, p e = false := fun e he => by
        obtain ⟨b, hb, he⟩ := List.mem_flatten.1 he
        have := (List.mem_filter.1 (mem_of_mem_deal (hrest.subset (hcs hb)) he)).2
        simpa using this
      exact ⟨List.filter_eq_nil_iff.2 fun e he => by simp [hp e he],
        List.filter_eq_self.2 fun e he => by simp [hp e he]⟩
    obtain ⟨hpre, hpre'⟩ := hnone pre (List.subset_append_left ..)
    obtain ⟨hpost, hpost'⟩ := hnone post (List.subset_append_right ..)
    have htaken : (pre ++ es.filter p :: post).flatten.filter p = es.filter p := by
      rw [List.flatten_append, List.flatten_cons, List.filter_append, List.filter_append, hpre, hpost,
        List.filter_filter]
      simp
    have hleft : (pre ++ es.filter p :: post).flatten.filter (!p ·) = (pre ++ post).flatten := by
      rw [List.flatten_append, List.flatten_cons, List.filter_append, List.filter_append, hpre',
        hpost', List.filter_filter, List.flatten_append]
      simp
    rw [deal, htaken, hleft, ih hrest, deal]

/-- The residual conditions of a tree, join by join. -/
def JoinTree.blocks : JoinTree → List (List Expr)
  | leaf _ => []
  | join _ _ residuals l r => l.blocks ++ r.blocks ++ [residuals]

theorem JoinTree.flatten_blocks (t : JoinTree) : t.blocks.flatten = t.residuals := by
  induction t with
  | leaf => rfl
  | join _ _ _ l r ihl ihr =>
    rw [blocks, residuals, List.flatten_append, List.flatten_append, ihl, ihr]
    simp

end JoinOrder
