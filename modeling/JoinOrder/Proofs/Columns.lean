import JoinOrder.Proofs.Merging
import JoinOrder.Proofs.Totality

/-!
# The columns of a reordered plan

Reordering keeps the columns of a plan, and their order too where this is asked for. It never fails
on its own account: no node that it makes is refused (`Reorder.columns_of_rewrite`). Only a ranking of
costs that do not compare may panic.
-/

namespace JoinOrder

theorem Regrouped.schema {R : Node → Node → Prop} {n q : Node} (h : Regrouped R n q)
    (hR : ∀ m q, R m q → q.schema = m.schema) : q.schema = n.schema := by
  induction h with
  | member _ hR' => exact hR _ _ hR'
  | join _ _ _ ihl ihr => rw [Node.schema, Node.schema, ihl, ihr]

theorem Dresses.schema {config : Config} {n q : Node} {s : Solution} (h : Dresses config n s q)
    (hrestore : config.restoreColumnOrder = true) : q.schema = n.schema := by
  obtain ⟨filtered, -, hq⟩ := h
  split at hq
  · obtain ⟨-, tag, rfl⟩ := hq
    exact Schema.ofList_columns n.schema
  · rename_i hkept
    rw [hq]
    by_contra hne
    exact hkept ⟨hrestore, hne⟩

namespace Reorder
variable {ν σ : Type} [CostScale ν]

/-- If the order of columns is restored, every plan keeps its schema. -/
theorem restored (context : Context ν σ) : Invariant context False fun n q =>
    context.config.restoreColumnOrder = true → q.schema = n.schema where
  refl _ _ := rfl
  unary tag tag' op h hr := by rw [Node.schema, Node.schema, h hr]
  outer tag tag' _ hl hr h := by rw [Node.schema, Node.schema, hl h, hr h]
  kept _ _ h hr := h.schema fun _ _ hm => hm hr
  joined _ _ _ _ _ hq hr := hq.schema hr

/-- A reordered plan has the columns of the given one, in the same order if that is to be restored.
Unless a ranking panics, reordering fails exactly if a call to a collaborator does, and for the same
reason: watched collaborators write down no failure if there is a plan, and the failure of the run if
there is none. If a ranking panics no call has failed. -/
theorem columns_of_rewrite (context : Context ν σ) {n : Node} (hw : n.WellFormed)
    (a : Session ν σ) :
    match rewrite context n a with
    | .ok q b => rewrite context.watched n (a.watched []) = .ok q (b.watched []) ∧
        q.schema.sameColumns n.schema = true ∧
        (context.config.restoreColumnOrder = true → q.schema = n.schema)
    | .error f b => rewrite context.watched n (a.watched []) = .error f (b.watched [f]) ∨
        f = .disorder ∧ rewrite context.watched n (a.watched []) = .error f (b.watched []) ∧
          Panics context n := by
  have hend := relates_rewrite_watched context hw a (a.watched []) ⟨rfl, rfl⟩
  rcases of_ends_watched hend with ⟨q, b, h, hwatched⟩ | ⟨f, b, h, hwatched, -⟩ | ⟨b, h, hwatched, hp⟩
  · rw [h]
    have hcols := ((standsFor context).rewrite False.elim h).produces
    refine ⟨hwatched, Schema.sameColumns_iff.2 fun c => ?_,
      (restored context).rewrite False.elim h⟩
    rw [← Node.produces_iff, ← Node.produces_iff, hcols c]
  · rw [h]
    exact .inl hwatched
  · rw [h]
    exact .inr ⟨rfl, hwatched, hp⟩

theorem columns_of_rewrite_threeTables : ∃ q b,
    rewrite (.constant 1) Structural.threeTables (.unused 5) = .ok q b ∧
      rewrite (Context.constant 1).watched Structural.threeTables (Session.watched (.unused 5) []) =
        .ok q (b.watched []) ∧
      q.schema.sameColumns Structural.threeTables.schema = true ∧
      q.schema = Structural.threeTables.schema := by
  have hw : Structural.threeTables.WellFormed := ⟨⟨trivial, trivial⟩, trivial⟩
  have hrun : ((rewrite (.constant 1) Structural.threeTables).result? (.unused 5)).isSome = true := by
    decide +kernel
  obtain ⟨q, b, hq⟩ := Action.exists_of_result? hrun
  have h := columns_of_rewrite (.constant 1) hw (.unused 5)
  rw [hq] at h
  exact ⟨q, b, hq, h.1, h.2.1, h.2.2 rfl⟩

end Reorder

end JoinOrder
