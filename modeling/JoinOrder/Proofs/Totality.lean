import JoinOrder.Proofs.RelatedRewriting

/-!
# Reordering succeeds

Where the collaborators never fail, reordering a well-formed plan does not fail either, unless a ranking
panics (`Reorder.rewrite_or_panic`). The only operator that is refused is a projection to a column that
its input does not have, and reordering keeps the columns of all inputs (`Reorder.standsFor`).
-/

namespace JoinOrder

/-- Neither the estimator nor the cost model ever fails. -/
structure Context.Reliable {ν σ : Type} (context : Context ν σ) : Prop where
  estimator : ∀ n inputs, Action.Total (context.estimator n inputs)
  base : ∀ n, Action.Total (context.model.base context.estimator n)
  join : ∀ n l r, Action.Total (context.model.join context.estimator n l r)

/-- The context with watched collaborators. -/
def Context.watched {ν σ : Type} (context : Context ν σ) : Context ν (σ × List Failure) :=
  ⟨context.estimator.watched, context.model.watched context.estimator, context.config⟩

namespace Reorder

section Building

theorem total_unary {op : UnaryOp} {i : Node} (hop : op.missing? i.produces = none) :
    Action.Total (Building.node (.unary op) [i]) := by
  intro a
  refine ⟨.unary ⟨a.nextId, a.nextCell⟩ op i, ⟨a.nextId + 1, a.nextCell + 1⟩, ?_⟩
  refine Action.bind_eq_ok.2 ⟨_, _, rfl, Action.ofExcept_eq_ok.2 ⟨?_, rfl⟩⟩
  rw [Node.ofOperator, hop]
  rfl

theorem total_join (j : Join) (l r : Node) : Action.Total (Building.node (.join j) [l, r]) :=
  fun a => ⟨.join ⟨a.nextId, a.nextCell⟩ j l r, ⟨a.nextId + 1, a.nextCell + 1⟩, rfl⟩

theorem total_withInputs_unary {tag : Tag} {op : UnaryOp} {input i : Node}
    (hop : op.missing? i.produces = none) :
    Action.Total (withInputs (.unary tag op input) [i]) := by
  unfold withInputs
  split
  · exact .pure _
  · exact total_unary hop

theorem total_withInputs_join (tag : Tag) (j : Join) (left right l r : Node) :
    Action.Total (withInputs (.join tag j left right) [l, r]) := by
  unfold withInputs
  split
  · exact .pure _
  · exact total_join j l r

end Building

variable {ν σ : Type}

/-- A watched context does what it does unwatched. -/
theorem simulates_watched (context : Context ν σ) (panics : Prop) :
    Simulates (watchingSession context.estimator context.model panics) (fun _ => Eq) context
      context.watched where
  config := rfl
  search E := Search.simulates_watched ⟨context.estimator, context.model, E⟩ panics
  bare h := congrArg Node.bare h
  input h := by
    cases h
    rfl
  inputs h := by
    cases h
    exact ⟨rfl, rfl⟩
  unary hi hop := by
    rw [← hi]
    exact relates_build_watched (total_unary hop)
  withInput h hi hop := by
    rw [← h, ← hi]
    exact relates_build_watched (total_withInputs_unary hop)
  withInputs h hl hr := by
    rw [← h, ← hl, ← hr]
    exact relates_build_watched (total_withInputs_join _ _ _ _ _ _)

variable [CostScale ν] {context : Context ν σ} {n : Node}

/-- Watched reordering does what it does unwatched. -/
theorem relates_rewrite_watched (context : Context ν σ) (hw : n.WellFormed) :
    (watchingSession context.estimator context.model (Panics context n)).Relates ()
      (rewrite context n) (rewrite context.watched n) fun _ q r => q = r :=
  (simulates_watched context (Panics context n)).rewrite id hw rfl

/-- With reliable collaborators, reordering a well-formed plan succeeds, unless a ranking panics. -/
theorem rewrite_or_panic (h : context.Reliable) (hw : n.WellFormed) (a : Session ν σ) :
    (∃ q b, rewrite context n a = .ok q b) ∨
      ∃ b, rewrite context n a = .error .disorder b ∧ Panics context n := by
  have hsearch : Search.Reliable ⟨context.estimator, context.model, []⟩ :=
    ⟨h.estimator, h.base, h.join⟩
  have hend := relates_rewrite_watched context hw a (a.watched []) ⟨rfl, rfl⟩
  rcases of_ends_watched hend with ⟨q, b, h, -⟩ | ⟨_, _, -, -, hr⟩ | ⟨b, h, -, hp⟩
  · exact .inl ⟨q, b, h⟩
  · exact absurd hr hsearch.not_refused
  · exact .inr ⟨b, h, hp⟩

theorem total_rewrite (h : context.Reliable) (hp : ¬ Panics context n) (hw : n.WellFormed) :
    Action.Total (rewrite context n) := fun a =>
  (rewrite_or_panic h hw a).resolve_right fun ⟨_, _, h⟩ => hp h

end Reorder

end JoinOrder
