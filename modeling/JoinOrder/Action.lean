import JoinOrder.Failure

/-!
# Actions

Steps that read and change a state and may fail. A failing step keeps what it did to the state
before it failed. A step on a part of a state is a step on the whole.

The lemmas say how each way of putting steps together succeeds (`_eq_ok`) and how it fails
(`_eq_error`).
-/

namespace JoinOrder

/-- A step on the state `σ` with a result of type `α`. -/
abbrev Action (σ α : Type) := EStateM Failure σ α

namespace Action
variable {σ τ α β : Type}

/-- A step that cannot fail. -/
def ofState (x : StateM σ α) : Action σ α := fun s => .ok (x s).1 (x s).2

/-- A result that is known or a failure, without a change of state. -/
def ofExcept (x : Except Failure α) : Action σ α := fun s =>
  match x with
  | .ok a => .ok a s
  | .error f => .error f s

/-- Runs a step on the part of the state that `get` reads and `set` replaces. -/
def onPart (get : σ → τ) (set : τ → σ → σ) (x : Action τ α) : Action σ α := fun s =>
  match x (get s) with
  | .ok a t => .ok a (set t s)
  | .error f t => .error f (set t s)

section Outcomes
variable {a b : α} {s t : σ} {f : Failure}

theorem pure_eq_ok : (pure a : Action σ α) s = .ok b t ↔ a = b ∧ s = t := by
  change EStateM.Result.ok a s = _ ↔ _
  simp

theorem bind_eq_ok {x : Action σ α} {k : α → Action σ β} {c : β} :
    (x >>= k) s = .ok c t ↔ ∃ a u, x s = .ok a u ∧ k a u = .ok c t := by
  change EStateM.bind x k s = _ ↔ _
  unfold EStateM.bind
  cases x s with
  | ok a u =>
    refine ⟨fun h => ⟨a, u, rfl, h⟩, ?_⟩
    rintro ⟨_, _, h, hk⟩
    cases h; exact hk
  | error => simp

/-- The first failure is the outcome, and nothing is done after it. -/
theorem bind_eq_error {x : Action σ α} {k : α → Action σ β} :
    (x >>= k) s = .error f t ↔
      x s = .error f t ∨ ∃ a u, x s = .ok a u ∧ k a u = .error f t := by
  change EStateM.bind x k s = _ ↔ _
  unfold EStateM.bind
  cases x s with
  | ok a u =>
    refine ⟨fun h => .inr ⟨a, u, rfl, h⟩, ?_⟩
    rintro (h | ⟨_, _, h, hk⟩)
    · cases h
    · cases h; exact hk
  | error => simp

theorem map_eq_ok {f : α → β} {x : Action σ α} {c : β} :
    (f <$> x) s = .ok c t ↔ ∃ a, x s = .ok a t ∧ f a = c := by
  change EStateM.map f x s = _ ↔ _
  unfold EStateM.map
  cases x s with
  | ok a u =>
    constructor
    · intro h; cases h; exact ⟨a, rfl, rfl⟩
    · rintro ⟨_, h, rfl⟩; cases h; rfl
  | error => simp

theorem ofState_eq_ok {x : StateM σ α} : ofState x s = .ok a t ↔ x s = (a, t) := by
  unfold ofState
  constructor
  · intro h; cases h; rfl
  · intro h; rw [h]

theorem ofExcept_eq_ok {x : Except Failure α} :
    ofExcept x s = .ok a t ↔ x = .ok a ∧ s = t := by
  cases x <;> simp [ofExcept]

theorem onPart_eq_ok {get : σ → τ} {set : τ → σ → σ} {x : Action τ α} :
    onPart get set x s = .ok a t ↔ ∃ u, x (get s) = .ok a u ∧ set u s = t := by
  unfold onPart
  cases x (get s) with
  | ok b u =>
    constructor
    · intro h; cases h; exact ⟨u, rfl, rfl⟩
    · rintro ⟨_, h, rfl⟩; cases h; rfl
  | error => simp

theorem onPart_eq_error {get : σ → τ} {set : τ → σ → σ} {x : Action τ α} :
    onPart get set x s = .error f t ↔ ∃ u, x (get s) = .error f u ∧ set u s = t := by
  unfold onPart
  cases x (get s) with
  | ok => simp
  | error g u =>
    constructor
    · intro h; cases h; exact ⟨u, rfl, rfl⟩
    · rintro ⟨_, h, rfl⟩; cases h; rfl

end Outcomes

end Action

end JoinOrder
