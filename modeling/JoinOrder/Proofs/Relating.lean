import Mathlib.Data.List.Forall2
import JoinOrder.Planning

/-!
# Two runs side by side

Two steps are related if from corresponding states both succeed, or both fail with the same failure.
What states correspond may depend on a *world*, which grows while the steps run: the heaps of both
runs, for instance. The two states of a failure have a correspondence of their own, since a failing
run stops in the middle of something. Only a ranking that panics does so between two steps. A
correspondence may be one-sided: then the first run may also fail alone.
-/

namespace JoinOrder

class World (ω : Type) where
  Grows : ω → ω → Prop
  refl (w : ω) : Grows w w
  trans {u v w : ω} (h : Grows u v) (h' : Grows v w) : Grows u w

instance : World Unit := ⟨fun _ _ => True, fun _ => trivial, fun _ _ => trivial⟩

instance {ω ω' : Type} [World ω] [World ω'] : World (ω × ω') where
  Grows w w' := World.Grows w.1 w'.1 ∧ World.Grows w.2 w'.2
  refl w := ⟨World.refl w.1, World.refl w.2⟩
  trans h h' := ⟨World.trans h.1 h'.1, World.trans h.2 h'.2⟩

/-- Which states of two runs correspond. -/
structure Correspondence (ω σ τ : Type) where
  holds : ω → σ → τ → Prop
  /-- Both runs have stopped in these states with a failure. -/
  fails : ω → Failure → σ → τ → Prop
  /-- A ranking may panic, in both runs. -/
  panics : Prop := False
  /-- The first run may fail where the second does not. -/
  oneSided : Prop := False

/-- Equal states. -/
def Correspondence.same {σ : Type} : Correspondence Unit σ σ where
  holds _ := Eq
  fails _ _ := Eq

namespace Correspondence
variable {ω σ τ α β γ δ : Type} [World ω] (C : Correspondence ω σ τ)

/-- Both steps have succeeded with related results, or have failed alike. If only the first has
failed, nothing is said of the second. -/
inductive Ends (w : ω) (Q : ω → α → β → Prop) :
    EStateM.Result Failure σ α → EStateM.Result Failure τ β → Prop
  | ok {v : ω} {r : α} {s : β} {a : σ} {b : τ} (hv : World.Grows w v) (h : C.holds v a b)
      (hq : Q v r s) : Ends w Q (.ok r a) (.ok s b)
  | error {v : ω} {f : Failure} {a : σ} {b : τ} (hv : World.Grows w v) (h : C.fails v f a b) :
      Ends w Q (.error f a) (.error f b)
  | panic {v : ω} {a : σ} {b : τ} (hp : C.panics) (hv : World.Grows w v) (h : C.holds v a b) :
      Ends w Q (.error .disorder a) (.error .disorder b)
  | alone {f : Failure} {a : σ} {r : EStateM.Result Failure τ β} (h : C.oneSided) :
      Ends w Q (.error f a) r

/-- From corresponding states the steps end alike. -/
def Relates (w : ω) (x : Action σ α) (y : Action τ β) (Q : ω → α → β → Prop) : Prop :=
  ∀ a b, C.holds w a b → C.Ends w Q (x a) (y b)

variable {C} {w w' : ω} {x : Action σ α} {y : Action τ β} {Q Q' : ω → α → β → Prop}

theorem Ends.mono {r : EStateM.Result Failure σ α} {s : EStateM.Result Failure τ β}
    (h : C.Ends w' Q r s) (hw : World.Grows w w')
    (hQ : ∀ v r s, World.Grows w v → Q v r s → Q' v r s) : C.Ends w Q' r s := by
  cases h with
  | ok hv h hq => exact .ok (World.trans hw hv) h (hQ _ _ _ (World.trans hw hv) hq)
  | error hv h => exact .error (World.trans hw hv) h
  | panic hp hv h => exact .panic hp (World.trans hw hv) h
  | alone h => exact .alone h

namespace Relates
variable {R : ω → γ → δ → Prop}

theorem pure {r : α} {s : β} (h : Q w r s) : C.Relates w (Pure.pure r) (Pure.pure s) Q :=
  fun _ _ hab => .ok (World.refl _) hab h

theorem imp (hx : C.Relates w x y Q) (hQ : ∀ v r s, World.Grows w v → Q v r s → Q' v r s) :
    C.Relates w x y Q' := fun a b hab => (hx a b hab).mono (World.refl _) hQ

/-- Steps after others may rely on what the others were seen to do. -/
theorem bind_of {k : α → Action σ γ} {l : β → Action τ δ} (hx : C.Relates w x y Q)
    (hk : ∀ v a r a' b s b', x a = .ok r a' → y b = .ok s b' → World.Grows w v → Q v r s →
      C.Relates v (k r) (l s) R) : C.Relates w (x >>= k) (y >>= l) R := by
  intro a b hab
  have hend := hx a b hab
  change C.Ends w R (EStateM.bind x k a) (EStateM.bind y l b)
  unfold EStateM.bind
  generalize hx : x a = left at hend ⊢
  generalize hy : y b = right at hend ⊢
  cases hend with
  | ok hv h hq => exact (hk _ a _ _ b _ _ hx hy hv hq _ _ h).mono hv fun _ _ _ _ hR => hR
  | error hv h => exact .error hv h
  | panic hp hv h => exact .panic hp hv h
  | alone h => exact .alone h

theorem bind {k : α → Action σ γ} {l : β → Action τ δ} (hx : C.Relates w x y Q)
    (hk : ∀ v r s, World.Grows w v → Q v r s → C.Relates v (k r) (l s) R) :
    C.Relates w (x >>= k) (y >>= l) R :=
  hx.bind_of fun v _ r _ _ s _ _ _ => hk v r s

theorem mapM {I : ω → α → β → Prop} {f : α → Action σ γ} {g : β → Action τ δ}
    (hI : ∀ {v v' a b}, World.Grows v v' → I v a b → I v' a b)
    (hR : ∀ {v v' c d}, World.Grows v v' → R v c d → R v' c d)
    (hf : ∀ {v a b}, I v a b → C.Relates v (f a) (g b) R) {as : List α} {bs : List β}
    (h : List.Forall₂ (I w) as bs) :
    C.Relates w (as.mapM f) (bs.mapM g) fun v => List.Forall₂ (R v) := by
  induction as generalizing bs w with
  | nil =>
    cases h
    exact .pure .nil
  | cons a as ih =>
    cases h with
    | cons hab hrest =>
      rw [List.mapM_cons, List.mapM_cons]
      refine (hf hab).bind fun v c d hv hcd => ?_
      refine (ih (hrest.imp fun _ _ => hI hv)).bind fun v' cs ds hv' hcds => ?_
      exact .pure (.cons (hR hv' hcd) hcds)

end Relates

end Correspondence

section Sessions
variable {ω ν σ τ α β : Type}

/-- Sessions correspond if their supplies and their estimates do. A ranking panics only under the
given condition. -/
def Correspondence.sessions (R : ω → Supply → Supply → Prop)
    (D : ω → Correspondence Unit (Estimates ν σ) (Estimates ν τ)) (panics : Prop) :
    Correspondence ω (Session ν σ) (Session ν τ) where
  holds w a b := R w a.supply b.supply ∧ (D w).holds () a.estimates b.estimates
  fails w f a b := R w a.supply b.supply ∧ (D w).fails () f a.estimates b.estimates
  panics := panics
  oneSided := ∃ w, (D w).oneSided

variable [World ω] {R : ω → Supply → Supply → Prop}
  {D : ω → Correspondence Unit (Estimates ν σ) (Estimates ν τ)} {panics : Prop} {w : ω}

theorem relates_estimating {x : Estimating ν σ α} {y : Estimating ν τ β} {Q : ω → α → β → Prop}
    (hp : ¬ (D w).panics) (h : (D w).Relates () x y fun _ => Q w) :
    (Correspondence.sessions R D panics).Relates w (Planning.estimating x)
      (Planning.estimating y) Q := by
  rintro a b ⟨hsupply, hestimates⟩
  have hend := h _ _ hestimates
  unfold Planning.estimating Action.onPart
  dsimp only
  generalize x a.estimates = left at hend ⊢
  generalize y b.estimates = right at hend ⊢
  cases hend with
  | ok _ he hq => exact .ok (World.refl _) ⟨hsupply, he⟩ hq
  | error _ he => exact .error (World.refl _) ⟨hsupply, he⟩
  | panic h => exact absurd h hp
  | alone h => exact .alone ⟨w, h⟩

/-- New nodes are made on both sides, and what corresponds among the estimates still does. -/
theorem relates_build {x : Building α} {y : Building β} {Q : ω → α → β → Prop}
    (h : ∀ s t, R w s t → ∃ r s' r' t' w', x s = .ok r s' ∧ y t = .ok r' t' ∧ World.Grows w w' ∧
      R w' s' t' ∧ Q w' r r')
    (hD : ∀ {w' e e'}, World.Grows w w' → (D w).holds () e e' → (D w').holds () e e') :
    (Correspondence.sessions R D panics).Relates w (Planning.build x) (Planning.build y) Q := by
  rintro a b ⟨hsupply, hestimates⟩
  obtain ⟨r, s', r', t', w', hx, hy, hw, hR, hQ⟩ := h _ _ hsupply
  have hx' : Planning.build x a = .ok r { a with supply := s' } :=
    Action.onPart_eq_ok.2 ⟨s', hx, rfl⟩
  have hy' : Planning.build y b = .ok r' { b with supply := t' } :=
    Action.onPart_eq_ok.2 ⟨t', hy, rfl⟩
  rw [hx', hy']
  exact .ok hw ⟨hR, hD hw hestimates⟩ hQ

end Sessions

section Estimating
variable {ν σ τ : Type} {C : Correspondence Unit (Estimates ν σ) (Estimates ν τ)}

/-- Estimates that correspond remember the same, and go on to correspond when both remember more. -/
structure Correspondence.SameMemo (C : Correspondence Unit (Estimates ν σ) (Estimates ν τ)) :
    Prop where
  memo {u : Unit} {e : Estimates ν σ} {e' : Estimates ν τ} (h : C.holds u e e') : e'.memo = e.memo
  insert {u : Unit} {e : Estimates ν σ} {e' : Estimates ν τ} (c : Nat) (s : Statistics ν)
    (h : C.holds u e e') :
    C.holds u { e with memo := e.memo.insert c s } { e' with memo := e'.memo.insert c s }

namespace Correspondence.SameMemo
variable (h : C.SameMemo) {u : Unit}
include h

theorem remember {c : Nat} {x : Estimating ν σ (Statistics ν)} {y : Estimating ν τ (Statistics ν)}
    (hx : C.Relates u x y fun _ s t => s = t) :
    C.Relates u (Estimating.remember c x) (Estimating.remember c y) fun _ s t => s = t := by
  unfold Estimating.remember
  have hget : C.Relates u get get fun _ e e' => e'.memo = e.memo := fun e e' he =>
    .ok (v := u) trivial he (h.memo he)
  refine hget.bind fun _ e e' _ hmemo => ?_
  rw [hmemo]
  cases e.memo c with
  | some s => exact .pure rfl
  | none =>
    refine hx.bind ?_
    rintro _ s _ - rfl
    have hset : C.Relates u (modify fun e => { e with memo := e.memo.insert c s })
        (modify fun e => { e with memo := e.memo.insert c s }) fun _ _ _ => True := fun e e' he =>
      .ok (v := u) trivial (h.insert c s he) trivial
    exact hset.bind fun _ _ _ _ _ => .pure rfl

/-- Plans are estimated side by side if operators are. -/
theorem estimate {estimator : Estimator ν σ} {estimator' : Estimator ν τ}
    (hcall : ∀ n inputs, C.Relates u (Estimating.ofEnv (estimator n inputs))
      (Estimating.ofEnv (estimator' n inputs)) fun _ s t => s = t) (n : Node) :
    C.Relates u (Estimating.estimate estimator n) (Estimating.estimate estimator' n)
      fun _ s t => s = t := by
  induction n with
  | scan => exact h.remember (hcall _ _)
  | unary tag op i ih =>
    refine h.remember (ih.bind ?_)
    rintro _ s _ - rfl
    exact hcall _ _
  | join tag j l r ihl ihr =>
    refine h.remember (ihl.bind ?_)
    rintro _ s _ - rfl
    refine ihr.bind ?_
    rintro _ t _ - rfl
    exact hcall _ _

end Correspondence.SameMemo

end Estimating

end JoinOrder
