import JoinOrder.Proofs.Comparisons
import JoinOrder.Proofs.Connection
import JoinOrder.Proofs.Relating

/-!
# Searches step by step

A search touches its state in three kinds of steps only: it appraises a member, makes a join, and
asks what a join costs. `Steps.solve` is the search made of given steps, and `Search.solve` is the
search made of those that ask the collaborators (`Search.steps_solve`). So if the steps of two
searches are related, the searches are (`Steps.Simulates.solve`).
-/

namespace JoinOrder

/-- What a search does on a state. The definitions below are those of the search, made of these
steps. -/
structure Steps (τ ν : Type) where
  appraise : Node → Action τ (Tree ν)
  newJoin : Join → Node → Node → Action τ Node
  joinCost : Node → (left right : Tree ν) → Action τ ν

namespace Steps
variable {τ ν : Type} (k : Steps τ ν) (E : List Edge)

def candidate? (tree : Tree ν) (pending : List Expr) (position : Nat) (member : Tree ν) :
    Action τ (Option (Candidate ν)) := do
  match connecting E tree.plan member.plan with
  | [] => return none
  | edges =>
    let join ← k.newJoin (.attaching edges pending tree.plan member.plan) tree.plan member.plan
    let cost ← k.joinCost join tree member
    return some ⟨position, ⟨join, cost⟩, pendingAbove pending tree.plan member.plan⟩

def candidates (tree : Tree ν) (pending : List Expr) :
    (position : Nat) → List (Tree ν) → Action τ (List (Candidate ν))
  | _, [] => return []
  | position, member :: rest => do
    let found ← k.candidate? E tree pending position member
    let others ← candidates tree pending (position + 1) rest
    return found.toList ++ others

def pairUp : List Node → List Expr → Action τ (List Node × List Expr)
  | left :: right :: rest, pending => do
    let join ← k.newJoin (.attaching [] pending left right) left right
    let (joins, pending) ← pairUp rest (pendingAbove pending left right)
    return (join :: joins, pending)
  | rest, pending => return (rest, pending)

def rounds : Nat → List Node → List Expr → Action τ (Option Solution)
  | _, [], _ => return none
  | _, [plan], pending => return some ⟨plan, pending⟩
  | 0, plan :: _, pending => return some ⟨plan, pending⟩
  | n + 1, plans, pending => do
    let (plans, pending) ← k.pairUp plans pending
    rounds n plans pending

variable [CostScale ν]

def grow : (joins : Nat) → Growth ν → Action τ (Growth ν)
  | 0, g => return g
  | joins + 1, g => do
    match Search.cheapest? (← k.candidates E g.tree g.pending 0 g.remaining) with
    | none => return g
    | some c => grow joins (g.commit c)

def growAll : (trees : Nat) → List (Tree ν) → List Expr → Action τ (List Node × List Expr)
  | trees + 1, seed :: remaining, pending => do
    let g ← k.grow E remaining.length ⟨seed, remaining, pending⟩
    let (plans, pending) ← growAll trees g.remaining g.pending
    return (g.tree.plan :: plans, pending)
  | _, _, pending => return ([], pending)

/-- Grows ranked trees and joins what they have become. -/
def combine (trees : List (Tree ν)) (pending : List Expr) : Action τ (Option Solution) := do
  let (plans, pending) ← k.growAll E trees.length trees pending
  k.rounds plans.length plans pending

def solve (members : List Node) (residuals : List Expr) : Action τ (Option Solution) := do
  let trees ← members.mapM k.appraise
  k.combine E (← ranking trees) residuals

/-- Ranking the members may panic once they are appraised. -/
def Panics (members : List Node) : Prop :=
  ∃ (a b : τ) (trees : List (Tree ν)),
    members.mapM k.appraise a = .ok trees b ∧ ranked trees = none

end Steps

namespace Search
variable {ν σ : Type} (s : Search ν σ)

/-- The steps of a search that asks its collaborators. -/
def steps : Steps (Session ν σ) ν := ⟨s.appraise, Planning.newJoin, s.joinCost⟩

theorem steps_candidates (tree : Tree ν) (pending : List Expr) (i : Nat) (rest : List (Tree ν)) :
    s.steps.candidates s.edges tree pending i rest = s.candidates tree pending i rest := by
  induction rest generalizing i with
  | nil => rfl
  | cons m rest ih =>
    rw [Steps.candidates, candidates, ih]
    rfl

theorem steps_pairUp (plans : List Node) (pending : List Expr) (a : Session ν σ) :
    s.steps.pairUp plans pending a = .ok (Assembly.pairUp plans pending a.supply).1
      { a with supply := (Assembly.pairUp plans pending a.supply).2 } := by
  match plans with
  | [] => rfl
  | [_] => rfl
  | left :: right :: rest =>
    have hrest := steps_pairUp rest (pendingAbove pending left right)
      { a with supply := ⟨a.supply.nextId + 1, a.supply.nextCell + 1⟩ }
    exact Action.bind_eq_ok.2 ⟨_, _, rfl, Action.bind_eq_ok.2 ⟨_, _, hrest, rfl⟩⟩

theorem steps_rounds (n : Nat) (plans : List Node) (pending : List Expr) (a : Session ν σ) :
    s.steps.rounds n plans pending a = .ok (Assembly.rounds n plans pending a.supply).1
      { a with supply := (Assembly.rounds n plans pending a.supply).2 } := by
  induction n generalizing plans pending a with
  | zero =>
    match plans with
    | [] => rfl
    | [_] => rfl
    | _ :: _ :: _ => rfl
  | succ n ih =>
    match plans with
    | [] => rfl
    | [_] => rfl
    | left :: right :: rest =>
      exact Action.bind_eq_ok.2 ⟨_, _, s.steps_pairUp (left :: right :: rest) pending a, ih ..⟩

variable [CostScale ν]

theorem steps_grow (k : Nat) (g : Growth ν) : s.steps.grow s.edges k g = s.grow k g := by
  induction k generalizing g with
  | zero => rfl
  | succ k ih =>
    rw [Steps.grow, grow, steps_candidates]
    refine congrArg (s.candidates g.tree g.pending 0 g.remaining >>= ·) (funext fun cs => ?_)
    cases cheapest? cs with
    | none => rfl
    | some c => exact ih (g.commit c)

theorem steps_growAll (k : Nat) (trees : List (Tree ν)) (pending : List Expr) :
    s.steps.growAll s.edges k trees pending = s.growAll k trees pending := by
  induction k generalizing trees pending with
  | zero => rfl
  | succ k ih =>
    cases trees with
    | nil => rfl
    | cons seed rest =>
      rw [Steps.growAll, growAll, steps_grow]
      simp only [ih]

/-- A search is made of its steps. -/
theorem steps_solve (members : List Node) (residuals : List Expr) :
    s.steps.solve s.edges members residuals = s.solve members residuals := by
  unfold Steps.solve solve ranking
  refine congrArg (members.mapM s.appraise >>= ·) (funext fun trees => ?_)
  cases hr : ranked trees with
  | none => rfl
  | some order =>
    change s.steps.combine s.edges order residuals = s.growAll trees.length order residuals >>= _
    unfold Steps.combine
    rw [(ranked_perm hr).length_eq, steps_growAll]
    refine congrArg (s.growAll trees.length order residuals >>= ·) (funext fun grown => ?_)
    funext a
    exact s.steps_rounds ..

end Search

/-- Ranking the members may panic once they are appraised with the help of these collaborators. -/
def RankingPanics {ν σ : Type} [CostScale ν] (estimator : Estimator ν σ) (model : CostModel ν σ)
    (members : List Node) : Prop := (Search.steps ⟨estimator, model, []⟩).Panics members

namespace Steps
variable {ω σ τ ν : Type} [World ω]

/-- Trees of related plans and equal costs. -/
def Alike (P : ω → Node → Node → Prop) (w : ω) (t u : Tree ν) : Prop :=
  P w t.plan u.plan ∧ t.cost = u.cost

/-- Every step of `l` follows the same step of `k` where nodes are related by `P`. -/
structure Simulates (C : Correspondence ω σ τ) (P : ω → Node → Node → Prop)
    (k : Steps σ ν) (l : Steps τ ν) : Prop where
  mono {w w' : ω} {m n : Node} (hw : World.Grows w w') (h : P w m n) : P w' m n
  columns {w : ω} {m n : Node} (h : P w m n) : m.SameColumns n
  appraise {w : ω} {m n : Node} (h : P w m n) :
    C.Relates w (k.appraise m) (l.appraise n) (Alike P)
  newJoin {w : ω} {m m' n n' : Node} (j : Join) (h : P w m m') (h' : P w n n') :
    C.Relates w (k.newJoin j m n) (l.newJoin j m' n') P
  joinCost {w : ω} {m n : Node} {t t' u u' : Tree ν} (h : P w m n) (ht : t.cost = t'.cost)
    (hu : u.cost = u'.cost) :
    C.Relates w (k.joinCost m t u) (l.joinCost n t' u') fun _ c d => c = d

structure AlikeCandidates (P : ω → Node → Node → Prop) (w : ω) (c d : Candidate ν) : Prop where
  position : c.position = d.position
  tree : Alike P w c.tree d.tree
  pending : c.pending = d.pending

structure AlikeGrowths (P : ω → Node → Node → Prop) (w : ω) (g g' : Growth ν) : Prop where
  tree : Alike P w g.tree g'.tree
  remaining : List.Forall₂ (Alike P w) g.remaining g'.remaining
  pending : g.pending = g'.pending

structure AlikeSolutions (P : ω → Node → Node → Prop) (w : ω) (s s' : Solution) : Prop where
  plan : P w s.plan s'.plan
  pending : s.pending = s'.pending

omit [World ω] in
theorem eq_of_alike {P : ω → Node → Node → Prop} {w : ω} (hP : ∀ {m n}, P w m n → m = n)
    {r s : Option Solution} (h : Option.Rel (AlikeSolutions P w) r s) : r = s := by
  cases h with
  | none => rfl
  | @some x y hxy =>
    obtain ⟨plan, pending⟩ := x
    obtain ⟨hplan, rfl⟩ := hxy
    obtain rfl := hP hplan
    rfl

variable {C : Correspondence ω σ τ} {P : ω → Node → Node → Prop} {k : Steps σ ν} {l : Steps τ ν}

section Choice
variable {w : ω}

theorem forall₂_eraseIdx {R : Tree ν → Tree ν → Prop} {ts us : List (Tree ν)}
    (h : List.Forall₂ R ts us) (i : Nat) : List.Forall₂ R (ts.eraseIdx i) (us.eraseIdx i) := by
  induction h generalizing i with
  | nil => exact .nil
  | cons htu hrest ih =>
    cases i with
    | zero => exact hrest
    | succ i => exact .cons htu (ih i)

omit [World ω] in
theorem rel_cheapestBelow [CostScale ν] {cs ds : List (Candidate ν)}
    (h : List.Forall₂ (AlikeCandidates P w) cs ds) (bound : ν) :
    Option.Rel (AlikeCandidates P w) (Search.cheapestBelow bound cs)
      (Search.cheapestBelow bound ds) := by
  induction h generalizing bound with
  | nil => exact .none
  | @cons c d cs ds hcd _ ih =>
    rw [Search.cheapestBelow, Search.cheapestBelow, hcd.tree.2]
    split
    · have hrest := ih d.tree.cost
      revert hrest
      cases Search.cheapestBelow d.tree.cost cs <;> cases Search.cheapestBelow d.tree.cost ds <;>
        intro hrest <;> cases hrest
      · exact .some hcd
      · rename_i hrest
        exact .some hrest
    · exact ih bound

end Choice

/-- Trees of the same costs are ranked side by side. -/
theorem relates_ranking [CostScale ν] {w : ω} {members : List Node} {a b : σ}
    {trees trees' : List (Tree ν)} (hp : k.Panics members → C.panics)
    (htrees : members.mapM k.appraise a = .ok trees b) (ht : List.Forall₂ (Alike P w) trees trees') :
    C.Relates w (ranking trees) (ranking trees') fun v => List.Forall₂ (Alike P v) := by
  have hrank := rel_ranked (fun _ _ htu => htu.2) ht
  intro c d hcd
  unfold ranking
  generalize hr : ranked trees = left at hrank ⊢
  generalize ranked trees' = right at hrank ⊢
  cases hrank with
  | none => exact .panic (hp ⟨a, b, trees, htrees, hr⟩) (World.refl w) hcd
  | some horder => exact .ok (World.refl w) hcd horder

namespace Simulates
variable (h : Simulates C P k l) (E : List Edge) {w : ω}
include h

theorem mono_alike {w' : ω} {t u : Tree ν} (hw : World.Grows w w') (htu : Alike P w t u) :
    Alike P w' t u := ⟨h.mono hw htu.1, htu.2⟩

theorem connecting_eq {t t' m m' : Node} (ht : P w t t') (hm : P w m m') :
    connecting E t m = connecting E t' m' := by
  unfold connecting Edge.orient?
  rw [funext (h.columns ht), funext (h.columns hm)]

theorem coveredBy_eq {t t' m m' : Node} (ht : P w t t') (hm : P w m m') (e : Expr) :
    e.coveredBy t m = e.coveredBy t' m' := by
  unfold Expr.coveredBy
  rw [funext (h.columns ht), funext (h.columns hm)]

theorem attaching_eq {t t' m m' : Node} (ht : P w t t') (hm : P w m m') (edges : List Edge)
    (pending : List Expr) : Join.attaching edges pending t m = .attaching edges pending t' m' := by
  unfold Join.attaching
  simp only [h.coveredBy_eq ht hm]

theorem pendingAbove_eq {t t' m m' : Node} (ht : P w t t') (hm : P w m m') (pending : List Expr) :
    pendingAbove pending t m = pendingAbove pending t' m' := by
  unfold pendingAbove
  simp only [h.coveredBy_eq ht hm]

theorem candidate? {t t' m m' : Tree ν} (ht : Alike P w t t') (hm : Alike P w m m')
    (pending : List Expr) (i : Nat) :
    C.Relates w (k.candidate? E t pending i m) (l.candidate? E t' pending i m')
      fun v => Option.Rel (AlikeCandidates P v) := by
  unfold Steps.candidate?
  rw [← h.connecting_eq E ht.1 hm.1]
  split
  · exact .pure .none
  · rw [← h.attaching_eq ht.1 hm.1, ← h.pendingAbove_eq ht.1 hm.1]
    refine (h.newJoin _ ht.1 hm.1).bind fun v n n' hv hn => ?_
    refine (h.joinCost hn ht.2 hm.2).bind fun v' c c' hv' hc => .pure ?_
    exact .some ⟨rfl, ⟨h.mono hv' hn, hc⟩, rfl⟩

theorem candidates {t t' : Tree ν} {rest rest' : List (Tree ν)} (ht : Alike P w t t')
    (hrest : List.Forall₂ (Alike P w) rest rest') (pending : List Expr) (i : Nat) :
    C.Relates w (k.candidates E t pending i rest) (l.candidates E t' pending i rest')
      fun v => List.Forall₂ (AlikeCandidates P v) := by
  induction rest generalizing rest' i w with
  | nil =>
    cases hrest
    exact .pure .nil
  | cons m rest ih =>
    cases hrest with
    | cons hm hrest =>
      refine (h.candidate? E ht hm pending i).bind fun v found found' hv hfound => ?_
      refine (ih (h.mono_alike hv ht) (hrest.imp fun _ _ => h.mono_alike hv) (i + 1)).bind
        fun v' cs cs' hv' hcs => .pure ?_
      cases hfound with
      | none => exact hcs
      | some hc => exact .cons ⟨hc.position, h.mono_alike hv' hc.tree, hc.pending⟩ hcs

theorem pairUp {w : ω} {plans plans' : List Node} (hp : List.Forall₂ (P w) plans plans')
    (pending : List Expr) :
    C.Relates w (k.pairUp plans pending) (l.pairUp plans' pending)
      fun v r r' => List.Forall₂ (P v) r.1 r'.1 ∧ r.2 = r'.2 := by
  match hp with
  | .nil => exact .pure ⟨.nil, rfl⟩
  | .cons hn .nil => exact .pure ⟨.cons hn .nil, rfl⟩
  | .cons hl (.cons hr hrest) =>
    rw [Steps.pairUp, Steps.pairUp, ← h.attaching_eq hl hr, ← h.pendingAbove_eq hl hr]
    refine (h.newJoin _ hl hr).bind fun v n n' hv hn => ?_
    refine (pairUp (hrest.imp fun _ _ => h.mono hv) _).bind fun v' r r' hv' hrs => .pure ?_
    exact ⟨.cons (h.mono hv' hn) hrs.1, hrs.2⟩

theorem rounds (n : Nat) {plans plans' : List Node} (hp : List.Forall₂ (P w) plans plans')
    (pending : List Expr) :
    C.Relates w (k.rounds n plans pending) (l.rounds n plans' pending)
      fun v => Option.Rel (AlikeSolutions P v) := by
  induction n generalizing plans plans' pending w with
  | zero =>
    match hp with
    | .nil => exact .pure .none
    | .cons hn .nil => exact .pure (.some ⟨hn, rfl⟩)
    | .cons hl (.cons _ _) => exact .pure (.some ⟨hl, rfl⟩)
  | succ n ih =>
    match hp with
    | .nil => exact .pure .none
    | .cons hn .nil => exact .pure (.some ⟨hn, rfl⟩)
    | .cons hl (.cons hr hrest) =>
      refine (h.pairUp (.cons hl (.cons hr hrest)) pending).bind ?_
      rintro v ⟨joins, left⟩ ⟨joins', _⟩ _ ⟨hjoins, rfl⟩
      exact ih hjoins left

variable [CostScale ν]

theorem grow (n : Nat) {g g' : Growth ν} (hg : AlikeGrowths P w g g') :
    C.Relates w (k.grow E n g) (l.grow E n g') (AlikeGrowths P) := by
  induction n generalizing g g' w with
  | zero => exact .pure hg
  | succ n ih =>
    rw [Steps.grow, Steps.grow, ← hg.pending]
    refine (h.candidates E hg.tree hg.remaining g.pending 0).bind fun v cs cs' hv hcs => ?_
    have hchoice := rel_cheapestBelow hcs CostScale.ceiling
    change Option.Rel _ (Search.cheapest? cs) (Search.cheapest? cs') at hchoice
    have hrest := hg.remaining.imp fun _ _ => h.mono_alike hv
    cases hc : Search.cheapest? cs with
    | none =>
      rw [hc] at hchoice
      cases hc' : Search.cheapest? cs' with
      | none => exact .pure ⟨h.mono_alike hv hg.tree, hrest, hg.pending⟩
      | some => rw [hc'] at hchoice; cases hchoice
    | some c =>
      rw [hc] at hchoice
      cases hc' : Search.cheapest? cs' with
      | none => rw [hc'] at hchoice; cases hchoice
      | some c' =>
        rw [hc'] at hchoice
        cases hchoice with
        | some hcc =>
          refine ih ⟨hcc.tree, ?_, hcc.pending⟩
          unfold Growth.commit
          rw [← hcc.position]
          exact forall₂_eraseIdx hrest c.position

theorem growAll (n : Nat) {trees trees' : List (Tree ν)}
    (ht : List.Forall₂ (Alike P w) trees trees') (pending : List Expr) :
    C.Relates w (k.growAll E n trees pending) (l.growAll E n trees' pending)
      fun v r r' => List.Forall₂ (P v) r.1 r'.1 ∧ r.2 = r'.2 := by
  induction n generalizing trees trees' pending w with
  | zero => exact .pure ⟨.nil, rfl⟩
  | succ n ih =>
    match ht with
    | .nil => exact .pure ⟨.nil, rfl⟩
    | @List.Forall₂.cons _ _ _ _ _ rest rest' hs hrest =>
      have hseed : AlikeGrowths P w ⟨_, rest, pending⟩ ⟨_, rest', pending⟩ := ⟨hs, hrest, rfl⟩
      rw [Steps.growAll, Steps.growAll, ← hrest.length_eq]
      refine (h.grow E rest.length hseed).bind fun v g g' hv hg => ?_
      rw [← hg.pending]
      refine (ih hg.remaining g.pending).bind fun v' r r' hv' hr => .pure ?_
      exact ⟨.cons (h.mono hv' hg.tree.1) hr.1, hr.2⟩

theorem combine {trees trees' : List (Tree ν)} (ht : List.Forall₂ (Alike P w) trees trees')
    (pending : List Expr) :
    C.Relates w (k.combine E trees pending) (l.combine E trees' pending)
      fun v => Option.Rel (AlikeSolutions P v) := by
  unfold Steps.combine
  rw [← ht.length_eq]
  refine (h.growAll E trees.length ht pending).bind ?_
  rintro v ⟨plans, left⟩ ⟨plans', _⟩ _ ⟨hplans, rfl⟩
  dsimp only
  rw [← hplans.length_eq]
  exact h.rounds plans.length hplans left

/-- Searches made of related steps are related, if a ranking of the members may panic in both. -/
theorem solve {members members' : List Node} (hp : k.Panics members → C.panics)
    (hm : List.Forall₂ (P w) members members') (residuals : List Expr) :
    C.Relates w (k.solve E members residuals) (l.solve E members' residuals)
      fun v => Option.Rel (AlikeSolutions P v) := by
  refine (Correspondence.Relates.mapM (I := P) (R := Alike P) h.mono h.mono_alike h.appraise
    hm).bind_of fun v a trees b _ trees' _ htrees _ _ ht => ?_
  exact (relates_ranking hp htrees ht).bind fun _ _ _ _ horder => h.combine E horder residuals

end Simulates

end Steps

/-- Two searches are related if all that they ask for is. -/
theorem Search.simulates {ω ν σ τ : Type} [World ω] {S : ω → Supply → Supply → Prop}
    {D : ω → Correspondence Unit (Estimates ν σ) (Estimates ν τ)} {panics : Prop}
    {P : ω → Node → Node → Prop} {s : Search ν σ} {t : Search ν τ} (hD : ∀ w, ¬ (D w).panics)
    (mono : ∀ {w w' m n}, World.Grows w w' → P w m n → P w' m n)
    (columns : ∀ {w m n}, P w m n → m.SameColumns n)
    (newJoin : ∀ {w m m' n n'} (j : Join), P w m m' → P w n n' →
      (Correspondence.sessions S D panics).Relates w (Planning.newJoin j m n)
        (Planning.newJoin j m' n') P)
    (estimate : ∀ {w m n}, P w m n → (D w).Relates () (Estimating.estimate s.estimator m)
      (Estimating.estimate t.estimator n) fun _ _ _ => True)
    (base : ∀ {w m n}, P w m n → (D w).Relates () (s.model.base s.estimator m)
      (t.model.base t.estimator n) fun _ c d => c = d)
    (join : ∀ {w m n} (left right : ν), P w m n →
      (D w).Relates () (s.model.join s.estimator m left right)
        (t.model.join t.estimator n left right) fun _ c d => c = d) :
    Steps.Simulates (.sessions S D panics) P s.steps t.steps where
  mono := mono
  columns := columns
  newJoin := newJoin
  appraise h := relates_estimating (hD _) ((estimate h).bind fun _ _ _ _ _ =>
    (base h).bind fun _ _ _ _ hc => .pure ⟨h, hc⟩)
  joinCost h hl hr := by
    refine relates_estimating (hD _) ((estimate h).bind fun _ _ _ _ _ => ?_)
    rw [← hl, ← hr]
    exact join _ _ h

/-- A search beside itself, where the nodes it makes are to have the property `P`. -/
theorem Search.simulates_self {ω ν σ : Type} [World ω] {S : ω → Supply → Supply → Prop}
    {P : ω → Node → Prop} (s : Search ν σ)
    (mono : ∀ {w w' m}, World.Grows w w' → P w m → P w' m)
    (newJoin : ∀ {w m n} (j : Join), P w m → P w n →
      (Correspondence.sessions S (fun _ => .same) True :
        Correspondence ω (Session ν σ) (Session ν σ)).Relates w
        (Planning.newJoin j m n) (Planning.newJoin j m n) fun v q r => q = r ∧ P v q) :
    Steps.Simulates (.sessions S (fun _ => .same) True) (fun w m n => m = n ∧ P w m) s.steps
      s.steps := by
  have hself {α : Type} (x : Estimating ν σ α) :
      Correspondence.same.Relates () x x fun _ r r' => r = r' := by
    rintro e _ rfl
    cases x e with
    | ok r b => exact .ok (v := ()) trivial rfl rfl
    | error f b => exact .error (v := ()) trivial rfl
  refine Search.simulates (fun _ => id) (fun hw h => ⟨h.1, mono hw h.2⟩) (fun h => ?_)
    (fun j h h' => ?_) (fun h => ?_) (fun h => ?_) fun left right h => ?_
  · rw [h.1]
    exact fun _ => rfl
  · obtain ⟨rfl, hm⟩ := h
    obtain ⟨rfl, hn⟩ := h'
    exact newJoin j hm hn
  · obtain ⟨rfl, -⟩ := h
    exact (hself _).imp fun _ _ _ _ _ => trivial
  all_goals
    obtain ⟨rfl, -⟩ := h
    exact hself _

end JoinOrder
