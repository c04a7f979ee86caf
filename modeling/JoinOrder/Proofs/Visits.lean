import JoinOrder.Proofs.Governed
import JoinOrder.Proofs.Postorder
import JoinOrder.Proofs.Recording

/-!
# One estimate after another

Estimates of plans that share nodes are asked for one after the other, and any of them may fail. What
is remembered stays, is closed, and is what deriving without a memory would give. The estimator
succeeds on no node twice, and a call that fails leaves the nodes above the failing one without an
estimate (`Visits.agree_with_derived`).
-/

namespace JoinOrder

/-- A call for the estimate of a node: the estimates around it, the calls to the estimator meanwhile,
and the answer. -/
structure Visit (ν σ : Type) where
  node : Node
  before : Estimates ν σ
  after : Estimates ν σ
  calls : List (Event ν)
  answer : Except Failure (Statistics ν)

/-- The visit of a node. -/
def Estimator.visit {ν σ : Type} (estimator : Estimator ν σ) (n : Node) (e : Estimates ν σ) :
    Visit ν σ :=
  match Estimating.estimate estimator.recorded n (e.watched []) with
  | .ok s e' => ⟨n, e, ⟨e'.memo, e'.env.1⟩, e'.env.2, .ok s⟩
  | .error f e' => ⟨n, e, ⟨e'.memo, e'.env.1⟩, e'.env.2, .error f⟩

/-- Visits of nodes in the stock, one after the other. The estimator's own state may change in
between. -/
def Visits {ν σ : Type} (estimator : Estimator ν σ) (h : Stock) : Memo ν → List (Visit ν σ) → Prop
  | _, [] => True
  | memo, v :: vs => h.has v.node ∧ v.before.memo = memo ∧ v = estimator.visit v.node v.before ∧
    Visits estimator h v.after.memo vs

section Erasure
variable {ν σ : Type} {estimator : Estimator ν σ} {n : Node} {e : Estimates ν σ}

/-- Estimates beside recorded ones, whatever has been written down. -/
def shadowing : Correspondence Unit (Estimates ν σ) (Estimates ν (σ × List (Event ν))) where
  holds _ e e' := ∃ log, e' = e.watched log
  fails _ _ e e' := ∃ log, e' = e.watched log

theorem shadowing_call (estimator : Estimator ν σ) (n : Node) (inputs : List (Statistics ν)) :
    shadowing.Relates () (Estimating.ofEnv (estimator n inputs))
      (Estimating.ofEnv (estimator.recorded n inputs)) fun _ s t => s = t := by
  rintro e _ ⟨log, rfl⟩
  unfold Estimating.ofEnv Action.onPart Estimator.recorded Action.recorded Estimates.watched
  dsimp only
  cases estimator n inputs e.env with
  | ok s env => exact .ok (v := ()) trivial ⟨_, rfl⟩ rfl
  | error f env => exact .error (v := ()) trivial ⟨_, rfl⟩

/-- A visit is what estimating the node does. -/
theorem Estimator.estimate_eq_visit (estimator : Estimator ν σ) (n : Node) (e : Estimates ν σ) :
    Estimating.estimate estimator n e =
      Action.ofExcept (estimator.visit n e).answer (estimator.visit n e).after := by
  have hmemo : Correspondence.SameMemo (shadowing (ν := ν) (σ := σ)) := by
    refine ⟨?_, ?_⟩
    · rintro _ e _ ⟨log, rfl⟩
      rfl
    · rintro _ e _ c s ⟨log, rfl⟩
      exact ⟨log, rfl⟩
  have hend := hmemo.estimate (shadowing_call estimator) n e (e.watched []) ⟨[], rfl⟩
  unfold visit
  generalize Estimating.estimate estimator n e = left at hend ⊢
  generalize Estimating.estimate estimator.recorded n (e.watched []) = right at hend ⊢
  cases hend with
  | ok _ h hq =>
    obtain ⟨log, rfl⟩ := h
    cases hq
    rfl
  | error _ h =>
    obtain ⟨log, rfl⟩ := h
    rfl
  | panic h | alone h => exact h.elim

end Erasure

/-- The event says that the node was derived from what is remembered of its inputs, and that this is
remembered of it. -/
def Event.Derives {ν : Type} (memo : Memo ν) (n : Node) (ev : Event ν) : Prop :=
  ∃ inputs s, ev = .derived n inputs (.ok s) ∧ memo n.cell = some s ∧
    List.Forall₂ (fun (i : Node) t => memo i.cell = some t) n.inputs inputs

/-- The node that the estimator succeeded on. -/
def Event.success? {ν : Type} : Event ν → Option Node
  | derived n _ (.ok _) => some n
  | _ => none

theorem success?_of_derives {ν : Type} {memo : Memo ν} {ms : List Node} {evs : List (Event ν)}
    (h : List.Forall₂ (Event.Derives memo) ms evs) : evs.filterMap Event.success? = ms := by
  induction h with
  | nil => rfl
  | cons hev _ ih =>
    obtain ⟨inputs, s, rfl, -, -⟩ := hev
    exact congrArg (_ :: ·) ih

namespace Estimating
variable {ν σ : Type} {estimator : Estimator ν σ} {h : Stock} {ms : List Node} {m n : Node}

theorem deriveEach_eq_error {e e' : Estimates ν σ} {f : Failure}
    (hrun : deriveEach estimator ms e = .error f e') : ∃ done m rest u, ms = done ++ m :: rest ∧
      deriveEach estimator done e = .ok () u ∧ derive estimator m u = .error f e' := by
  induction ms generalizing e with
  | nil => cases hrun
  | cons m ms ih =>
    rcases Action.bind_eq_error.1 hrun with hf | ⟨_, v, hv, hf⟩
    · exact ⟨[], m, ms, e, rfl, rfl, hf⟩
    · obtain ⟨done, k, rest, u, rfl, hdone, hk⟩ := ih hf
      exact ⟨m :: done, k, rest, u, rfl, Action.bind_eq_ok.2 ⟨(), v, hv, hdone⟩, hk⟩

theorem recorded_eq_ok {inputs : List (Statistics ν)} {env env' : σ} {log log' : List (Event ν)}
    {s : Statistics ν} (hs : estimator.recorded n inputs (env, log) = .ok s (env', log')) :
    estimator n inputs env = .ok s env' ∧ log' = log ++ [.derived n inputs (.ok s)] := by
  unfold Estimator.recorded Action.recorded at hs
  dsimp only at hs
  cases hcall : estimator n inputs env with
  | ok t env'' =>
    rw [hcall] at hs
    cases hs
    exact ⟨rfl, rfl⟩
  | error g env'' =>
    rw [hcall] at hs
    cases hs

theorem recorded_eq_error {inputs : List (Statistics ν)} {env env' : σ} {log log' : List (Event ν)}
    {f : Failure} (hf : estimator.recorded n inputs (env, log) = .error f (env', log')) :
    log' = log ++ [.derived n inputs (.error f)] := by
  unfold Estimator.recorded Action.recorded at hf
  dsimp only at hf
  cases hcall : estimator n inputs env with
  | ok t env'' =>
    rw [hcall] at hf
    cases hf
  | error g env'' =>
    rw [hcall] at hf
    cases hf
    rfl

theorem kept_of_derived {e e' : Estimates ν σ} {c : Nat} {s : Statistics ν}
    (hnew : ∀ m ∈ ms, ¬ e.memo.Has m) (hrun : deriveEach estimator ms e = .ok () e')
    (hs : e.memo c = some s) : e'.memo c = some s := by
  refine (memo_of_derived (fun m hm hcell => ?_) hrun).trans hs
  have hnone : e.memo m.cell = none := not_not.1 (hnew m hm)
  rw [hcell, hs] at hnone
  cases hnone

theorem forall₂_remembered {memo : Memo ν} {is : List Node} (h : ∀ i ∈ is, memo.Has i) :
    List.Forall₂ (fun (i : Node) t => memo i.cell = some t) is (is.filterMap fun i => memo i.cell) := by
  induction is with
  | nil => exact .nil
  | cons i is ih =>
    rw [List.forall_mem_cons] at h
    obtain ⟨t, ht⟩ := Option.ne_none_iff_exists'.1 h.1
    simp only [List.filterMap_cons, ht]
    exact .cons ht (ih h.2)

/-- What is written down while nodes are derived. -/
theorem events_of_derived {e e' : Estimates ν (σ × List (Event ν))} (hms : ∀ m ∈ ms, h.has m)
    (hnodup : ms.Nodup) (hnew : ∀ m ∈ ms, ¬ e.memo.Has m)
    (hfirst : Node.InputsFirst e.memo.Has ms)
    (hrun : deriveEach estimator.recorded ms e = .ok () e') :
    ∃ evs, e'.env.2 = e.env.2 ++ evs ∧ List.Forall₂ (Event.Derives e'.memo) ms evs := by
  induction ms generalizing e with
  | nil =>
    obtain ⟨-, rfl⟩ := Action.pure_eq_ok.1 hrun
    exact ⟨[], (List.append_nil _).symm, .nil⟩
  | cons m ms ih =>
    have hkept (c : Nat) (s : Statistics ν) := kept_of_derived (c := c) (s := s) hnew hrun
    rw [List.forall_mem_cons] at hms hnew
    rw [List.nodup_cons] at hnodup
    obtain ⟨_, u, hu, hrest⟩ := Action.bind_eq_ok.1 hrun
    obtain ⟨s, ⟨env, log⟩, hs, rfl⟩ := derive_eq_ok.1 hu
    obtain ⟨-, hlog⟩ := recorded_eq_ok hs
    have hcell : ∀ k ∈ ms, k.cell ≠ m.cell := fun k hk heq =>
      hnodup.1 (h.alone (hms.2 k hk) hms.1 heq ▸ hk)
    have hstill : ∀ k ∈ ms, ¬ Memo.Has (e.memo.insert m.cell s) k := by
      intro k hk
      unfold Memo.Has Memo.insert
      rw [if_neg (hcell k hk)]
      exact hnew.2 k hk
    obtain ⟨evs, hevs, hderives⟩ :=
      ih hms.2 hnodup.2 hstill (Memo.inputsFirst_insert hfirst.2) hrest
    let inputs := m.inputs.filterMap fun i => e.memo i.cell
    refine ⟨.derived m inputs (.ok s) :: evs, ?_, .cons ⟨inputs, s, rfl, ?_, ?_⟩ hderives⟩
    · rw [List.append_cons, ← hlog]
      exact hevs
    · exact (memo_of_derived hcell hrest).trans (if_pos rfl)
    · exact (forall₂_remembered hfirst.1).imp fun i t => hkept (Node.cell i) t

end Estimating

/-- What is remembered of nodes in the stock is what deriving without a memory gives. -/
def Memo.Right {ν : Type} (memo : Memo ν) (h : Stock)
    (answer : Node → List (Statistics ν) → Statistics ν) : Prop :=
  ∀ n s, h.has n → memo n.cell = some s → s = derived answer n

namespace Estimating
variable {ν σ : Type} {estimator : Estimator ν σ} {h : Stock}
  {answer : Node → List (Statistics ν) → Statistics ν}

theorem right_of_derived (hest : ∀ n inputs env s env', estimator n inputs env = .ok s env' →
      s = answer n inputs) {ms : List Node} {e e' : Estimates ν σ} (hms : ∀ m ∈ ms, h.has m)
    (hfirst : Node.InputsFirst e.memo.Has ms) (hr : e.memo.Right h answer)
    (hrun : deriveEach estimator ms e = .ok () e') : e'.memo.Right h answer := by
  induction ms generalizing e with
  | nil =>
    obtain ⟨-, rfl⟩ := Action.pure_eq_ok.1 hrun
    exact hr
  | cons m ms ih =>
    rw [List.forall_mem_cons] at hms
    obtain ⟨_, u, hu, hrest⟩ := Action.bind_eq_ok.1 hrun
    obtain ⟨s, env, hs, rfl⟩ := derive_eq_ok.1 hu
    refine ih hms.2 (Memo.inputsFirst_insert hfirst.2) (fun n t hn ht => ?_) hrest
    by_cases hcell : n.cell = m.cell
    · obtain rfl := h.alone hn hms.1 hcell
      obtain rfl : s = t := Option.some.inj ((if_pos rfl).symm.trans ht)
      rw [hest _ _ _ _ _ hs, derived_eq]
      rw [← List.filterMap_eq_map]
      refine congrArg (answer n) (List.filterMap_congr fun i hi => ?_)
      obtain ⟨r, hri⟩ := Option.ne_none_iff_exists'.1 (hfirst.1 i hi)
      rw [hri]
      exact congrArg some (hr i r (h.input hn hi) hri)
    · exact hr n t hn ((if_neg hcell).symm.trans ht)

end Estimating

namespace Node

theorem InputsFirst.left {known : Node → Prop} {ms ns : List Node}
    (h : InputsFirst known (ms ++ ns)) : InputsFirst known ms := by
  induction ms generalizing known with
  | nil => trivial
  | cons m ms ih => exact ⟨h.1, ih h.2⟩

end Node

namespace Visit
variable {ν σ : Type}

/-- The nodes that the estimator succeeded on. -/
def successes (v : Visit ν σ) : List Node := v.calls.filterMap Event.success?

/-- The visit keeps what is remembered, and derives what the node owes, as far as that succeeds. -/
structure Proper (v : Visit ν σ) (h : Stock) : Prop where
  kept : ∀ c s, v.before.memo c = some s → v.after.memo c = some s
  closed : ∀ n, h.has n → v.after.memo.Has n → ∀ m ∈ n.preorder, v.after.memo.Has m
  ok : ∀ s, v.answer = .ok s → v.after.memo v.node.cell = some s ∧
    List.Forall₂ (Event.Derives v.after.memo) (v.before.memo.owes v.node) v.calls
  error : ∀ f, v.answer = .error f → ∃ done m rest evs inputs,
    v.before.memo.owes v.node = done ++ m :: rest ∧
    v.calls = evs ++ [.derived m inputs (.error f)] ∧
    List.Forall₂ (Event.Derives v.after.memo) done evs ∧
    ∀ n, h.has n → m ∈ n.preorder → ¬ v.after.memo.Has n

end Visit

section Visiting
variable {ν σ : Type} {estimator : Estimator ν σ} {h : Stock} {n : Node} {e : Estimates ν σ}

open Estimating

theorem visit_cases (estimator : Estimator ν σ) (hn : h.has n) (hc : e.memo.ClosedOn h) :
    (∃ s u, deriveEach estimator.recorded (e.memo.owes n) (e.watched []) = .ok () u ∧
      u.memo n.cell = some s ∧
      estimator.visit n e = ⟨n, e, ⟨u.memo, u.env.1⟩, u.env.2, .ok s⟩) ∨
    ∃ f u, deriveEach estimator.recorded (e.memo.owes n) (e.watched []) = .error f u ∧
      estimator.visit n e = ⟨n, e, ⟨u.memo, u.env.1⟩, u.env.2, .error f⟩ := by
  have hends := endsLike_estimate estimator.recorded (e := e.watched []) hn hc
  unfold Estimator.visit
  cases hrun : deriveEach estimator.recorded (e.memo.owes n) (e.watched []) with
  | ok _ u =>
    obtain ⟨s, hest, hs⟩ := hends.1 u hrun
    rw [hest]
    exact .inl ⟨s, u, rfl, hs, rfl⟩
  | error f u =>
    rw [hends.2 f u hrun]
    exact .inr ⟨f, u, rfl, rfl⟩

theorem proper_visit (hn : h.has n) (hc : e.memo.ClosedOn h) : (estimator.visit n e).Proper h := by
  have hms : ∀ m ∈ e.memo.owes n, h.has m := fun m hm => h.has_below hn (Memo.mem_owes.1 hm).1
  have hnew : ∀ m ∈ e.memo.owes n, ¬ e.memo.Has m := fun m hm => (Memo.mem_owes.1 hm).2
  have hfirst := e.memo.inputsFirst_owes n
  rcases visit_cases estimator hn hc with ⟨s, u, hu, hs, hv⟩ | ⟨f, u, hu, hv⟩
  · obtain ⟨evs, hlog, hevs⟩ := events_of_derived hms (e.memo.nodup_owes n) hnew hfirst hu
    have hclosed : u.memo.ClosedOn h := closedOn_of_derived hms hfirst hc hu
    rw [hv]
    refine ⟨fun c t => kept_of_derived (e := e.watched []) hnew hu,
      fun k hk hhas => hclosed.below hk hhas, fun t ht => ?_, nofun⟩
    cases ht
    rw [hlog]
    exact ⟨hs, hevs⟩
  · obtain ⟨done, m, rest, w, howes, hw, hfail⟩ := deriveEach_eq_error hu
    obtain ⟨⟨env, log⟩, hcall, rfl⟩ := derive_eq_error.1 hfail
    have hlast := recorded_eq_error hcall
    have hnodup := e.memo.nodup_owes n
    rw [howes] at hms hnew hnodup hfirst
    rw [List.forall_mem_append, List.forall_mem_cons] at hms hnew
    rw [List.nodup_append, List.nodup_cons] at hnodup
    obtain ⟨evs, hlog, hevs⟩ := events_of_derived hms.1 hnodup.1 hnew.1 hfirst.left hw
    have hclosed : w.memo.ClosedOn h := closedOn_of_derived hms.1 hfirst.left hc hw
    rw [hv]
    refine ⟨fun c t => kept_of_derived (e := e.watched []) hnew.1 hw,
      fun k hk hhas => hclosed.below hk hhas, nofun, fun g hg => ?_⟩
    cases hg
    refine ⟨done, m, rest, evs, _, howes, hlast.trans (congrArg (· ++ _) hlog), hevs, ?_⟩
    -- a node above the failing one would have to remember that as well
    intro k hk hmem hhas
    rcases (has_of_derived hms.1 hms.2.1 hw).1 (hclosed.below hk hhas m hmem) with hold | hdone
    · exact hnew.2.1 hold
    · exact hnodup.2.2 m hdone m (List.mem_cons_self ..) rfl

theorem right_visit {answer : Node → List (Statistics ν) → Statistics ν}
    (hest : ∀ n inputs env s env', estimator n inputs env = .ok s env' → s = answer n inputs)
    (hn : h.has n) (hc : e.memo.ClosedOn h) (hr : e.memo.Right h answer) :
    (estimator.visit n e).after.memo.Right h answer := by
  have hrecorded : ∀ n inputs env s env', estimator.recorded n inputs env = .ok s env' →
      s = answer n inputs := by
    rintro n inputs ⟨env, log⟩ s ⟨env', log'⟩ hs
    exact hest _ _ _ _ _ (recorded_eq_ok hs).1
  have hms : ∀ m ∈ e.memo.owes n, h.has m := fun m hm => h.has_below hn (Memo.mem_owes.1 hm).1
  have hfirst := e.memo.inputsFirst_owes n
  rcases visit_cases estimator hn hc with ⟨s, u, hu, -, hv⟩ | ⟨f, u, hu, hv⟩
  · rw [hv]
    exact right_of_derived hrecorded hms hfirst hr hu
  · obtain ⟨done, m, rest, w, howes, hw, hfail⟩ := deriveEach_eq_error hu
    obtain ⟨⟨env, log⟩, -, rfl⟩ := derive_eq_error.1 hfail
    rw [howes] at hms hfirst
    rw [hv]
    exact right_of_derived hrecorded (List.forall_mem_append.1 hms).1 hfirst.left hr hw

end Visiting

namespace Visit.Proper
variable {ν σ : Type} {v : Visit ν σ} {h : Stock} (hv : v.Proper h)
include hv

theorem closedOn : v.after.memo.ClosedOn h := fun n hn hhas i hi =>
  hv.closed n hn hhas i (Node.mem_preorder_of_input hi i.mem_preorder_self)

/-- The estimator succeeds on nodes that nothing was remembered of, and on each of them once. -/
theorem successes : v.successes.Nodup ∧
    ∀ n ∈ v.successes, ¬ v.before.memo.Has n ∧ v.after.memo.Has n := by
  have hremembered {ms : List Node} {evs : List (Event ν)}
      (h : List.Forall₂ (Event.Derives v.after.memo) ms evs) : ∀ m ∈ ms, v.after.memo.Has m := by
    intro m hm
    obtain ⟨ev, -, inputs, s, -, hs, -⟩ := exists_of_mem_left h hm
    unfold Memo.Has
    rw [hs]
    simp
  have howes {ms : List Node} (hpre : ms.Sublist (v.before.memo.owes v.node)) :
      ms.Nodup ∧ ∀ n ∈ ms, ¬ v.before.memo.Has n :=
    ⟨(v.before.memo.nodup_owes v.node).sublist hpre, fun n hn =>
      (Memo.mem_owes.1 (hpre.subset hn)).2⟩
  unfold Visit.successes
  cases ha : v.answer with
  | ok s =>
    obtain ⟨-, hevs⟩ := hv.ok s ha
    rw [success?_of_derives hevs]
    obtain ⟨hnodup, hnew⟩ := howes (.refl _)
    exact ⟨hnodup, fun n hn => ⟨hnew n hn, hremembered hevs n hn⟩⟩
  | error f =>
    obtain ⟨done, m, rest, evs, inputs, hsplit, hcalls, hevs, -⟩ := hv.error f ha
    rw [hcalls, List.filterMap_append, success?_of_derives hevs]
    obtain ⟨hnodup, hnew⟩ := howes (hsplit ▸ List.sublist_append_left done (m :: rest))
    have hlast : [.derived m inputs (.error f)].filterMap (Event.success? (ν := ν)) = [] := rfl
    rw [hlast, List.append_nil]
    exact ⟨hnodup, fun n hn => ⟨hnew n hn, hremembered hevs n hn⟩⟩

end Visit.Proper

namespace Visits
variable {ν σ : Type} {estimator : Estimator ν σ} {h : Stock} {memo : Memo ν}
  {vs : List (Visit ν σ)}

theorem proper (hc : memo.ClosedOn h) (hvs : Visits estimator h memo vs) :
    (∀ v ∈ vs, v.Proper h) ∧ (vs.flatMap Visit.successes).Nodup ∧
      ∀ n ∈ vs.flatMap Visit.successes, ¬ memo.Has n := by
  induction vs generalizing memo with
  | nil => simp
  | cons v vs ih =>
    obtain ⟨hn, rfl, hv, hrest⟩ := hvs
    have hproper : v.Proper h := hv ▸ proper_visit hn hc
    obtain ⟨hall, hnodup, hnew⟩ := ih hproper.closedOn hrest
    obtain ⟨hnodup', hsuccesses⟩ := hproper.successes
    refine ⟨List.forall_mem_cons.2 ⟨hproper, hall⟩, ?_, fun n hn hhas => ?_⟩
    · rw [List.flatMap_cons, List.nodup_append]
      refine ⟨hnodup', hnodup, fun m hm k hk heq => ?_⟩
      exact hnew k hk (heq ▸ (hsuccesses m hm).2)
    · rw [List.flatMap_cons, List.mem_append] at hn
      rcases hn with hn | hn
      · exact (hsuccesses n hn).1 hhas
      · obtain ⟨s, hs⟩ := Option.ne_none_iff_exists'.1 hhas
        have hkept := hproper.kept n.cell s hs
        refine hnew n hn ?_
        unfold Memo.Has
        rw [hkept]
        simp

theorem right {answer : Node → List (Statistics ν) → Statistics ν}
    (hest : ∀ n inputs env s env', estimator n inputs env = .ok s env' → s = answer n inputs)
    (hc : memo.ClosedOn h) (hr : memo.Right h answer) (hvs : Visits estimator h memo vs) :
    ∀ v ∈ vs, v.after.memo.Right h answer := by
  induction vs generalizing memo with
  | nil => simp
  | cons v vs ih =>
    obtain ⟨hn, rfl, hv, hrest⟩ := hvs
    have hproper : v.Proper h := hv ▸ proper_visit hn hc
    have hright : v.after.memo.Right h answer := hv ▸ right_visit hest hn hc hr
    exact List.forall_mem_cons.2 ⟨hright, ih hproper.closedOn hright hrest⟩

theorem of_mem (hvs : Visits estimator h memo vs) :
    ∀ v ∈ vs, h.has v.node ∧ v = estimator.visit v.node v.before := by
  induction vs generalizing memo with
  | nil => simp
  | cons v vs ih =>
    obtain ⟨hn, -, hv, hrest⟩ := hvs
    exact List.forall_mem_cons.2 ⟨⟨hn, hv⟩, ih hrest⟩

/-- Whatever nodes are visited one after the other, every visit estimates its node and is proper, the
estimator succeeds on no node twice, and if its answers go by the node and the estimates of the
inputs, every answer is what deriving without a memory gives. -/
theorem agree_with_derived (hvs : Visits estimator h Memo.empty vs) :
    (∀ v ∈ vs, v.Proper h ∧
      Estimating.estimate estimator v.node v.before = Action.ofExcept v.answer v.after) ∧
    (vs.flatMap Visit.successes).Nodup ∧
    ∀ answer, (∀ n inputs env s env', estimator n inputs env = .ok s env' → s = answer n inputs) →
      ∀ v ∈ vs, ∀ s, v.answer = .ok s → s = derived answer v.node := by
  have hclosed : (Memo.empty : Memo ν).ClosedOn h := Memo.closedOn_empty h
  obtain ⟨hproper, hnodup, -⟩ := hvs.proper hclosed
  refine ⟨fun v hv => ⟨hproper v hv, ?_⟩, hnodup, fun answer hest v hv s hs => ?_⟩
  · have hvisit := estimator.estimate_eq_visit v.node v.before
    rwa [← (hvs.of_mem v hv).2] at hvisit
  · exact hvs.right hest hclosed nofun v hv v.node s (hvs.of_mem v hv).1 ((hproper v hv).ok s hs).1

/-- An estimator that fails when it is called for the second time. -/
def failingOnce : Estimator ℕ ℕ := fun _ _ calls =>
  if calls = 1 then .error (.collaborator "busy") (calls + 1) else .ok (.ofRows 10) (calls + 1)

theorem agree_with_derived_sharedTable : ∃ v w : Visit ℕ ℕ,
    v.node = sharedTable ∧ w.node = sharedTable ∧ v.answer = .error (.collaborator "busy") ∧
      w.answer = .ok (.ofRows 10) ∧ (v.successes ++ w.successes).Nodup ∧
      Statistics.ofRows 10 = derived (fun _ _ => .ofRows 10) sharedTable := by
  have ha : (Session.unused 2).Houses [sharedTable] := ⟨by decide, by decide, nofun⟩
  have hn : ha.stock.has sharedTable := by
    change sharedTable ∈ [sharedTable].flatMap Node.preorder
    decide
  let v := failingOnce.visit sharedTable ⟨Memo.empty, 0⟩
  let w := failingOnce.visit sharedTable v.after
  have hvs : Visits failingOnce ha.stock Memo.empty [v, w] :=
    ⟨hn, rfl, rfl, hn, rfl, rfl, trivial⟩
  obtain ⟨-, hnodup, hright⟩ := hvs.agree_with_derived
  have hest : ∀ (n : Node) inputs env s env', failingOnce n inputs env = .ok s env' →
      s = .ofRows 10 := by
    intro n inputs env s env' hs
    unfold failingOnce at hs
    split at hs <;> cases hs
    rfl
  refine ⟨v, w, rfl, rfl, rfl, rfl, by simpa using hnodup, ?_⟩
  exact hright (fun _ _ => .ofRows 10) hest w (by simp) _ rfl

end Visits

end JoinOrder
