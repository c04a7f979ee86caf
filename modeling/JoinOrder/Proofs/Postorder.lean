import JoinOrder.Proofs.Prospects

/-!
# Estimates in postorder

To estimate a plan is to derive, one after the other, the nodes that nothing is remembered of
(`Estimating.endsLike_estimate`). They are taken in postorder, each where it comes first. For that,
what is remembered has to be closed: of a node that is remembered, all inputs are.
-/

namespace JoinOrder

namespace Node

/-- All nodes, each after its inputs and those from left to right. -/
def postorder : Node → List Node
  | scan t s => [scan t s]
  | unary t op input => input.postorder ++ [unary t op input]
  | join t j left right => left.postorder ++ right.postorder ++ [join t j left right]

theorem mem_postorder {m n : Node} : m ∈ n.postorder ↔ m ∈ n.preorder := by
  induction n with
  | scan => simp [postorder, preorder]
  | unary tag op i ih => simp [postorder, preorder, ih, or_comm]
  | join tag j l r ihl ihr =>
    rw [postorder, preorder, List.mem_append, List.mem_append, List.mem_singleton, List.mem_cons,
      List.mem_append, ihl, ihr]
    exact or_comm

theorem not_mem_preorder_of_input {i n : Node} (hi : i ∈ n.inputs) : n ∉ i.preorder := fun hn =>
  absurd (height_le hn) (Nat.not_le_of_lt (height_lt hi))

/-- Every node of the list has its inputs among the known ones and those before it. -/
def InputsFirst (known : Node → Prop) : List Node → Prop
  | [] => True
  | m :: ms => (∀ i ∈ m.inputs, known i) ∧ InputsFirst (fun k => k = m ∨ known k) ms

namespace InputsFirst
variable {known known' : Node → Prop} {ms ns : List Node}

theorem mono (h : InputsFirst known ms) (hk : ∀ n, known n → known' n) : InputsFirst known' ms := by
  induction ms generalizing known known' with
  | nil => trivial
  | cons m ms ih => exact ⟨fun i hi => hk i (h.1 i hi), ih h.2 fun n hn => hn.imp_right (hk n)⟩

theorem append (h : InputsFirst known ms) (h' : InputsFirst (fun k => k ∈ ms ∨ known k) ns) :
    InputsFirst known (ms ++ ns) := by
  induction ms generalizing known with
  | nil => exact h'.mono fun n hn => hn.resolve_left List.not_mem_nil
  | cons m ms ih =>
    refine ⟨h.1, ih h.2 (h'.mono fun n hn => ?_)⟩
    rw [List.mem_cons] at hn
    tauto

/-- Known nodes can be left out. -/
theorem filter (h : InputsFirst known ms) {p : Node → Bool} (hp : ∀ m, p m = false → known m) :
    InputsFirst known (ms.filter p) := by
  induction ms generalizing known with
  | nil => trivial
  | cons m ms ih =>
    have hrest := ih h.2 fun k hk => .inr (hp k hk)
    rw [List.filter_cons]
    split
    · exact ⟨h.1, hrest⟩
    · rename_i hm
      refine hrest.mono fun n hn => ?_
      rcases hn with rfl | hn
      · exact hp n (by simpa using hm)
      · exact hn

theorem of_firsts (h : InputsFirst known ms) : InputsFirst known (firsts ms) := by
  induction ms generalizing known with
  | nil => trivial
  | cons m ms ih =>
    rw [firsts]
    exact ⟨h.1, (ih h.2).filter fun k hk => .inl (by simpa using hk)⟩

end InputsFirst

theorem inputsFirst_postorder (n : Node) : InputsFirst (fun _ => False) n.postorder := by
  have hself (m : Node) : m ∈ m.postorder := mem_postorder.2 m.mem_preorder_self
  induction n with
  | scan => exact ⟨fun i hi => (List.not_mem_nil hi).elim, trivial⟩
  | unary tag op i ih =>
    refine ih.append ⟨fun k hk => ?_, trivial⟩
    rw [inputs, List.mem_singleton] at hk
    exact .inl (hk ▸ hself i)
  | join tag j l r ihl ihr =>
    refine (ihl.append (ihr.mono fun _ h => h.elim)).append ⟨fun k hk => ?_, trivial⟩
    rw [inputs, List.mem_pair] at hk
    rcases hk with rfl | rfl
    · exact .inl (List.mem_append_left _ (hself k))
    · exact .inl (List.mem_append_right _ (hself k))

end Node

namespace Memo
variable {ν : Type} {memo : Memo ν} {h : Stock} {n m : Node}

/-- Something is remembered of the node. -/
def Has (memo : Memo ν) (n : Node) : Prop := memo n.cell ≠ none

/-- Of the inputs of a node that is remembered, all are. -/
def ClosedOn (memo : Memo ν) (h : Stock) : Prop :=
  ∀ n, h.has n → memo.Has n → ∀ i ∈ n.inputs, memo.Has i

/-- The nodes of a plan that nothing is remembered of, in postorder. -/
def owes (memo : Memo ν) (n : Node) : List Node :=
  (firsts n.postorder).filter fun m => (memo m.cell).isNone

theorem mem_owes : m ∈ memo.owes n ↔ m ∈ n.preorder ∧ ¬ memo.Has m := by
  unfold owes Has
  rw [List.mem_filter, mem_firsts, Node.mem_postorder, Option.isNone_iff_eq_none, not_not]

theorem nodup_owes (memo : Memo ν) (n : Node) : (memo.owes n).Nodup :=
  (nodup_firsts _).filter _

theorem closedOn_empty (h : Stock) : (empty : Memo ν).ClosedOn h := fun _ _ hn => absurd rfl hn

theorem has_insert {c : Nat} {s : Statistics ν} (hn : memo.Has n) : (memo.insert c s).Has n := by
  unfold Has insert at *
  split
  · simp
  · exact hn

theorem inputsFirst_insert {ms : List Node} {s : Statistics ν}
    (hms : Node.InputsFirst (fun k => k = n ∨ memo.Has k) ms) :
    Node.InputsFirst (memo.insert n.cell s).Has ms := by
  refine hms.mono fun k hk => ?_
  rcases hk with rfl | hk
  · simp [Has, insert]
  · exact has_insert hk

theorem ClosedOn.below (hc : memo.ClosedOn h) (hn : h.has n) (hm : memo.Has n) :
    ∀ k ∈ n.preorder, memo.Has k := by
  induction n with
  | scan => exact List.forall_mem_singleton.2 hm
  | unary tag op i ih =>
    have hi : i ∈ (Node.unary tag op i).inputs := List.mem_singleton_self i
    exact List.forall_mem_cons.2 ⟨hm, ih (h.input hn hi) (hc _ hn hm i hi)⟩
  | join tag j l r ihl ihr =>
    have hl : l ∈ (Node.join tag j l r).inputs := List.mem_cons_self ..
    have hr : r ∈ (Node.join tag j l r).inputs := List.mem_cons_of_mem _ (List.mem_singleton_self r)
    exact List.forall_mem_cons.2 ⟨hm, List.forall_mem_append.2
      ⟨ihl (h.input hn hl) (hc _ hn hm l hl), ihr (h.input hn hr) (hc _ hn hm r hr)⟩⟩

/-- A node whose inputs are remembered may be. -/
theorem ClosedOn.insert {s : Statistics ν} (hc : memo.ClosedOn h) (hn : h.has n)
    (hi : ∀ i ∈ n.inputs, memo.Has i) : (memo.insert n.cell s).ClosedOn h := by
  intro m hm hhas i him
  by_cases hcell : m.cell = n.cell
  · obtain rfl := h.alone hm hn hcell
    exact has_insert (hi i him)
  · have hold : memo.Has m := by
      unfold Has Memo.insert at hhas
      rwa [if_neg hcell] at hhas
    exact has_insert (hc m hm hold i him)

theorem inputsFirst_owes (memo : Memo ν) (n : Node) : Node.InputsFirst memo.Has (memo.owes n) := by
  have hall : Node.InputsFirst memo.Has (firsts n.postorder) :=
    (n.inputsFirst_postorder.mono fun _ h => h.elim).of_firsts
  refine hall.filter fun m hm => ?_
  unfold Has
  rw [Option.isNone_eq_false_iff, Option.isSome_iff_ne_none] at hm
  exact hm

theorem owes_of_has (hc : memo.ClosedOn h) (hn : h.has n) (hm : memo.Has n) : memo.owes n = [] :=
  List.eq_nil_iff_forall_not_mem.2 fun k hk =>
    (mem_owes.1 hk).2 (hc.below hn hm k (mem_owes.1 hk).1)

theorem owes_concat (ms : List Node) (hp : n.postorder = ms ++ [n]) (hn : n ∉ ms)
    (hm : ¬ memo.Has n) :
    memo.owes n = ((firsts ms).filter fun m => (memo m.cell).isNone) ++ [n] := by
  unfold Has at hm
  rw [not_not] at hm
  unfold owes
  rw [hp, firsts_append, List.filter_append]
  simp [firsts, hn, hm]

theorem owes_scan {tag : Tag} {s : TableScan} (hm : ¬ memo.Has (.scan tag s)) :
    memo.owes (.scan tag s) = [.scan tag s] := owes_concat [] rfl (by simp) hm

theorem owes_unary {tag : Tag} {op : UnaryOp} {i : Node} (hm : ¬ memo.Has (.unary tag op i)) :
    memo.owes (.unary tag op i) = memo.owes i ++ [.unary tag op i] := by
  refine owes_concat _ rfl ?_ hm
  rw [Node.mem_postorder]
  exact Node.not_mem_preorder_of_input (List.mem_singleton_self i)

theorem owes_join {tag : Tag} {j : Join} {l r : Node} (hm : ¬ memo.Has (.join tag j l r)) :
    memo.owes (.join tag j l r) =
      memo.owes l ++ (memo.owes r).filter (· ∉ l.postorder) ++ [.join tag j l r] := by
  have hl : Node.join tag j l r ∉ l.postorder := fun hn =>
    Node.not_mem_preorder_of_input (List.mem_cons_self ..) (Node.mem_postorder.1 hn)
  have hr : Node.join tag j l r ∉ r.postorder := fun hn =>
    Node.not_mem_preorder_of_input (List.mem_cons_of_mem _ (List.mem_singleton_self r))
      (Node.mem_postorder.1 hn)
  rw [owes_concat (l.postorder ++ r.postorder) rfl (by simp [hl, hr]) hm, firsts_append,
    List.filter_append, List.filter_comm]
  rfl

/-- Once the nodes owed for one plan are remembered, less is owed for another one. -/
theorem owes_of_has_owes {memo' : Memo ν}
    (hmemo : ∀ k ∈ m.preorder, memo'.Has k ↔ memo.Has k ∨ k ∈ memo.owes n) :
    memo'.owes m = (memo.owes m).filter (· ∉ n.postorder) := by
  unfold owes
  rw [List.filter_filter]
  refine List.filter_congr fun k hk => ?_
  rw [mem_firsts, Node.mem_postorder] at hk
  have hiff := hmemo k hk
  rw [mem_owes, ← Node.mem_postorder] at hiff
  unfold Has at hiff
  rw [Bool.eq_iff_iff, Bool.and_eq_true, Option.isNone_iff_eq_none, Option.isNone_iff_eq_none,
    decide_eq_true_eq]
  tauto

end Memo

theorem Stock.has_below {h : Stock} {m n : Node} (hn : h.has n) (hm : m ∈ n.preorder) : h.has m := by
  induction n with
  | scan => exact List.mem_singleton.1 hm ▸ hn
  | unary tag op i ih =>
    rcases List.mem_cons.1 hm with rfl | hm
    · exact hn
    · exact ih (h.input hn (List.mem_singleton_self i)) hm
  | join tag j l r ihl ihr =>
    rcases List.mem_cons.1 hm with rfl | hm
    · exact hn
    · rcases List.mem_append.1 hm with hm | hm
      · exact ihl (h.input hn (List.mem_cons_self ..)) hm
      · exact ihr (h.input hn (List.mem_cons_of_mem _ (List.mem_singleton_self r))) hm

namespace Estimating
variable {ν σ : Type} (estimator : Estimator ν σ)

/-- Lets the estimator look at a node whose inputs are remembered, and remembers what it says. -/
def derive (n : Node) : Estimating ν σ Unit := do
  let e ← get
  let s ← ofEnv (estimator n (n.inputs.filterMap fun i => e.memo i.cell))
  modify fun e => { e with memo := e.memo.insert n.cell s }

def deriveEach : List Node → Estimating ν σ Unit
  | [] => return ()
  | n :: ns => do
    derive estimator n
    deriveEach ns

variable {estimator} {h : Stock} {n : Node} {e e' : Estimates ν σ} {f : Failure}
  {s : Statistics ν}

theorem estimate_of_memo (hs : e.memo n.cell = some s) : estimate estimator n e = .ok s e := by
  have hremember (x : Estimating ν σ (Statistics ν)) : remember n.cell x e = .ok s e := by
    refine Action.bind_eq_ok.2 ⟨e, e, rfl, ?_⟩
    rw [hs]
    rfl
  cases n <;> exact hremember _

theorem derive_eq_ok : derive estimator n e = .ok () e' ↔ ∃ s env,
    estimator n (n.inputs.filterMap fun i => e.memo i.cell) e.env = .ok s env ∧
      e' = ⟨e.memo.insert n.cell s, env⟩ := by
  constructor
  · intro h
    obtain ⟨_, _, hget, h⟩ := Action.bind_eq_ok.1 h
    cases hget
    obtain ⟨s, u, hs, h⟩ := Action.bind_eq_ok.1 h
    obtain ⟨env, hcall, rfl⟩ := Action.onPart_eq_ok.1 hs
    cases h
    exact ⟨s, env, hcall, rfl⟩
  · rintro ⟨s, env, hs, rfl⟩
    refine Action.bind_eq_ok.2 ⟨e, e, rfl, ?_⟩
    exact Action.bind_eq_ok.2 ⟨s, _, Action.onPart_eq_ok.2 ⟨env, hs, rfl⟩, rfl⟩

theorem derive_eq_error : derive estimator n e = .error f e' ↔ ∃ env,
    estimator n (n.inputs.filterMap fun i => e.memo i.cell) e.env = .error f env ∧
      e' = ⟨e.memo, env⟩ := by
  constructor
  · intro h
    rcases Action.bind_eq_error.1 h with h | ⟨_, _, hget, h⟩
    · cases h
    · cases hget
      rcases Action.bind_eq_error.1 h with h | ⟨s, u, -, h⟩
      · obtain ⟨env, hf, rfl⟩ := Action.onPart_eq_error.1 h
        exact ⟨env, hf, rfl⟩
      · cases h
  · rintro ⟨env, hf, rfl⟩
    refine Action.bind_eq_error.2 (.inr ⟨e, e, rfl, ?_⟩)
    exact Action.bind_eq_error.2 (.inl (Action.onPart_eq_error.2 ⟨env, hf, rfl⟩))

/-- Deriving nodes makes them remembered, and no others. -/
theorem has_of_derived {ms : List Node} (hms : ∀ m ∈ ms, h.has m) (hn : h.has n)
    (hrun : deriveEach estimator ms e = .ok () e') :
    e'.memo.Has n ↔ e.memo.Has n ∨ n ∈ ms := by
  induction ms generalizing e with
  | nil =>
    obtain ⟨-, rfl⟩ := Action.pure_eq_ok.1 hrun
    simp
  | cons m ms ih =>
    rw [List.forall_mem_cons] at hms
    obtain ⟨_, u, hu, hrun⟩ := Action.bind_eq_ok.1 hrun
    obtain ⟨s, env, -, rfl⟩ := derive_eq_ok.1 hu
    rw [ih hms.2 hrun, List.mem_cons, ← or_assoc]
    refine or_congr_left ?_
    unfold Memo.Has Memo.insert
    dsimp only
    by_cases hcell : n.cell = m.cell
    · simp [h.alone hn hms.1 hcell]
    · have hne : n ≠ m := fun heq => hcell (congrArg Node.cell heq)
      simp [hcell, hne]

theorem memo_of_derived {ms : List Node} {c : Nat} (hc : ∀ m ∈ ms, m.cell ≠ c)
    (hrun : deriveEach estimator ms e = .ok () e') : e'.memo c = e.memo c := by
  induction ms generalizing e with
  | nil =>
    obtain ⟨-, rfl⟩ := Action.pure_eq_ok.1 hrun
    rfl
  | cons m ms ih =>
    rw [List.forall_mem_cons] at hc
    obtain ⟨_, u, hu, hrun⟩ := Action.bind_eq_ok.1 hrun
    obtain ⟨s, env, -, rfl⟩ := derive_eq_ok.1 hu
    exact (ih hc.2 hrun).trans (if_neg (Ne.symm hc.1))

theorem closedOn_of_derived {ms : List Node} (hms : ∀ m ∈ ms, h.has m)
    (hfirst : Node.InputsFirst e.memo.Has ms) (hc : e.memo.ClosedOn h)
    (hrun : deriveEach estimator ms e = .ok () e') : e'.memo.ClosedOn h := by
  induction ms generalizing e with
  | nil =>
    obtain ⟨-, rfl⟩ := Action.pure_eq_ok.1 hrun
    exact hc
  | cons m ms ih =>
    rw [List.forall_mem_cons] at hms
    obtain ⟨_, u, hu, hrun⟩ := Action.bind_eq_ok.1 hrun
    obtain ⟨s, env, -, rfl⟩ := derive_eq_ok.1 hu
    exact ih hms.2 (Memo.inputsFirst_insert hfirst.2) (hc.insert hms.1 hfirst.1) hrun

section Endings
variable {α β : Type} {x : Estimating ν σ α} {y z : Estimating ν σ Unit}
  {Q : Estimates ν σ → α → Prop} {R : Estimates ν σ → β → Prop}

/-- From the state `e`, the step ends as `y` does, and if that succeeds, with such a result. -/
def EndsLike (e : Estimates ν σ) (x : Estimating ν σ α) (y : Estimating ν σ Unit)
    (Q : Estimates ν σ → α → Prop) : Prop :=
  (∀ e', y e = .ok () e' → ∃ r, x e = .ok r e' ∧ Q e' r) ∧
    ∀ f e', y e = .error f e' → x e = .error f e'

theorem EndsLike.congr {x' : Estimating ν σ α} (hx : EndsLike e x y Q) (h : x' e = x e) :
    EndsLike e x' y Q := by
  unfold EndsLike
  rw [h]
  exact hx

theorem EndsLike.bind {k : α → Estimating ν σ β} (hx : EndsLike e x y Q)
    (hk : ∀ u r, y e = .ok () u → Q u r → EndsLike u (k r) z R) :
    EndsLike e (x >>= k) (y >>= fun _ => z) R := by
  constructor
  · intro e' h
    obtain ⟨_, u, hu, hz⟩ := Action.bind_eq_ok.1 h
    obtain ⟨r, hr, hq⟩ := hx.1 u hu
    obtain ⟨c, hc, hR⟩ := (hk u r hu hq).1 e' hz
    exact ⟨c, Action.bind_eq_ok.2 ⟨r, u, hr, hc⟩, hR⟩
  · intro f e' h
    refine Action.bind_eq_error.2 ?_
    rcases Action.bind_eq_error.1 h with hf | ⟨_, u, hu, hf⟩
    · exact .inl (hx.2 f e' hf)
    · obtain ⟨r, hr, hq⟩ := hx.1 u hu
      exact .inr ⟨r, u, hr, (hk u r hu hq).2 f e' hf⟩

theorem EndsLike.and (hx : EndsLike e x y Q) {P : Estimates ν σ → Prop}
    (hP : ∀ e', y e = .ok () e' → P e') : EndsLike e x y fun e' r => P e' ∧ Q e' r := by
  refine ⟨fun e' h => ?_, hx.2⟩
  obtain ⟨r, hr, hq⟩ := hx.1 e' h
  exact ⟨r, hr, hP e' h, hq⟩

end Endings

section Runs
variable {ms : List Node}

theorem deriveEach_singleton (n : Node) : deriveEach estimator [n] = derive estimator n := by
  rw [deriveEach, deriveEach, bind_pure_unit]

theorem deriveEach_append (ns : List Node) : deriveEach estimator (ms ++ ns) =
    deriveEach estimator ms >>= fun _ => deriveEach estimator ns := by
  induction ms with
  | nil => rw [List.nil_append, deriveEach, pure_bind]
  | cons m ms ih => rw [List.cons_append, deriveEach, deriveEach, ih, bind_assoc]

theorem remember_of_none {c : Nat} {x : Estimating ν σ (Statistics ν)} (hm : e.memo c = none) :
    remember c x e = (x >>= fun s => do
      modify fun e => { e with memo := e.memo.insert c s }
      return s) e := by
  unfold remember
  change EStateM.bind get _ e = _
  unfold EStateM.bind
  dsimp only [get, getThe, MonadStateOf.get, EStateM.get]
  rw [hm]

/-- Once its inputs are remembered, a node is estimated by deriving it. -/
theorem endsLike_derive {inputs : List (Statistics ν)}
    (hi : n.inputs.filterMap (fun i => e.memo i.cell) = inputs) :
    EndsLike e (ofEnv (estimator n inputs) >>= fun s => do
        modify fun e => { e with memo := e.memo.insert n.cell s }
        return s)
      (derive estimator n) fun e' s => e'.memo n.cell = some s := by
  constructor
  · intro e' h
    obtain ⟨s, env, hs, rfl⟩ := derive_eq_ok.1 h
    rw [hi] at hs
    have hcall : ofEnv (estimator n inputs) e = .ok s { e with env } :=
      Action.onPart_eq_ok.2 ⟨env, hs, rfl⟩
    exact ⟨s, Action.bind_eq_ok.2 ⟨s, _, hcall, rfl⟩, if_pos rfl⟩
  · intro f e' h
    obtain ⟨env, hf, rfl⟩ := derive_eq_error.1 h
    rw [hi] at hf
    exact Action.bind_eq_error.2 (.inl (Action.onPart_eq_error.2 ⟨env, hf, rfl⟩))

end Runs

/-- To estimate a plan is to derive what it owes. -/
theorem endsLike_estimate (estimator : Estimator ν σ) (hn : h.has n) (hc : e.memo.ClosedOn h) :
    EndsLike e (estimate estimator n) (deriveEach estimator (e.memo.owes n))
      fun e' s => e'.memo n.cell = some s := by
  have hmemo {n : Node} {e : Estimates ν σ} (hn : h.has n) (hc : e.memo.ClosedOn h)
      (hm : e.memo.Has n) : EndsLike e (estimate estimator n)
        (deriveEach estimator (e.memo.owes n)) fun e' s => e'.memo n.cell = some s := by
    rw [Memo.owes_of_has hc hn hm]
    refine ⟨fun e' hrun => ?_, fun f e' hrun => by cases hrun⟩
    obtain ⟨-, rfl⟩ := Action.pure_eq_ok.1 hrun
    obtain ⟨s, hs⟩ := Option.ne_none_iff_exists'.1 hm
    exact ⟨s, estimate_of_memo hs, hs⟩
  induction n generalizing e with
  | scan tag s =>
    by_cases hm : e.memo.Has (.scan tag s)
    · exact hmemo hn hc hm
    rw [Memo.owes_scan hm, deriveEach_singleton]
    exact (endsLike_derive (n := .scan tag s) rfl).congr (remember_of_none (not_not.1 hm))
  | unary tag op i ih =>
    by_cases hm : e.memo.Has (.unary tag op i)
    · exact hmemo hn hc hm
    have hi : h.has i := h.input hn (List.mem_singleton_self i)
    rw [Memo.owes_unary hm, deriveEach_append, deriveEach_singleton]
    refine EndsLike.congr ((ih hi hc).bind fun u s _ hs => ?_)
      ((remember_of_none (not_not.1 hm)).trans (congrFun (bind_assoc ..) e))
    exact endsLike_derive (n := .unary tag op i) (by simp [Node.inputs, hs])
  | join tag j l r ihl ihr =>
    by_cases hm : e.memo.Has (.join tag j l r)
    · exact hmemo hn hc hm
    have hl : h.has l := h.input hn (List.mem_cons_self ..)
    have hr : h.has r := h.input hn (List.mem_cons_of_mem _ (List.mem_singleton_self r))
    have howes : ∀ m ∈ e.memo.owes l, h.has m := fun m hmem =>
      h.has_below hl (Memo.mem_owes.1 hmem).1
    rw [Memo.owes_join hm, List.append_assoc, deriveEach_append, deriveEach_append,
      deriveEach_singleton]
    refine EndsLike.congr ((ihl hl hc).bind fun u s hu hs => ?_)
      ((remember_of_none (not_not.1 hm)).trans (congrFun (bind_assoc ..) e))
    -- what is owed for the right input is less now that the left one has been estimated
    have hclosed : u.memo.ClosedOn h := closedOn_of_derived howes (e.memo.inputsFirst_owes l) hc hu
    rw [← Memo.owes_of_has_owes fun k hk => has_of_derived howes (h.has_below hr hk) hu]
    have hkept : ∀ v, deriveEach estimator (u.memo.owes r) u = .ok () v → v.memo l.cell = some s := by
      refine fun v hv => (memo_of_derived (fun m hmem hcell => ?_) hv).trans hs
      have hnone : u.memo m.cell = none := not_not.1 (Memo.mem_owes.1 hmem).2
      rw [hcell, hs] at hnone
      cases hnone
    refine EndsLike.congr ((((ihr hr hclosed).and hkept).bind fun v t _ ht => ?_)) (congrFun (bind_assoc ..) u)
    exact endsLike_derive (n := .join tag j l r) (by simp [Node.inputs, ht.1, ht.2])

end Estimating

end JoinOrder
