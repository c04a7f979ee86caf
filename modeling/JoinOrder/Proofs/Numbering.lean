import JoinOrder.Proofs.BreadthFirst
import JoinOrder.Proofs.RelatedRewriting

/-!
# Ids over many rules

Reordering takes ids from the supply for the joins it only tries, too, and may fail at any point.
But a node that it adds has an id of its own, taken from the supply meanwhile (`Reorder.fresh_rule`).
So whatever rules like it are applied in whatever order to plans made before, different nodes of all
these plans have different ids (`Rule.History.numbered_plans`).
-/

namespace JoinOrder

/-- The nodes in use: the old ones, and those made since the next id was `start`. -/
structure Roster where
  old : List Node
  start : Nat
  next : Nat
  made : Node → Prop
  le : start ≤ next
  range {n : Node} : made n → start ≤ n.id ∧ n.id < next
  alone {m n : Node} : made m → made n → m.id = n.id → m = n

namespace Roster

structure Before (w v : Roster) : Prop where
  old : v.old = w.old
  start : v.start = w.start
  next : w.next ≤ v.next
  made : ∀ n, w.made n → v.made n

instance : World Roster where
  Grows := Before
  refl _ := ⟨rfl, rfl, le_rfl, fun _ hn => hn⟩
  trans h h' := ⟨h'.old.trans h.old, h'.start.trans h.start, h.next.trans h'.next,
    fun n hn => h'.made n (h.made n hn)⟩

/-- Nothing has been made. -/
def ofPlan (plan : Node) (next : Nat) : Roster where
  old := plan.preorder
  start := next
  next := next
  made _ := False
  le := le_rfl
  range := False.elim
  alone h := h.elim

/-- An id has been taken, and no node was made. -/
def skip (w : Roster) : Roster where
  old := w.old
  start := w.start
  next := w.next + 1
  made := w.made
  le := w.le.trans (Nat.le_succ _)
  range h := ⟨(w.range h).1, (w.range h).2.trans (Nat.lt_succ_self _)⟩
  alone := w.alone

/-- A node has been made with the next id. -/
def push (w : Roster) (n : Node) (hn : n.id = w.next) : Roster where
  old := w.old
  start := w.start
  next := w.next + 1
  made m := m = n ∨ w.made m
  le := w.le.trans (Nat.le_succ _)
  range hm := by
    have hle := w.le
    rcases hm with rfl | hm
    · omega
    · have := w.range hm
      omega
  alone hm hk heq := by
    rcases hm with rfl | hm <;> rcases hk with rfl | hk
    · rfl
    · have := (w.range hk).2
      omega
    · have := (w.range hm).2
      omega
    · exact w.alone hm hk heq

theorem before_skip (w : Roster) : w.Before w.skip := ⟨rfl, rfl, Nat.le_succ _, fun _ hn => hn⟩

theorem before_push (w : Roster) (n : Node) (hn : n.id = w.next) : w.Before (w.push n hn) :=
  ⟨rfl, rfl, Nat.le_succ _, fun _ => .inr⟩

/-- All nodes of the plan are in use. -/
def Knows (w : Roster) (n : Node) : Prop := ∀ m ∈ n.preorder, m ∈ w.old ∨ w.made m

variable {w v : Roster} {n : Node}

theorem Knows.mono (hn : w.Knows n) (hw : World.Grows w v) : v.Knows n := by
  intro m hm
  rw [hw.old]
  exact (hn m hm).imp_right (hw.made m)

theorem knows_iff : w.Knows n ↔ (n ∈ w.old ∨ w.made n) ∧ ∀ i ∈ n.inputs, w.Knows i := by
  constructor
  · intro h
    exact ⟨h n n.mem_preorder_self, fun i hi m hm => h m (Node.mem_preorder_of_input hi hm)⟩
  · rintro ⟨hn, hi⟩
    cases n with
    | scan => simpa [Knows, Node.preorder] using hn
    | unary tag op i =>
      intro m hm
      rcases List.mem_cons.1 hm with rfl | hm
      · exact hn
      · exact hi i (by simp [Node.inputs]) m hm
    | join tag j l r =>
      intro m hm
      rw [Node.preorder, List.mem_cons, List.mem_append] at hm
      rcases hm with rfl | hm | hm
      · exact hn
      · exact hi l (by simp [Node.inputs]) m hm
      · exact hi r (by simp [Node.inputs]) m hm

theorem Knows.input {i : Node} (hn : w.Knows n) (hi : i ∈ n.inputs) : w.Knows i :=
  (knows_iff.1 hn).2 i hi

theorem knows_pair {l r : Node} (hl : w.Knows l) (hr : w.Knows r) : ∀ i ∈ [l, r], w.Knows i :=
  List.forall_mem_cons.2 ⟨hl, List.forall_mem_singleton.2 hr⟩

theorem knows_push (hn : n.id = w.next) (hi : ∀ i ∈ n.inputs, w.Knows i) : (w.push n hn).Knows n :=
  knows_iff.2 ⟨.inr (.inl rfl), fun i hmem => (hi i hmem).mono (w.before_push n hn)⟩

end Roster

/-- However the step ends, ids were taken as the roster of what it made says. -/
def Enrolls {τ α : Type} (next : τ → Nat) (w : Roster) (x : Action τ α) (Q : Roster → α → Prop) :
    Prop :=
  ∀ a, next a = w.next →
    (∀ r b, x a = .ok r b → ∃ v, World.Grows w v ∧ next b = v.next ∧ Q v r) ∧
      ∀ f b, x a = .error f b → ∃ v, World.Grows w v ∧ next b = v.next

namespace Enrolls
variable {τ α β : Type} {next : τ → Nat} {w : Roster} {x : Action τ α} {Q : Roster → α → Prop}
  {R : Roster → β → Prop}

theorem pure {r : α} (hr : Q w r) : Enrolls next w (Pure.pure r) Q := by
  intro a ha
  constructor
  · intro r' b h
    obtain ⟨rfl, rfl⟩ := Action.pure_eq_ok.1 h
    exact ⟨w, World.refl w, ha, hr⟩
  · intro f b h
    cases h

theorem bind {k : α → Action τ β} (hx : Enrolls next w x Q)
    (hk : ∀ v r, World.Grows w v → Q v r → Enrolls next v (k r) R) : Enrolls next w (x >>= k) R := by
  intro a ha
  constructor
  · intro c d h
    obtain ⟨r, b, hr, hc⟩ := Action.bind_eq_ok.1 h
    obtain ⟨v, hv, hb, hq⟩ := (hx a ha).1 r b hr
    obtain ⟨v', hv', hd, hR⟩ := (hk v r hv hq b hb).1 c d hc
    exact ⟨v', World.trans hv hv', hd, hR⟩
  · intro f d h
    rcases Action.bind_eq_error.1 h with hf | ⟨r, b, hr, hf⟩
    · exact (hx a ha).2 f d hf
    · obtain ⟨v, hv, hb, hq⟩ := (hx a ha).1 r b hr
      obtain ⟨v', hv', hd⟩ := (hk v r hv hq b hb).2 f d hf
      exact ⟨v', World.trans hv hv', hd⟩

end Enrolls

/-- The number of the next node. -/
def Session.nextId {ν σ : Type} (a : Session ν σ) : Nat := a.supply.nextId

section Making
variable {ν σ α : Type} {w : Roster}

theorem enrolls_build {x : Building α} {Q : Roster → α → Prop} (hx : Enrolls Supply.nextId w x Q) :
    Enrolls Session.nextId w (Planning.build x : Planning ν σ α) Q := by
  intro a ha
  constructor
  · intro r b h
    obtain ⟨u, hr, rfl⟩ := Action.onPart_eq_ok.1 h
    exact (hx a.supply ha).1 r u hr
  · intro f b h
    obtain ⟨u, hf, rfl⟩ := Action.onPart_eq_error.1 h
    exact (hx a.supply ha).2 f u hf

theorem tag_of_ofOperator {tag : Tag} {op : Operator} {inputs : List Node} {n : Node}
    (h : Node.ofOperator tag op inputs = .ok n) : n.tag = tag ∧ n.inputs = inputs := by
  unfold Node.ofOperator at h
  split at h
  · cases h
    exact ⟨rfl, rfl⟩
  · split at h
    · cases h
    · cases h
      exact ⟨rfl, rfl⟩
  · cases h
    exact ⟨rfl, rfl⟩
  · cases h

/-- A refused node has used up its id. -/
theorem enrolls_node (op : Operator) {inputs : List Node} (hi : ∀ i ∈ inputs, w.Knows i) :
    Enrolls Supply.nextId w (Building.node op inputs) Roster.Knows := by
  intro a ha
  have hrun : Building.node op inputs a =
      Action.ofExcept (Node.ofOperator ⟨a.nextId, a.nextCell⟩ op inputs)
        ⟨a.nextId + 1, a.nextCell + 1⟩ := rfl
  rw [hrun]
  constructor
  · intro n b h
    obtain ⟨hn, rfl⟩ := Action.ofExcept_eq_ok.1 h
    obtain ⟨htag, hinputs⟩ := tag_of_ofOperator hn
    have hid : n.id = w.next := by rw [Node.id, htag, ← ha]
    refine ⟨w.push n hid, w.before_push n hid, congrArg Nat.succ ha, ?_⟩
    exact Roster.knows_push hid (hinputs ▸ hi)
  · intro f b h
    refine ⟨w.skip, w.before_skip, ?_⟩
    unfold Action.ofExcept at h
    split at h <;> cases h
    exact congrArg Nat.succ ha

theorem enrolls_newJoin {j : Join} {l r : Node} (hl : w.Knows l) (hr : w.Knows r) :
    Enrolls Session.nextId w (Planning.newJoin j l r : Planning ν σ Node) Roster.Knows :=
  enrolls_build (enrolls_node (.join j) (Roster.knows_pair hl hr))

end Making

section Searching
variable {ν σ : Type}

/-- A run beside itself. Its supply is as the roster says. -/
def Roster.mirror : Correspondence Roster (Session ν σ) (Session ν σ) :=
  .sessions (fun w s t => s = t ∧ s.nextId = w.next) (fun _ => .same) True

theorem relates_mirror {α : Type} {w : Roster} {x : Planning ν σ α} {Q : Roster → α → Prop}
    (hx : Enrolls Session.nextId w x Q) :
    Roster.mirror.Relates w x x fun v r s => r = s ∧ Q v r := by
  rintro a b ⟨⟨hsupply, hnext⟩, hestimates⟩
  obtain rfl : a = b := by
    cases a
    cases b
    cases hsupply
    cases hestimates
    rfl
  cases hrun : x a with
  | ok r b =>
    obtain ⟨v, hv, hb, hq⟩ := (hx a hnext).1 r b hrun
    exact .ok hv ⟨⟨rfl, hb⟩, rfl⟩ ⟨rfl, hq⟩
  | error f b =>
    obtain ⟨v, hv, hb⟩ := (hx a hnext).2 f b hrun
    exact .error hv ⟨⟨rfl, hb⟩, rfl⟩

theorem enrolls_of_mirror {α : Type} {w : Roster} {x : Planning ν σ α} {Q : Roster → α → Prop}
    (hx : Roster.mirror.Relates w x x fun v r _ => Q v r) : Enrolls Session.nextId w x Q := by
  intro a ha
  have hend := hx a a ⟨⟨rfl, ha⟩, rfl⟩
  constructor
  · intro r b hr
    rw [hr] at hend
    cases hend with
    | ok hv h hq => exact ⟨_, hv, h.1.2, hq⟩
  · intro f b hf
    rw [hf] at hend
    cases hend with
    | error hv h => exact ⟨_, hv, h.1.2⟩
    | panic _ hv h => exact ⟨_, hv, h.1.2⟩
    | alone h => exact h.elim fun _ => False.elim

theorem simulates_mirror (s : Search ν σ) :
    Steps.Simulates Roster.mirror (fun w m n => m = n ∧ w.Knows m) s.steps s.steps :=
  s.simulates_self (fun hw h => h.mono hw) fun _ hm hn => relates_mirror (enrolls_newJoin hm hn)

variable [CostScale ν]

theorem enrolls_solve (s : Search ν σ) {w : Roster} {members : List Node}
    (hm : ∀ m ∈ members, w.Knows m) (residuals : List Expr) :
    Enrolls Session.nextId w (s.solve members residuals) fun v found =>
      ∀ t ∈ found, v.Knows t.plan := by
  have hpairs : List.Forall₂ (fun m n => m = n ∧ w.Knows m) members members :=
    List.forall₂_same.2 fun m hmem => ⟨rfl, hm m hmem⟩
  have hrel := (simulates_mirror s).solve s.edges (fun _ => trivial) hpairs residuals
  rw [Search.steps_solve] at hrel
  refine enrolls_of_mirror (hrel.imp fun v found found' _ hfound t ht => ?_)
  cases ht
  cases hfound with
  | some h => exact h.plan.2

end Searching

namespace Reorder
variable {ν σ : Type} {w : Roster} {n : Node}

theorem enrolls_withInputs {inputs : List Node} (hn : w.Knows n) (hi : ∀ i ∈ inputs, w.Knows i) :
    Enrolls Supply.nextId w (withInputs n inputs) Roster.Knows := by
  unfold withInputs
  split
  · exact .pure hn
  · exact enrolls_node _ hi

theorem knows_headD {new : List Node} (hn : w.Knows n) (hnew : ∀ m ∈ new, w.Knows m) :
    w.Knows (new.headD n) := by
  cases new with
  | nil => exact hn
  | cons m new => exact hnew m (List.mem_cons_self ..)

theorem enrolls_withMembers {new : List Node} (hn : w.Knows n) (hnew : ∀ m ∈ new, w.Knows m) :
    Enrolls Supply.nextId w (withMembers n new) fun v q => v.Knows q.1 ∧ ∀ m ∈ q.2, v.Knows m := by
  have hnext {w : Roster} {n : Node} {new : List Node} (hn : w.Knows n) (hnew : ∀ m ∈ new, w.Knows m) :
      Enrolls Supply.nextId w (Pure.pure (new.headD n, new.tail)) fun v q =>
        v.Knows q.1 ∧ ∀ m ∈ q.2, v.Knows m :=
    .pure ⟨knows_headD hn hnew, fun m hm => hnew m (List.mem_of_mem_tail hm)⟩
  induction n generalizing w new with
  | scan => exact hnext hn hnew
  | unary => exact hnext hn hnew
  | join tag j l r ihl ihr =>
    have hl := hn.input (i := l) (by simp [Node.inputs])
    have hr := hn.input (i := r) (by simp [Node.inputs])
    rw [withMembers]
    split
    · refine (ihl hl hnew).bind fun v₁ q hv₁ hq => ?_
      refine (ihr (hr.mono hv₁) hq.2).bind fun v₂ p hv₂ hp => ?_
      refine (enrolls_withInputs ((hn.mono hv₁).mono hv₂)
        (Roster.knows_pair (hq.1.mono hv₂) hp.1)).bind fun v₃ o hv₃ ho => ?_
      exact .pure ⟨ho, fun m hm => (hp.2 m hm).mono hv₃⟩
    · exact hnext hn hnew

theorem enrolls_filterBy (conditions : List Expr) (hn : w.Knows n) :
    Enrolls Supply.nextId w (filterBy conditions n) Roster.Knows := by
  unfold filterBy
  split
  · exact .pure hn
  · exact enrolls_node _ (List.forall_mem_singleton.2 hn)

theorem enrolls_arrange (s : Schema) (hn : w.Knows n) :
    Enrolls Supply.nextId w (arrange s n) Roster.Knows := by
  unfold arrange
  split
  · exact .pure hn
  · exact enrolls_node _ (List.forall_mem_singleton.2 hn)

variable [CostScale ν] {context : Context ν σ} {ms : List Node}

theorem enrolls_settleGroup (hn : w.Knows n) (hms : ∀ m ∈ ms, w.Knows m) :
    Enrolls Session.nextId w (settleGroup context n ms) Roster.Knows := by
  unfold settleGroup
  split
  · refine (enrolls_solve _ hms _).bind fun v found hv hfound => ?_
    cases found with
    | none => exact .pure (hn.mono hv)
    | some s =>
      refine enrolls_build ((enrolls_filterBy s.pending (hfound s rfl)).bind fun v' q _ hq => ?_)
      split
      · exact enrolls_arrange n.schema hq
      · exact .pure hq
  · exact (enrolls_build (enrolls_withMembers hn hms)).bind fun v q _ hq => .pure hq.1

theorem enrolls_settle (hn : w.Knows n) (hms : ∀ m ∈ ms, w.Knows m) :
    Enrolls Session.nextId w (settle context n ms) Roster.Knows := by
  unfold settle
  split
  · exact enrolls_settleGroup hn hms
  · exact .pure (knows_headD hn hms)

theorem enrolls_rewriteMembers (hn : w.Knows n) :
    Enrolls Session.nextId w (rewriteMembers context n) fun v ms => ∀ m ∈ ms, v.Knows m := by
  induction n generalizing w with
  | scan => exact .pure (List.forall_mem_singleton.2 hn)
  | unary tag op i ih =>
    have hi := hn.input (i := i) (by simp [Node.inputs])
    refine (ih hi).bind fun v₁ is hv₁ his => ?_
    refine (enrolls_settle (hi.mono hv₁) his).bind fun v₂ q hv₂ hq => ?_
    refine (enrolls_build (enrolls_withInputs ((hn.mono hv₁).mono hv₂)
      (List.forall_mem_singleton.2 hq))).bind fun v₃ o hv₃ ho => ?_
    exact .pure (List.forall_mem_singleton.2 ho)
  | join tag j l r ihl ihr =>
    have hl := hn.input (i := l) (by simp [Node.inputs])
    have hr := hn.input (i := r) (by simp [Node.inputs])
    rw [rewriteMembers]
    split
    · refine (ihl hl).bind fun v₁ ls hv₁ hls => ?_
      refine (ihr (hr.mono hv₁)).bind fun v₂ rs hv₂ hrs => ?_
      exact .pure (List.forall_mem_append.2 ⟨fun m hm => (hls m hm).mono hv₂, hrs⟩)
    · refine (ihl hl).bind fun v₁ ls hv₁ hls => ?_
      refine (enrolls_settle (hl.mono hv₁) hls).bind fun v₂ p hv₂ hp => ?_
      have hr₂ := (hr.mono hv₁).mono hv₂
      refine (ihr hr₂).bind fun v₃ rs hv₃ hrs => ?_
      refine (enrolls_settle (hr₂.mono hv₃) hrs).bind fun v₄ q hv₄ hq => ?_
      have hn₄ := (((hn.mono hv₁).mono hv₂).mono hv₃).mono hv₄
      refine (enrolls_build (enrolls_withInputs hn₄
        (Roster.knows_pair ((hp.mono hv₃).mono hv₄) hq))).bind fun v₅ o hv₅ ho => ?_
      exact .pure (List.forall_mem_singleton.2 ho)

theorem enrolls_rewrite (context : Context ν σ) (hn : w.Knows n) :
    Enrolls Session.nextId w (rewrite context n) Roster.Knows :=
  (enrolls_rewriteMembers hn).bind fun _ _ hv hms => enrolls_settle (hn.mono hv) hms

end Reorder

namespace Rule
variable {ν σ : Type}

/-- The nodes of `q` that are not in the plan have ids from `lo` on and below `hi`, each its own. -/
structure Adds (lo hi : Nat) (plan q : Node) : Prop where
  range : ∀ n ∈ q.preorder, n ∉ plan.preorder → lo ≤ n.id ∧ n.id < hi
  alone : ∀ m ∈ q.preorder, ∀ n ∈ q.preorder, m ∉ plan.preorder → n ∉ plan.preorder →
    m.id = n.id → m = n

/-- The rule may drop nodes, and the nodes that it adds have ids that it takes from the supply. -/
structure Fresh (context : Context ν σ) (rule : Rule ν σ) : Prop where
  ok {plan q : Node} {a b : Session ν σ} (h : rule.apply context plan a = .ok q b) :
    a.nextId ≤ b.nextId ∧ Adds a.nextId b.nextId plan q
  error {plan : Node} {a b : Session ν σ} {f : Failure}
    (h : rule.apply context plan a = .error f b) : a.nextId ≤ b.nextId

end Rule

/-- Reordering numbers what it adds, whatever the collaborators do. -/
theorem Reorder.fresh_rule {ν σ : Type} [CostScale ν] (context : Context ν σ) :
    Rule.Fresh context Reorder.rule where
  ok {plan q a b} h := by
    have hplan : (Roster.ofPlan plan a.nextId).Knows plan := fun m hm => .inl hm
    obtain ⟨v, hv, hb, hq⟩ := (enrolls_rewrite context hplan a rfl).1 q b h
    have hmade : ∀ n ∈ q.preorder, n ∉ plan.preorder → v.made n := fun n hn hnew =>
      (hq n hn).resolve_left (hv.old ▸ hnew)
    rw [hb]
    refine ⟨hv.next, fun n hn hnew => ?_, fun m hm n hn hmnew hnnew => ?_⟩
    · have hrange := v.range (hmade n hn hnew)
      rw [hv.start] at hrange
      exact hrange
    · exact v.alone (hmade m hm hmnew) (hmade n hn hnnew)
  error {plan a b f} h := by
    have hplan : (Roster.ofPlan plan a.nextId).Knows plan := fun m hm => .inl hm
    obtain ⟨v, hv, hb⟩ := (enrolls_rewrite context hplan a rfl).2 f b h
    rw [hb]
    exact hv.next

namespace Rule
variable {ν σ : Type} {context : Context ν σ} {rules : List (Rule ν σ)}

/-- What applying rules can lead to, from the plan `p` on: the plans that there are, each made from
one that there was before, and the session. -/
inductive History (context : Context ν σ) (rules : List (Rule ν σ)) (p : Node) (a : Session ν σ) :
    List Node → Session ν σ → Prop
  | start : History context rules p a [p] a
  | ok {plans : List Node} {b c : Session ν σ} {rule : Rule ν σ} {plan q : Node}
      (h : History context rules p a plans b) (hrule : rule ∈ rules) (hplan : plan ∈ plans)
      (hq : rule.apply context plan b = .ok q c) : History context rules p a (q :: plans) c
  | error {plans : List Node} {b c : Session ν σ} {rule : Rule ν σ} {plan : Node} {f : Failure}
      (h : History context rules p a plans b) (hrule : rule ∈ rules) (hplan : plan ∈ plans)
      (hf : rule.apply context plan b = .error f c) : History context rules p a plans c

/-- The passes of rules over a plan are part of a history. -/
theorem History.pass {p : Node} {a : Session ν σ} {rules' : List (Rule ν σ)}
    (hrules : ∀ r ∈ rules', r ∈ rules) {plans : List Node} {b c : Session ν σ} {plan q : Node}
    {changed : Bool} (h : History context rules p a plans b) (hplan : plan ∈ plans)
    (hq : Rule.pass context rules' plan b = .ok (q, changed) c) :
    ∃ later, History context rules p a later c ∧ q ∈ later ∧ ∀ k ∈ plans, k ∈ later := by
  induction rules' generalizing plans b plan q changed with
  | nil =>
    obtain ⟨hq, rfl⟩ := Action.pure_eq_ok.1 hq
    cases hq
    exact ⟨plans, h, hplan, fun _ hk => hk⟩
  | cons rule rules' ih =>
    rw [List.forall_mem_cons] at hrules
    obtain ⟨new, d, hnew, hq⟩ := Action.bind_eq_ok.1 hq
    obtain ⟨⟨q', changed'⟩, e, hrest, hq⟩ := Action.bind_eq_ok.1 hq
    obtain ⟨hq, rfl⟩ := Action.pure_eq_ok.1 hq
    cases hq
    obtain ⟨later, hlater, hmem, hsub⟩ := ih hrules.2 (h.ok hrules.1 hplan hnew)
      (List.mem_cons_self ..) hrest
    exact ⟨later, hlater, hmem, fun k hk => hsub k (List.mem_cons_of_mem _ hk)⟩

theorem History.exhaust {p : Node} {a : Session ν σ} {rules' : List (Rule ν σ)}
    (hrules : ∀ r ∈ rules', r ∈ rules) {plans : List Node} {b c : Session ν σ} {plan q : Node}
    {passes : Nat} (h : History context rules p a plans b) (hplan : plan ∈ plans)
    (hq : Rule.exhaust context rules' passes plan b = .ok q c) :
    ∃ later, History context rules p a later c ∧ q ∈ later ∧ ∀ k ∈ plans, k ∈ later := by
  induction passes generalizing plans b plan with
  | zero =>
    obtain ⟨rfl, rfl⟩ := Action.pure_eq_ok.1 hq
    exact ⟨plans, h, hplan, fun _ hk => hk⟩
  | succ passes ih =>
    obtain ⟨⟨new, changed⟩, d, hpass, hq⟩ := Action.bind_eq_ok.1 hq
    obtain ⟨later, hlater, hnew, hsub⟩ := h.pass hrules hplan hpass
    dsimp only at hq
    split at hq
    · obtain ⟨later', hlater', hmem, hsub'⟩ := ih hlater hnew hq
      exact ⟨later', hlater', hmem, fun k hk => hsub' k (hsub k hk)⟩
    · obtain ⟨rfl, rfl⟩ := Action.pure_eq_ok.1 hq
      exact ⟨later, hlater, hnew, hsub⟩

/-- The plans are numbered below `next`, with ids above those of `p` where nodes are not from `p`. -/
structure Tidy (p : Node) (plans : List Node) (next : Nat) : Prop where
  numbered : Numbered plans
  below : ∀ n ∈ plans.flatMap Node.preorder, n.id < next
  start : ∀ m ∈ p.preorder, m.id < next
  origin : ∀ q ∈ plans, ∀ n ∈ q.preorder, n ∈ p.preorder ∨ ∀ m ∈ p.preorder, m.id < n.id

theorem Tidy.mono {p : Node} {plans : List Node} {next next' : Nat} (h : Tidy p plans next)
    (hle : next ≤ next') : Tidy p plans next' where
  numbered := h.numbered
  below n hn := (h.below n hn).trans_le hle
  start m hm := (h.start m hm).trans_le hle
  origin := h.origin

theorem Tidy.cons {p plan q : Node} {plans : List Node} {next next' : Nat} (h : Tidy p plans next)
    (hplan : plan ∈ plans) (hle : next ≤ next') (hq : Adds next next' plan q) :
    Tidy p (q :: plans) next' := by
  have hold {n : Node} (hn : n ∈ plan.preorder) : n ∈ plans.flatMap Node.preorder :=
    List.mem_flatMap.2 ⟨plan, hplan, hn⟩
  -- a node is one that there was, with a smaller id, or one of those added
  have hcases {n : Node} (hn : n ∈ (q :: plans).flatMap Node.preorder) :
      n ∈ plans.flatMap Node.preorder ∨ n ∈ q.preorder ∧ n ∉ plan.preorder ∧ next ≤ n.id := by
    rw [List.flatMap_cons, List.mem_append] at hn
    rcases hn with hn | hn
    · by_cases hmem : n ∈ plan.preorder
      · exact .inl (hold hmem)
      · exact .inr ⟨hn, hmem, (hq.range n hn hmem).1⟩
    · exact .inl hn
  refine ⟨fun m hm n hn heq => ?_, fun n hn => ?_, fun m hm => (h.start m hm).trans_le hle, ?_⟩
  · rcases hcases hm with hm | ⟨hm, hmnew, hmid⟩ <;> rcases hcases hn with hn | ⟨hn, hnnew, hnid⟩
    · exact h.numbered m hm n hn heq
    · have := h.below m hm
      omega
    · have := h.below n hn
      omega
    · exact hq.alone m hm n hn hmnew hnnew heq
  · rcases hcases hn with hn | ⟨hn, hnew, -⟩
    · exact (h.below n hn).trans_le hle
    · exact (hq.range n hn hnew).2
  · refine List.forall_mem_cons.2 ⟨fun n hn => ?_, h.origin⟩
    by_cases hmem : n ∈ plan.preorder
    · exact h.origin plan hplan n hmem
    · exact .inr fun m hm => (h.start m hm).trans_le (hq.range n hn hmem).1

theorem History.tidy {p : Node} {s : Session ν σ} (hp : Numbered [p])
    (hrules : ∀ r ∈ rules, r.Fresh context) {plans : List Node} {a : Session ν σ}
    (h : History context rules p (s.forPlan p) plans a) : Tidy p plans a.nextId := by
  induction h with
  | start =>
    have hlt : ∀ m ∈ p.preorder, m.id < (s.forPlan p).nextId := hp.id_lt_after s.supply
    exact ⟨hp, by simpa using hlt, hlt, by simp +contextual⟩
  | ok _ hrule hplan hq ih =>
    obtain ⟨hle, hadds⟩ := (hrules _ hrule).ok hq
    exact ih.cons hplan hle hadds
  | error _ hrule _ hf ih => exact ih.mono ((hrules _ hrule).error hf)

/-- Whatever plans there are after rules have been applied, to any of them in any order, their
different nodes have different ids, and where they are not from the first plan, greater ones than
that has. The same goes for what passes of the rules over such a plan put out. -/
theorem History.numbered_plans [CostScale ν] {p : Node} {s : Session ν σ} (hp : Numbered [p])
    (hrules : ∀ r ∈ rules, r = Reorder.rule ∨ r.Fresh context) {plans : List Node}
    {a : Session ν σ} (h : History context rules p (s.forPlan p) plans a) :
    (Numbered plans ∧
      ∀ q ∈ plans, ∀ n ∈ q.preorder, n ∈ p.preorder ∨ ∀ m ∈ p.preorder, m.id < n.id) ∧
    ∀ rules' passes q r b, (∀ rule ∈ rules', rule ∈ rules) → q ∈ plans →
      Rule.exhaust context rules' passes q a = .ok r b →
      Numbered (r :: plans) ∧
        ∀ n ∈ r.preorder, n ∈ p.preorder ∨ ∀ m ∈ p.preorder, m.id < n.id := by
  have hfresh : ∀ r ∈ rules, r.Fresh context := fun r hr =>
    (hrules r hr).elim (fun heq => heq ▸ Reorder.fresh_rule context) fun hf => hf
  refine ⟨⟨(h.tidy hp hfresh).numbered, (h.tidy hp hfresh).origin⟩, ?_⟩
  intro rules' passes q r b hsub hq hr
  obtain ⟨later, hlater, hmem, hkept⟩ := h.exhaust hsub hq hr
  have htidy := hlater.tidy hp hfresh
  exact ⟨htidy.numbered.mono (List.forall_mem_cons.2 ⟨hmem, hkept⟩), htidy.origin r hmem⟩

theorem History.numbered_plans_threeTables : ∃ q b r d,
    Reorder.rewrite (.constant 1) Structural.threeTables
        ((Session.unused 5).forPlan Structural.threeTables) = .ok q b ∧
      Rule.exhaust (.constant 1) [Reorder.rule] 3 q b = .ok r d ∧
      Numbered [r, q, Structural.threeTables] ∧
        ∀ n ∈ r.preorder, n ∈ Structural.threeTables.preorder ∨
          ∀ m ∈ Structural.threeTables.preorder, m.id < n.id := by
  have hp : Numbered [Structural.threeTables] := by
    unfold Numbered
    decide
  obtain ⟨r, d, h⟩ := Action.exists_of_result? (a := (Session.unused 5).forPlan Structural.threeTables)
    (x := Reorder.rewrite (.constant 1) Structural.threeTables >>=
      Rule.exhaust (.constant 1) [Reorder.rule] 3) (by decide +kernel)
  obtain ⟨q, b, hq, hr⟩ := Action.bind_eq_ok.1 h
  have h : History (.constant 1) [Reorder.rule] Structural.threeTables
      ((Session.unused 5).forPlan Structural.threeTables) [q, Structural.threeTables] b :=
    .ok .start (List.mem_singleton_self _) (List.mem_singleton_self _) hq
  refine ⟨q, b, r, d, hq, hr, ?_⟩
  exact (History.numbered_plans hp (fun rule hrule => .inl (List.mem_singleton.1 hrule)) h).2 _ 3 q r d
    (fun _ hmem => hmem) (List.mem_cons_self ..) hr

end Rule

end JoinOrder
