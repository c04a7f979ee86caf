import JoinOrder.Proofs.ByShape

/-!
# Passes of rules

Passes apply the rules of a list in turn, over and over: `Rule.cycle` is the plain sequence of these
applications, which knows nothing of passes. Passes are a part of it: they end with the first failure,
after the first pass that left every plan as it was, or when the allowed number is used up
(`Rule.outcome_of_exhaust`). Where a rule goes by the shape of plans alone, a plan that an idle pass
leaves is a fixed point of all rules.

The induction is on the rules that are left in a pass, then on the passes that are left. Both count
applications from the beginning of the run, so that nothing has to be renumbered.
-/

namespace JoinOrder

namespace Rule
variable {ν σ : Type} (context : Context ν σ) (rules : List (Rule ν σ))

/-- Application number `i` is that of the rule whose turn it is. -/
def turn (i : Nat) (p : Node) : Planning ν σ Node :=
  match rules[i % rules.length]? with
  | some rule => rule.apply context p
  | none => return p

/-- The first `n` applications, each to what the one before it made. -/
def cycle : (n : Nat) → Node → Planning ν σ Node
  | 0, p => return p
  | n + 1, p => do turn context rules n (← cycle n p)

/-- Application number `i` gives back the plan that it was given. -/
def Keeps (p : Node) (a : Session ν σ) (i : Nat) : Prop :=
  ∃ q b r c, cycle context rules i p a = .ok q b ∧ turn context rules i q b = .ok r c ∧
    r.shape = q.shape

/-- All applications of pass number `k` give back what they were given. -/
def Idle (p : Node) (a : Session ν σ) (k : Nat) : Prop :=
  ∀ i, k * rules.length ≤ i → i < (k + 1) * rules.length → Keeps context rules p a i

/-- Application number `i` is the first one that fails. -/
def Breaks (p : Node) (a : Session ν σ) (i : Nat) (f : Failure) (c : Session ν σ) : Prop :=
  ∃ q b, cycle context rules i p a = .ok q b ∧ turn context rules i q b = .error f c

section Turns
variable {context rules} {p q r : Node} {a b c : Session ν σ} {i k n : Nat}

theorem turn_of_split (context : Context ν σ) {front rest : List (Rule ν σ)} {rule : Rule ν σ}
    (h : rules = front ++ rule :: rest) (hn : n = k * rules.length + front.length) :
    turn context rules n = rule.apply context := by
  have hlt : front.length < rules.length := by
    rw [h, List.length_append, List.length_cons]
    omega
  have hturn : rules[n % rules.length]? = some rule := by
    rw [hn, Nat.mul_add_mod_self_right, Nat.mod_eq_of_lt hlt, h, List.getElem?_append_right le_rfl,
      Nat.sub_self, List.getElem?_cons_zero]
  funext p
  unfold turn
  rw [hturn]

theorem cycle_succ (hq : cycle context rules n p a = .ok q b) :
    cycle context rules (n + 1) p a = turn context rules n q b := by
  change EStateM.bind (cycle context rules n p) (turn context rules n) a = _
  unfold EStateM.bind
  rw [hq]

/-- The application keeps its plan exactly if its result has the same shape. -/
theorem keeps_iff (hq : cycle context rules n p a = .ok q b)
    (hr : turn context rules n q b = .ok r c) :
    Keeps context rules p a n ↔ r.shape = q.shape := by
  refine ⟨?_, fun h => ⟨q, b, r, c, hq, hr, h⟩⟩
  rintro ⟨q', b', r', c', hq', hr', h⟩
  cases hq.symm.trans hq'
  cases hr.symm.trans hr'
  exact h

theorem pass_of_error {rule : Rule ν σ} {f : Failure} (hf : rule.apply context q b = .error f c)
    (rest : List (Rule ν σ)) : pass context (rule :: rest) q b = .error f c :=
  Action.bind_eq_error.2 (.inl hf)

theorem pass_of_ok {rule : Rule ν σ} (hr : rule.apply context q b = .ok r c)
    (rest : List (Rule ν σ)) :
    pass context (rule :: rest) q b = match pass context rest r c with
      | .ok (o, changed) d => .ok (o, !r.same q || changed) d
      | .error f d => .error f d := by
  change EStateM.bind (rule.apply context q) _ b = _
  unfold EStateM.bind
  rw [hr]
  change EStateM.bind (pass context rest r) _ c = _
  unfold EStateM.bind
  cases pass context rest r c <;> rfl

/-- The rest of a pass goes on with the cycle, and tells whether one of its applications changed its
plan. -/
theorem outcome_of_pass {rest front : List (Rule ν σ)} (h : rules = front ++ rest)
    (hn : n = k * rules.length + front.length) (hq : cycle context rules n p a = .ok q b) :
    match pass context rest q b with
    | .ok (r, changed) c => cycle context rules ((k + 1) * rules.length) p a = .ok r c ∧
        (changed = false ↔
          ∀ i, n ≤ i → i < (k + 1) * rules.length → Keeps context rules p a i)
    | .error f c => ∃ i, n ≤ i ∧ i < (k + 1) * rules.length ∧ Breaks context rules p a i f c := by
  induction rest generalizing front n q b with
  | nil =>
    have hend : (k + 1) * rules.length = n := by
      rw [hn, Nat.succ_mul, h, List.append_nil]
    rw [hend]
    exact ⟨hq, fun _ i hi hi' => absurd hi' (not_lt.2 hi), fun _ => rfl⟩
  | cons rule rest ih =>
    have hturn := turn_of_split context h hn
    have hlt : n < (k + 1) * rules.length := by
      rw [hn, Nat.succ_mul, h, List.length_append, List.length_cons]
      omega
    cases hr : rule.apply context q b with
    | error f c =>
      rw [pass_of_error hr]
      exact ⟨n, le_rfl, hlt, q, b, hq, by rw [hturn, hr]⟩
    | ok r c =>
      rw [← hturn] at hr
      have hkeeps := keeps_iff hq hr
      have hsplit : rules = (front ++ [rule]) ++ rest := by rw [h, List.append_cons]
      have hposition : n + 1 = k * rules.length + (front ++ [rule]).length := by
        rw [hn, List.length_append, List.length_singleton, Nat.add_assoc]
      have hnext := ih hsplit hposition ((cycle_succ hq).trans hr)
      rw [hturn] at hr
      rw [pass_of_ok hr]
      cases hpass : pass context rest r c with
      | error f d =>
        rw [hpass] at hnext
        obtain ⟨i, hi, hi', hbreaks⟩ := hnext
        exact ⟨i, (Nat.le_succ n).trans hi, hi', hbreaks⟩
      | ok o d =>
        rw [hpass] at hnext
        obtain ⟨hend, hchanged⟩ := hnext
        refine ⟨hend, ?_⟩
        rw [Bool.or_eq_false_iff, Bool.not_eq_false', Node.same_iff, ← hkeeps, hchanged]
        constructor
        · rintro ⟨hfirst, hothers⟩ i hi hi'
          rcases hi.eq_or_lt with rfl | hi
          · exact hfirst
          · exact hothers i hi hi'
        · intro hall
          exact ⟨hall n le_rfl hlt, fun i hi hi' => hall i ((Nat.le_succ n).trans hi) hi'⟩

/-- A whole pass. -/
theorem outcome_of_whole_pass (hq : cycle context rules (k * rules.length) p a = .ok q b) :
    match pass context rules q b with
    | .ok (r, changed) c => cycle context rules ((k + 1) * rules.length) p a = .ok r c ∧
        (changed = false ↔ Idle context rules p a k)
    | .error f c => ∃ i, k * rules.length ≤ i ∧ i < (k + 1) * rules.length ∧
        Breaks context rules p a i f c := by
  have hsplit : rules = [] ++ rules := rfl
  exact outcome_of_pass hsplit rfl hq

theorem exhaust_succ (passes : Nat) (q : Node) (b : Session ν σ) :
    exhaust context rules (passes + 1) q b = match pass context rules q b with
      | .ok (r, true) c => exhaust context rules passes r c
      | .ok (r, false) c => .ok r c
      | .error f c => .error f c := by
  change EStateM.bind (pass context rules q) _ b = _
  unfold EStateM.bind
  cases pass context rules q b with
  | error f c => rfl
  | ok o c => rcases o with ⟨r, _ | _⟩ <;> rfl

/-- Passes after `k` passes of which none was idle. -/
theorem outcome_of_passes (passes : Nat) (hq : cycle context rules (k * rules.length) p a = .ok q b)
    (hbusy : ∀ i < k, ¬ Idle context rules p a i) :
    match exhaust context rules passes q b with
    | .ok r c => ∃ m, k ≤ m ∧ m ≤ k + passes ∧ cycle context rules (m * rules.length) p a = .ok r c ∧
        (∀ i, i + 1 < m → ¬ Idle context rules p a i) ∧
        (m = k + passes ∨ ∃ i, i + 1 = m ∧ Idle context rules p a i)
    | .error f c => ∃ i < (k + passes) * rules.length, Breaks context rules p a i f c ∧
        ∀ j, (j + 1) * rules.length ≤ i → ¬ Idle context rules p a j := by
  induction passes generalizing k q b with
  | zero => exact ⟨k, le_rfl, le_rfl, hq, fun i hi => hbusy i (by omega), .inl rfl⟩
  | succ passes ih =>
    have hpass := outcome_of_whole_pass hq
    have hcount : k + 1 + passes = k + (passes + 1) := by omega
    rw [exhaust_succ]
    cases hrun : pass context rules q b with
    | error f c =>
      rw [hrun] at hpass
      obtain ⟨i, -, hi, hbreaks⟩ := hpass
      have hle : (k + 1) * rules.length ≤ (k + (passes + 1)) * rules.length :=
        Nat.mul_le_mul_right _ (by omega)
      refine ⟨i, hi.trans_le hle, hbreaks, fun j hj => hbusy j ?_⟩
      -- a whole pass before the failure is one of those before this pass
      exact Nat.lt_of_succ_lt_succ (Nat.lt_of_mul_lt_mul_right (hj.trans_lt hi))
    | ok o c =>
      obtain ⟨r, changed⟩ := o
      rw [hrun] at hpass
      obtain ⟨hnext, hidle⟩ := hpass
      cases changed with
      | false =>
        refine ⟨k + 1, Nat.le_succ k, by omega, hnext, fun i hi => hbusy i (by omega), .inr ?_⟩
        exact ⟨k, rfl, hidle.1 rfl⟩
      | true =>
        have hbusy' : ∀ i < k + 1, ¬ Idle context rules p a i := by
          intro i hi
          rcases Nat.lt_succ_iff_lt_or_eq.1 hi with hi | rfl
          · exact hbusy i hi
          · exact fun hall => by simpa using hidle.2 hall
        have hrest := ih hnext hbusy'
        rw [hcount] at hrest
        dsimp only
        cases hexhaust : exhaust context rules passes r c with
        | error f d => rwa [hexhaust] at hrest
        | ok s d =>
          rw [hexhaust] at hrest
          obtain ⟨m, hm, hend⟩ := hrest
          exact ⟨m, (Nat.le_succ k).trans hm, hend⟩

end Turns

section FixedPoints
variable {context rules} {I : Node → Session ν σ → Prop} {p q : Node} {a b : Session ν σ}
  {shape : Shape}

/-- The rule gives back every plan of the shape, as long as plan and session are as `I` says. -/
def Fixes (context : Context ν σ) (I : Node → Session ν σ → Prop) (shape : Shape)
    (rule : Rule ν σ) : Prop :=
  ∀ q c, q.shape = shape → I q c →
    ∃ r d, rule.apply context q c = .ok r d ∧ r.shape = shape ∧ I r d

theorem pass_of_fixes {rest : List (Rule ν σ)} (h : ∀ rule ∈ rest, Fixes context I shape rule)
    (hq : q.shape = shape) (hb : I q b) :
    ∃ r d, pass context rest q b = .ok (r, false) d ∧ r.shape = shape := by
  induction rest generalizing q b with
  | nil => exact ⟨q, b, rfl, hq⟩
  | cons rule rest ih =>
    rw [List.forall_mem_cons] at h
    obtain ⟨r, c, hr, hshape, hc⟩ := h.1 q b hq hb
    obtain ⟨o, d, ho, hend⟩ := ih h.2 hshape hc
    refine ⟨o, d, ?_, hend⟩
    have hsame : r.same q = true := Node.same_iff.2 (hshape.trans hq.symm)
    rw [pass_of_ok hr, ho, hsame]
    rfl

/-- Passes give back a plan that all rules give back. -/
theorem exhaust_of_fixes (h : ∀ rule ∈ rules, Fixes context I shape rule) (hq : q.shape = shape)
    (hb : I q b) (passes : Nat) :
    ∃ r d, exhaust context rules passes q b = .ok r d ∧ r.shape = shape := by
  cases passes with
  | zero => exact ⟨q, b, rfl, hq⟩
  | succ passes =>
    obtain ⟨r, d, hr, hshape⟩ := pass_of_fixes h hq hb
    exact ⟨r, d, by rw [exhaust_succ, hr], hshape⟩

variable (hI : ∀ rule ∈ rules, rule.Extensional context I) (hp : I p a)
include hI hp

theorem invariant_of_cycle {n : Nat} (hq : cycle context rules n p a = .ok q b) : I q b := by
  induction n generalizing q b with
  | zero =>
    obtain ⟨rfl, rfl⟩ := Action.pure_eq_ok.1 hq
    exact hp
  | succ n ih =>
    obtain ⟨r, c, hr, hq⟩ := Action.bind_eq_ok.1 hq
    have hc := ih hr
    unfold turn at hq
    cases hturn : rules[n % rules.length]? with
    | none =>
      rw [hturn] at hq
      obtain ⟨rfl, rfl⟩ := Action.pure_eq_ok.1 hq
      exact hc
    | some rule =>
      rw [hturn] at hq
      exact (hI rule (List.mem_of_getElem? hturn)).keeps hc hq

omit hI hp in
/-- During an idle pass all plans have the shape of the last one. -/
theorem shape_of_idle {k n left : Nat} {r : Node} {c : Session ν σ}
    (hidle : Idle context rules p a k) (hq : cycle context rules ((k + 1) * rules.length) p a = .ok q b)
    (hn : k * rules.length ≤ n) (hleft : n + left = (k + 1) * rules.length)
    (hr : cycle context rules n p a = .ok r c) : r.shape = q.shape := by
  induction left generalizing n r c with
  | zero =>
    rw [Nat.add_zero] at hleft
    rw [hleft, hq] at hr
    cases hr
    rfl
  | succ left ih =>
    obtain ⟨r', c', o, d, hr', ho, hshape⟩ := hidle n hn (by omega)
    cases hr.symm.trans hr'
    exact hshape.symm.trans (ih (by omega) (by omega) ((cycle_succ hr).trans ho))

/-- A plan that an idle pass leaves is given back by every rule. -/
theorem fixes_of_idle {k : Nat} (hidle : Idle context rules p a k)
    (hq : cycle context rules ((k + 1) * rules.length) p a = .ok q b) :
    ∀ rule ∈ rules, Fixes context I q.shape rule := by
  intro rule hrule m c hm hc
  obtain ⟨front, rest, hsplit⟩ := List.append_of_mem hrule
  have hlt : k * rules.length + front.length < (k + 1) * rules.length := by
    rw [Nat.succ_mul, hsplit, List.length_append, List.length_cons]
    omega
  obtain ⟨r, d, o, e, hr, ho, hshape⟩ := hidle _ (Nat.le_add_right ..) hlt
  have hrq : r.shape = q.shape :=
    shape_of_idle hidle hq (Nat.le_add_right ..) (Nat.add_sub_of_le hlt.le) hr
  rw [turn_of_split context hsplit rfl] at ho
  obtain ⟨o', e', ho', hshape'⟩ :=
    (hI rule hrule).shape (invariant_of_cycle hI hp hr) hc (hm.trans hrq.symm) ho
  exact ⟨o', e', ho', hshape'.trans (hshape.trans hrq), (hI rule hrule).keeps hc ho'⟩

end FixedPoints

/-- Passes of rules apply them in turn. Either an application fails, in one of the allowed passes and
after passes of which none was idle: this failure is the outcome. Or whole passes are made, up to the
first idle one or to the allowed number, and the last plan is the outcome. If the last pass was idle
and the rules go by shape, all of them give this plan back, and so do passes over it. -/
theorem outcome_of_exhaust (passes : Nat) (p : Node) (a : Session ν σ) :
    (∀ f c, exhaust context rules passes p a = .error f c →
      ∃ n < passes * rules.length, Breaks context rules p a n f c ∧
        ∀ k, (k + 1) * rules.length ≤ n → ¬ Idle context rules p a k) ∧
    ∀ q b, exhaust context rules passes p a = .ok q b →
      ∃ m ≤ passes, cycle context rules (m * rules.length) p a = .ok q b ∧
        (∀ k, k + 1 < m → ¬ Idle context rules p a k) ∧
        (m = passes ∨ ∃ k, k + 1 = m ∧ Idle context rules p a k) ∧
        ∀ k, k + 1 = m → Idle context rules p a k → ∀ I : Node → Session ν σ → Prop, I p a →
          (∀ rule ∈ rules, rule.Extensional context I) → I q b ∧ ∀ c, I q c →
            (∀ rule ∈ rules, ∃ r d, rule.apply context q c = .ok r d ∧ r.shape = q.shape) ∧
            ∀ passes', ∃ r d, exhaust context rules passes' q c = .ok r d ∧ r.shape = q.shape := by
  have hstart : cycle context rules (0 * rules.length) p a = .ok p a := by
    rw [Nat.zero_mul]
    rfl
  have houtcome := outcome_of_passes passes hstart fun k hk => absurd hk (Nat.not_lt_zero k)
  rw [Nat.zero_add] at houtcome
  refine ⟨fun f c hrun => ?_, fun q b hrun => ?_⟩
  · rwa [hrun] at houtcome
  · rw [hrun] at houtcome
    obtain ⟨m, -, hm, hq, hbusy, hend⟩ := houtcome
    refine ⟨m, hm, hq, hbusy, hend, ?_⟩
    rintro k rfl hidle I hp hI
    have hfixes := fixes_of_idle hI hp hidle hq
    refine ⟨invariant_of_cycle hI hp hq, fun c hc => ⟨fun rule hrule => ?_, fun passes' => ?_⟩⟩
    · obtain ⟨r, d, hr, hshape, -⟩ := hfixes rule hrule q c rfl hc
      exact ⟨r, d, hr, hshape⟩
    · exact exhaust_of_fixes hfixes rfl hc passes'

/-- Three tables below two limits. -/
def limitedTwice : Node :=
  .unary ⟨6, 6⟩ (.limit 5) (.unary ⟨5, 5⟩ (.limit 7) Structural.threeTables)

def unlimitAndReorder : List (Rule ℕ Unit) := [unlimit, Reorder.rule]

theorem outcome_of_exhaust_limitedTwice : ∃ q b,
    exhaust (.constant 1) unlimitAndReorder 9 limitedTwice (.unused 7) = .ok q b ∧
      (∃ m ≤ 9, cycle (.constant 1) unlimitAndReorder (m * 2) limitedTwice (.unused 7) = .ok q b) ∧
      (∃ r d, Reorder.rewrite (.constant 1) q b = .ok r d ∧ r.shape = q.shape) ∧
      ∃ r d, exhaust (.constant 1) unlimitAndReorder 9 q b = .ok r d ∧ r.shape = q.shape := by
  have hidle : Idle (.constant 1) unlimitAndReorder limitedTwice (.unused 7) 2 := by
    obtain ⟨c, h⟩ := Action.of_result? (a := Session.unused 7) (r := false)
      (x := Prod.snd <$> (cycle (.constant 1) unlimitAndReorder (2 * 2) limitedTwice >>=
        pass (.constant 1) unlimitAndReorder)) (by decide +kernel)
    obtain ⟨⟨r, changed⟩, h, rfl⟩ := Action.map_eq_ok.1 h
    obtain ⟨q, b, hq, hr⟩ := Action.bind_eq_ok.1 h
    have hpass := outcome_of_whole_pass (k := 2) hq
    rw [hr] at hpass
    exact hpass.2.1 rfl
  obtain ⟨q, b, hq⟩ := Action.exists_of_result? (a := Session.unused 7)
    (x := exhaust (.constant 1) unlimitAndReorder 9 limitedTwice) (by decide +kernel)
  obtain ⟨m, hm, hcycle, hbusy, hend, hfixed⟩ :=
    (outcome_of_exhaust (.constant 1) unlimitAndReorder 9 limitedTwice (.unused 7)).2 q b hq
  obtain ⟨k, hk, hlast⟩ := hend.resolve_left fun heq => hbusy 2 (by omega) hidle
  let o : Oracle ℕ := .certain (fun _ _ => .ofRows 10) ⟨fun _ => 10, fun _ _ _ => 1⟩
  have hgov : o.Governs (Context.constant 1).estimator (Context.constant 1).model :=
    structural_iff_governs.1 (structural_constant (.ofRows 10) 10 1)
  have hstart : (Session.unused 7).Lodges o.estimate limitedTwice :=
    ⟨⟨rfl, rfl, ⟨trivial, trivial⟩, trivial⟩, Heap.ofPlan 7 limitedTwice, ⟨rfl, nofun, nofun⟩,
      Heap.holds_ofPlan (by decide) (by decide)⟩
  obtain ⟨hq', hrest⟩ := hfixed k hk hlast _ hstart
    (List.forall_mem_cons.2
      ⟨extensional_unlimit _ _, List.forall_mem_singleton.2 hgov.extensional_rule⟩)
  obtain ⟨hrules, hagain⟩ := hrest b hq'
  exact ⟨q, b, hq, ⟨m, hm, hcycle⟩, hrules Reorder.rule (by simp [unlimitAndReorder]), hagain 9⟩

end Rule

end JoinOrder
