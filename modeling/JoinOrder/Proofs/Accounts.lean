import JoinOrder.Proofs.Heap
import JoinOrder.Proofs.Recording
import JoinOrder.Proofs.Refusal

/-!
# The account of a search

A recorded search does what the search does. It goes on while the log is clean, and ends when the
log is broken. All that is remembered in the end was remembered before or has been derived on the
way, and a node whose derivation has failed remembers nothing (`Inquirer.simulates_recorded`).

The account is kept on a page that holds what is remembered and what has been written down. The page
is the world in which the two runs are compared, and growing pages are the invariant.
-/

namespace JoinOrder

open Event

structure Page (ν : Type) where
  memo : Memo ν
  log : List (Event ν)

namespace Page
variable {ν : Type} {p q r : Page ν}

/-- This has been derived for the node in the cell, from what is remembered of its inputs. -/
def Derives (p : Page ν) (c : Nat) (s : Statistics ν) : Prop :=
  ∃ n inputs, n.cell = c ∧ .derived n inputs (.ok s) ∈ p.log ∧
    List.Forall₂ (fun (i : Node) t => p.memo i.cell = some t) n.inputs inputs

/-- Nothing is forgotten or crossed out, and what is remembered anew has been derived. -/
structure Before (p q : Page ν) : Prop where
  log : ∀ ev ∈ p.log, ev ∈ q.log
  kept : ∀ c s, p.memo c = some s → q.memo c = some s
  fresh : ∀ c s, q.memo c = some s → p.memo c = some s ∨ q.Derives c s

theorem Derives.mono {c : Nat} {s : Statistics ν} (h : p.Derives c s) (hpq : p.Before q) :
    q.Derives c s := by
  obtain ⟨n, inputs, hc, hlog, hinputs⟩ := h
  exact ⟨n, inputs, hc, hpq.log _ hlog, hinputs.imp fun _ _ => hpq.kept _ _⟩

theorem Before.refl (p : Page ν) : p.Before p := ⟨fun _ h => h, fun _ _ h => h, fun _ _ => .inl⟩

theorem Before.trans (h : p.Before q) (h' : q.Before r) : p.Before r where
  log ev hev := h'.log ev (h.log ev hev)
  kept c s hs := h'.kept c s (h.kept c s hs)
  fresh c s hs := (h'.fresh c s hs).elim
    (fun hs => (h.fresh c s hs).imp_right fun hs => hs.mono h') .inr

instance : World (Page ν) := ⟨Before, .refl, .trans⟩

def write (p : Page ν) (ev : Event ν) : Page ν := ⟨p.memo, p.log ++ [ev]⟩

theorem before_write (p : Page ν) (ev : Event ν) : p.Before (p.write ev) :=
  ⟨fun _ => List.mem_append_left _, fun _ _ h => h, fun _ _ => .inl⟩

def remember (p : Page ν) (c : Nat) (s : Statistics ν) : Page ν := ⟨p.memo.insert c s, p.log⟩

theorem before_remember {c : Nat} {s : Statistics ν} (hc : p.memo c = none) {n : Node}
    {inputs : List (Statistics ν)} (hn : n.cell = c) (hlog : .derived n inputs (.ok s) ∈ p.log)
    (hinputs : List.Forall₂ (fun (i : Node) t => p.memo i.cell = some t) n.inputs inputs) :
    p.Before (p.remember c s) := by
  have hkept : ∀ d t, p.memo d = some t → (p.remember c s).memo d = some t := fun d t ht => by
    have hd : d ≠ c := fun hd => by
      rw [hd, hc] at ht
      cases ht
    exact (if_neg hd).trans ht
  refine ⟨fun _ h => h, hkept, fun d t ht => ?_⟩
  by_cases hd : d = c
  · have hst : s = t := Option.some.inj ((if_pos hd).symm.trans ht)
    subst hd hst
    exact .inr ⟨n, inputs, hn, hlog, hinputs.imp fun _ _ => hkept _ _⟩
  · exact .inl ((if_neg hd).symm.trans ht)

/-- Nothing has been remembered but in the cells of these nodes. -/
def Spares (p q : Page ν) (ns : List Node) : Prop :=
  ∀ c, (∀ n ∈ ns, n.cell ≠ c) → q.memo c = p.memo c

end Page

section Accounts
variable {ν σ α : Type}

/-- What is written down has come about: answers are the estimator's, and new nodes have ids and
cells that were not taken at the start. -/
def Event.Genuine (estimator : Estimator ν σ) (start : Supply) (h : Heap) : Event ν → Prop
  | derived n inputs answer =>
    h.Holds n ∧ ∃ env env', estimator n inputs env = Action.ofExcept answer env'
  | built n => start.nextId ≤ n.id ∧ start.nextCell ≤ n.cell
  | _ => True

/-- The page is about these estimates, and about these recorded ones. -/
structure Page.Describes (p : Page ν) (estimator : Estimator ν σ) (start : Supply) (h : Heap)
    (e : Estimates ν σ) (e' : Estimates ν (σ × List (Event ν))) : Prop where
  memo : e.memo = p.memo
  recorded : e' = e.watched p.log
  genuine : ∀ ev ∈ p.log, ev.Genuine estimator start h

/-- A failure has stopped the run. If it is that of a derivation, the node remembers nothing. -/
structure Page.Stops (p : Page ν) (f : Failure) : Prop where
  log : Broken f p.log
  memo : ∀ n inputs g, .derived n inputs (.error g) ∈ p.log → p.memo n.cell = none

variable (estimator : Estimator ν σ) (start : Supply) (h : Heap)

/-- Estimates beside recorded ones. -/
def recording : Correspondence (Page ν) (Estimates ν σ) (Estimates ν (σ × List (Event ν))) where
  holds p e e' := p.Describes estimator start h e e' ∧ Clean p.log
  fails p f e e' := p.Describes estimator start h e e' ∧ p.Stops f

/-- Estimates beside recorded ones in a call to the cost model, whose own failure has not been
written down yet. -/
def inquiring : Correspondence (Page ν) (Estimates ν σ) (Estimates ν (σ × List (Event ν))) where
  holds := (recording estimator start h).holds
  fails p f e e' := p.Describes estimator start h e e' ∧ (Clean p.log ∨ p.Stops f)

variable {estimator start h} {p : Page ν} {e : Estimates ν σ}
  {e' : Estimates ν (σ × List (Event ν))} {ev : Event ν} {f : Failure}

theorem Page.Stops.write (hp : p.Stops f) (hev : ¬ ev.Begins) : (p.write ev).Stops f where
  log := hp.log.concat hev
  memo n inputs g hg := by
    rcases List.mem_append.1 hg with hg | hg
    · exact hp.memo n inputs g hg
    · exact absurd (List.mem_singleton.1 hg ▸ trivial) hev

theorem Page.stops_write (hp : Clean p.log) (hev : ev.failure? = some f)
    (hmemo : ∀ n inputs g, ev = .derived n inputs (.error g) → p.memo n.cell = none) :
    (p.write ev).Stops f where
  log := hp.broken hev
  memo n inputs g hg := by
    rcases List.mem_append.1 hg with hg | hg
    · cases hp _ hg
    · exact hmemo n inputs g (List.mem_singleton.1 hg).symm

theorem Page.Describes.write (hp : p.Describes estimator start h e e')
    (hev : ev.Genuine estimator start h) (env : σ) :
    (p.write ev).Describes estimator start h { e with env }
      (Estimates.watched { e with env } (p.log ++ [ev])) where
  memo := hp.memo
  recorded := rfl
  genuine := List.forall_mem_append.2 ⟨hp.genuine, List.forall_mem_singleton.2 hev⟩

theorem Page.Describes.turn (hp : p.Describes estimator start h e e') (env : σ) :
    p.Describes estimator start h { e with env } (Estimates.watched { e with env } p.log) :=
  ⟨hp.memo, rfl, hp.genuine⟩

/-- A call to the estimator, whatever it is made for. -/
theorem recording_call {x : Action σ (Statistics ν)}
    {event : Except Failure (Statistics ν) → Event ν} (hok : ∀ s, (event (.ok s)).failure? = none)
    (herror : ∀ f, (event (.error f)).failure? = some f)
    (hev : ∀ env answer env', x env = Action.ofExcept answer env' →
      (event answer).Genuine estimator start h ∧
        ∀ n inputs b, event answer = .derived n inputs b → p.memo n.cell = none) :
    (recording estimator start h).Relates p (Estimating.ofEnv x)
      (Estimating.ofEnv (x.recorded event))
      fun v r s => r = s ∧ v.memo = p.memo ∧ event (.ok r) ∈ v.log := by
  rintro e _ ⟨hp, hclean⟩
  rw [hp.recorded]
  unfold Estimating.ofEnv Action.onPart Action.recorded Estimates.watched
  dsimp only
  cases hx : x e.env with
  | ok s env =>
    obtain ⟨hgenuine, -⟩ := hev e.env (.ok s) env hx
    exact .ok (p.before_write _) ⟨hp.write hgenuine env, clean_concat.2 ⟨hclean, hok s⟩⟩
      ⟨rfl, rfl, List.mem_append_right _ (List.mem_singleton_self _)⟩
  | error f env =>
    obtain ⟨hgenuine, hmemo⟩ := hev e.env (.error f) env hx
    exact .error (p.before_write _) ⟨hp.write hgenuine env,
      Page.stops_write hclean (herror f) fun n inputs g => hmemo n inputs _⟩

theorem Page.Spares.trans {p q r : Page ν} {ms ns : List Node} (hpq : p.Spares q ms)
    (hqr : q.Spares r ns) : p.Spares r (ms ++ ns) := fun c hc => by
  obtain ⟨hm, hn⟩ := List.forall_mem_append.1 hc
  exact (hqr c hn).trans (hpq c hm)

/-- The derivation of a node that remembers nothing may rely on that. -/
theorem recording_remember {n : Node} {below : List Node} {x : Estimating ν σ (Statistics ν)}
    {y : Estimating ν (σ × List (Event ν)) (Statistics ν)} (hn : ∀ m ∈ below, m.cell ≠ n.cell)
    (hx : p.memo n.cell = none → (recording estimator start h).Relates p x y fun v r s =>
      r = s ∧ p.Spares v below ∧ ∃ inputs, .derived n inputs (.ok r) ∈ v.log ∧
        List.Forall₂ (fun (i : Node) t => v.memo i.cell = some t) n.inputs inputs) :
    (recording estimator start h).Relates p (Estimating.remember n.cell x)
      (Estimating.remember n.cell y)
      fun v r s => r = s ∧ v.memo n.cell = some r ∧ p.Spares v (n :: below) := by
  have hget : (recording estimator start h).Relates p get get fun v e e' =>
      v = p ∧ e.memo = p.memo ∧ e'.memo = p.memo := by
    rintro e _ ⟨hp, hclean⟩
    rw [hp.recorded]
    exact .ok (World.refl p) ⟨⟨hp.memo, rfl, hp.genuine⟩, hclean⟩ ⟨rfl, hp.memo, hp.memo⟩
  unfold Estimating.remember
  refine hget.bind ?_
  rintro v e e' - ⟨rfl, he, he'⟩
  rw [he, he']
  cases hmemo : v.memo n.cell with
  | some s => exact .pure ⟨rfl, hmemo, fun _ _ => rfl⟩
  | none =>
    refine (hx hmemo).bind ?_
    rintro w s _ - ⟨rfl, hspares, inputs, hlog, hinputs⟩
    have hnone : w.memo n.cell = none := (hspares n.cell hn).trans hmemo
    have hset : (recording estimator start h).Relates w
        (modify fun e => { e with memo := e.memo.insert n.cell s })
        (modify fun e => { e with memo := e.memo.insert n.cell s })
        fun u _ _ => u = w.remember n.cell s := by
      rintro a _ ⟨hp, hclean⟩
      rw [hp.recorded]
      refine .ok (Page.before_remember hnone rfl hlog hinputs) ⟨⟨?_, rfl, hp.genuine⟩, hclean⟩ rfl
      exact congrArg (Memo.insert · n.cell s) hp.memo
    refine hset.bind ?_
    rintro _ - - - rfl
    refine .pure ⟨rfl, if_pos rfl, fun c hc => ?_⟩
    obtain ⟨hself, hbelow⟩ := List.forall_mem_cons.1 hc
    exact (if_neg (Ne.symm hself)).trans (hspares c hbelow)

theorem recording_estimate {n : Node} (hn : h.Holds n) :
    (recording estimator start h).Relates p (Estimating.estimate estimator n)
      (Estimating.estimate estimator.recorded n)
      fun v r s => r = s ∧ v.memo n.cell = some r ∧ p.Spares v n.preorder := by
  have hcall {v : Page ν} {m : Node} (hm : h.Holds m) (hnone : v.memo m.cell = none)
      (inputs : List (Statistics ν)) : (recording estimator start h).Relates v
      (Estimating.ofEnv (estimator m inputs)) (Estimating.ofEnv (estimator.recorded m inputs))
      fun u r s => r = s ∧ u.memo = v.memo ∧ .derived m inputs (.ok r) ∈ u.log :=
    recording_call (fun _ => rfl) (fun _ => rfl) fun env answer env' hx =>
      ⟨⟨hm, env, env', hx⟩, fun _ _ _ heq => by cases heq; exact hnone⟩
  induction n generalizing p with
  | scan tag s =>
    refine recording_remember (n := .scan tag s) (by simp) fun hnone => ?_
    refine (hcall hn hnone []).imp ?_
    rintro v r _ - ⟨rfl, hmemo, hlog⟩
    exact ⟨rfl, fun c _ => by rw [hmemo], [], hlog, .nil⟩
  | unary tag op i ih =>
    obtain ⟨-, hi⟩ := Heap.holds_unary.1 hn
    have hbelow : ∀ m ∈ i.preorder, m.cell ≠ tag.cell := fun m =>
      hn.cell_ne_below (List.mem_singleton_self i)
    refine recording_remember (n := .unary tag op i) hbelow fun hnone => ?_
    -- the input is estimated first, which leaves the cell of the node empty
    refine (ih hi).bind ?_
    rintro v s _ hv ⟨rfl, hs, hspares⟩
    refine (hcall hn ((hspares _ hbelow).trans hnone) [s]).imp ?_
    rintro w r _ - ⟨rfl, hmemo, hlog⟩
    refine ⟨rfl, fun c hc => by rw [hmemo, hspares c hc], [s], hlog, .cons ?_ .nil⟩
    rw [hmemo, hs]
  | join tag j l r ihl ihr =>
    obtain ⟨-, hl, hr⟩ := Heap.holds_join.1 hn
    have hbelow : ∀ m ∈ l.preorder ++ r.preorder, m.cell ≠ tag.cell := fun m hm =>
      (List.mem_append.1 hm).elim (hn.cell_ne_below (List.mem_cons_self ..))
        (hn.cell_ne_below (List.mem_cons_of_mem _ (List.mem_singleton_self r)))
    refine recording_remember (n := .join tag j l r) hbelow fun hnone => ?_
    refine (ihl hl).bind ?_
    rintro v s _ hv ⟨rfl, hs, hspares⟩
    refine (ihr hr).bind ?_
    rintro w t _ hw ⟨rfl, ht, hspares'⟩
    have hall := hspares.trans hspares'
    refine (hcall hn ((hall _ hbelow).trans hnone) [s, t]).imp ?_
    rintro u r _ - ⟨rfl, hmemo, hlog⟩
    refine ⟨rfl, fun c hc => by rw [hmemo, hall c hc], [s, t], hlog, .cons ?_ (.cons ?_ .nil)⟩
    · rw [hmemo, hw.kept _ _ hs]
    · rw [hmemo, ht]

/-- An inquiry that gives up changes nothing but its own state. -/
theorem Inquiry.GivesUp.run {n : Node} {x : Inquiry ν σ n α} (hx : x.GivesUp f)
    (estimator : Estimator ν σ) (e : Estimates ν σ) (log : List (Event ν)) :
    ∃ env, x.run (.plain estimator) e = .error f { e with env } ∧
      x.run (.recorded estimator) (e.watched log) =
        .error f (Estimates.watched { e with env } log) := by
  induction x generalizing e with
  | answer | estimate | consult => exact hx.elim
  | fail g =>
    cases hx
    exact ⟨e.env, rfl, rfl⟩
  | turn change next ih => exact ih e.env (hx e.env) { e with env := change e.env }
  | look m _ next ih => exact ih (e.memo m.cell) (hx (e.memo m.cell)) e

section Inquiries
variable {n : Node} {x : Inquiry ν σ n α}

theorem inquiring_attempt {x : Estimating ν σ (Statistics ν)}
    {y : Estimating ν (σ × List (Event ν)) (Statistics ν)}
    {next : Except Failure (Statistics ν) → Inquiry ν σ n α}
    (hx : (recording estimator start h).Relates p x y fun _ r s => r = s)
    (hfail : ∀ f, (next (.error f)).GivesUp f)
    (hnext : ∀ v s, (inquiring estimator start h).Relates v ((next (.ok s)).run (.plain estimator))
      ((next (.ok s)).run (.recorded estimator)) fun _ r s => r = s) :
    (inquiring estimator start h).Relates p
      (x.attempt >>= fun s => (next s).run (.plain estimator))
      (y.attempt >>= fun s => (next s).run (.recorded estimator)) fun _ r s => r = s := by
  intro e e' hp
  have hend := hx e e' hp
  change (inquiring estimator start h).Ends p _ (EStateM.bind _ _ e) (EStateM.bind _ _ e')
  unfold EStateM.bind Action.attempt
  generalize x e = left at hend ⊢
  generalize y e' = right at hend ⊢
  cases hend with
  | ok hv hok hq =>
    cases hq
    exact (hnext _ _ _ _ hok).mono hv fun _ _ _ _ h => h
  | @error v f a b hv hstop =>
    -- the log is broken by now, and stays as it is because the inquiry gives up
    obtain ⟨hp, hstop⟩ := hstop
    obtain ⟨env, hleft, hright⟩ := (hfail f).run estimator a v.log
    rw [hp.recorded]
    dsimp only
    rw [hleft, hright]
    exact .error hv ⟨hp.turn env, .inr hstop⟩
  | panic h | alone h => exact h.elim

/-- An inquiry that passes failures on does the same when it is recorded. -/
theorem inquiring_run (hn : h.Holds n) (hx : x.PassesOn) :
    (inquiring estimator start h).Relates p (x.run (.plain estimator))
      (x.run (.recorded estimator)) fun _ r s => r = s := by
  induction x generalizing p with
  | answer r => exact .pure rfl
  | fail f => exact fun e e' hp => .error (World.refl _) ⟨hp.1, .inl hp.2⟩
  | turn change next ih =>
    have hturn : (inquiring estimator start h).Relates p ((Desk.plain estimator).turn change)
        ((Desk.recorded estimator).turn change) fun _ r s => r = s := by
      rintro e _ ⟨hp, hclean⟩
      rw [hp.recorded]
      exact .ok (World.refl p) ⟨hp.turn _, hclean⟩ rfl
    refine hturn.bind ?_
    rintro v r _ - rfl
    exact ih r (hx r)
  | look m hm next ih =>
    have hget : (inquiring estimator start h).Relates p get get fun _ e e' => e'.memo = e.memo :=
      fun e e' hp => .ok (World.refl p) hp (congrArg Estimates.memo hp.1.recorded)
    refine hget.bind fun v e e' _ he => ?_
    rw [he]
    exact ih (e.memo m.cell) (hx _)
  | estimate m hm next ih =>
    refine inquiring_attempt ?_ hx.1 fun v s => ih (.ok s) (hx.2 s)
    exact (recording_estimate (hn.sub hm)).imp fun _ _ _ _ hs => hs.1
  | consult m inputs next ih =>
    refine inquiring_attempt ?_ hx.1 fun v s => ih (.ok s) (hx.2 s)
    have hcall : (recording estimator start h).Relates p (Estimating.ofEnv (estimator m inputs))
        (Estimating.ofEnv ((estimator m inputs).recorded (.consulted m inputs)))
        fun v r s => r = s ∧ v.memo = p.memo ∧ .consulted m inputs (.ok r) ∈ v.log :=
      recording_call (fun _ => rfl) (fun _ => rfl) fun _ _ _ _ => ⟨trivial, nofun⟩
    exact hcall.imp fun _ _ _ _ hs => hs.1

theorem recording_inquiry {x : Inquiry ν σ n ν} (hn : h.Holds n) (hx : x.PassesOn) :
    (recording estimator start h).Relates p (x.run (.plain estimator)) (x.recorded estimator)
      fun _ r s => r = s := by
  rintro e e' ⟨hp, hclean⟩
  have hpricing : Event.Genuine estimator start h (.pricing n) := trivial
  have hpriced (answer : Except Failure ν) : Event.Genuine estimator start h (.priced n answer) :=
    trivial
  have hstart := hp.write hpricing e.env
  have hend := inquiring_run hn hx e _ ⟨hstart, clean_concat.2 ⟨hclean, rfl⟩⟩
  have hrun : x.recorded estimator e' = EStateM.bind (x.run (.recorded estimator)).attempt
      (fun answer => do
        Estimating.write (.priced n answer)
        Action.ofExcept answer) (e.watched (p.log ++ [.pricing n])) := by
    rw [hp.recorded]
    rfl
  rw [hrun]
  unfold EStateM.bind Action.attempt
  generalize x.run (.plain estimator) e = left at hend ⊢
  generalize x.run (.recorded estimator) (e.watched (p.log ++ [.pricing n])) = right at hend ⊢
  have hpage := p.before_write (.pricing n)
  cases hend with
  | @ok v c _ a b hv hok hq =>
    cases hq
    obtain ⟨hp, hclean⟩ := hok
    rw [hp.recorded]
    exact .ok (World.trans hpage (World.trans hv (v.before_write (.priced n (.ok c)))))
      ⟨hp.write (hpriced _) a.env, clean_concat.2 ⟨hclean, rfl⟩⟩ rfl
  | @error v f a b hv hstop =>
    obtain ⟨hp, hstop⟩ := hstop
    rw [hp.recorded]
    refine .error (World.trans hpage (World.trans hv (v.before_write (.priced n (.error f)))))
      ⟨hp.write (hpriced _) a.env, ?_⟩
    rcases hstop with hclean | hstop
    · exact Page.stops_write hclean rfl nofun
    · exact hstop.write id
  | panic h | alone h => exact h.elim

end Inquiries

theorem Event.Genuine.mono {h' : Heap} (hev : ev.Genuine estimator start h) (hb : h.Before h') :
    ev.Genuine estimator start h' := by
  cases ev with
  | derived n inputs answer => exact ⟨hev.1.mono hb, hev.2⟩
  | _ => exact hev

theorem Page.Describes.mono {h' : Heap} (hp : p.Describes estimator start h e e')
    (hb : h.Before h') : p.Describes estimator start h' e e' :=
  ⟨hp.memo, hp.recorded, fun ev hev => (hp.genuine ev hev).mono hb⟩

/-- Ids and cells have been taken from the supply since the start, and the next cell is the next one
of the heap. -/
structure Supply.Continues (start : Supply) (h : Heap) (s : Supply) : Prop where
  fits : s.Fits h
  id : start.nextId ≤ s.nextId
  cell : start.nextCell ≤ s.nextCell

/-- Sessions beside recorded ones. A ranking panics only under the given condition. -/
def recordingSession (estimator : Estimator ν σ) (start : Supply) (panics : Prop) :
    Correspondence (Heap × Page ν) (Session ν σ) (Session ν (σ × List (Event ν))) where
  holds w a b := (b.supply = a.supply ∧ start.Continues w.1 a.supply) ∧
    (recording estimator start w.1).holds w.2 a.estimates b.estimates
  fails w f a b := (b.supply = a.supply ∧ start.Continues w.1 a.supply) ∧
    (recording estimator start w.1).fails w.2 f a.estimates b.estimates
  panics := panics

section Sessions
variable {β : Type} {w : Heap × Page ν} {panics : Prop}

theorem recording_estimating {x : Estimating ν σ α} {y : Estimating ν (σ × List (Event ν)) β}
    {Q : Heap × Page ν → α → β → Prop}
    (hx : (recording estimator start w.1).Relates w.2 x y fun v => Q (w.1, v)) :
    (recordingSession estimator start panics).Relates w (Planning.estimating x)
      (Planning.estimating y) Q := by
  rintro a b ⟨hsupply, hestimates⟩
  have hend := hx _ _ hestimates
  unfold Planning.estimating Action.onPart
  dsimp only
  generalize x a.estimates = left at hend ⊢
  generalize y b.estimates = right at hend ⊢
  cases hend with
  | @ok v _ _ _ _ hv he hq => exact .ok (v := (w.1, v)) ⟨World.refl w.1, hv⟩ ⟨hsupply, he⟩ hq
  | @error v _ _ _ hv he => exact .error (v := (w.1, v)) ⟨World.refl w.1, hv⟩ ⟨hsupply, he⟩
  | panic h | alone h => exact h.elim

/-- The same nodes, which stand in the heap. -/
def Held (w : Heap × Page ν) (m n : Node) : Prop := m = n ∧ w.1.Holds m

theorem recording_newJoin (q : Inquirer ν σ) (j : Join) {l r : Node} (hl : w.1.Holds l)
    (hr : w.1.Holds r) : (recordingSession estimator start panics).Relates w
      (Planning.newJoin j l r) (q.recorded.newJoin j l r) Held := by
  rintro a ⟨_, _⟩ ⟨⟨rfl, hcontinues⟩, hp, hclean⟩
  have hrecorded := hp.recorded
  dsimp only at hrecorded
  rw [hrecorded]
  let n : Node := .join ⟨a.supply.nextId, a.supply.nextCell⟩ j l r
  have hn : (w.1.push n).Holds n := Heap.holds_push hcontinues.fits
    (List.forall_mem_cons.2 ⟨hl, List.forall_mem_singleton.2 hr⟩)
  have hbuilt : Event.Genuine estimator start (w.1.push n) (.built n) :=
    ⟨hcontinues.id, hcontinues.cell⟩
  have hpush := w.1.before_push n
  refine .ok (v := (w.1.push n, w.2.write (.built n))) ⟨hpush, w.2.before_write _⟩
    ⟨⟨rfl, congrArg Nat.succ hcontinues.fits, hcontinues.id.trans (Nat.le_succ _),
      hcontinues.cell.trans (Nat.le_succ _)⟩, (hp.mono hpush).write hbuilt a.estimates.env,
      clean_concat.2 ⟨hclean, rfl⟩⟩ ⟨rfl, hn⟩

end Sessions

/-- A recorded search does what the search does, if the cost model passes failures on. -/
theorem Inquirer.simulates_recorded {q : Inquirer ν σ} (hq : q.PassesOn) (start : Supply)
    (panics : Prop) :
    Steps.Simulates (recordingSession q.estimator start panics) Held q.search.steps q.recorded where
  mono hw h := ⟨h.1, h.2.mono hw.1⟩
  columns h := by
    rw [h.1]
    exact fun _ => rfl
  appraise := by
    rintro w m _ ⟨rfl, hm⟩
    refine recording_estimating ((recording_estimate hm).bind fun v _ _ _ _ => ?_)
    exact (recording_inquiry hm (hq.base m)).bind fun v c d _ hc => .pure ⟨⟨rfl, hm⟩, hc⟩
  newJoin := by
    rintro w m _ n _ j ⟨rfl, hm⟩ ⟨rfl, hn⟩
    exact recording_newJoin q j hm hn
  joinCost := by
    rintro w n _ t t' u u' ⟨rfl, hn⟩ ht hu
    refine recording_estimating ((recording_estimate hn).bind fun v _ _ _ _ => ?_)
    rw [← ht, ← hu]
    exact recording_inquiry hn (hq.join n t.cost u.cost)

end Accounts

end JoinOrder
