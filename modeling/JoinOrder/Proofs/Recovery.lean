import JoinOrder.Proofs.Accounts
import JoinOrder.Proofs.Following

/-!
# Failed searches and what follows them

A search fails just if some call fails, unless the ranking of its members panics. It fails for the
reason of the first call that does, and makes no call after it. What it leaves behind is right as far
as it goes, so that a search of the same members by collaborators that do not fail finds what it
would have found without the failure, or panics as it would have (`Inquirer.solve_aborts`).
-/

namespace JoinOrder

open Event

section Agreement
variable {ν σ τ : Type} {derive : Node → List (Statistics ν) → Statistics ν}
  {estimator : Estimator ν σ} {start : Supply} {h k : Heap} {p : Page ν} {a : Estimates ν σ}

/-- The estimator gives these estimates where it gives any. -/
def Estimator.Follows (estimator : Estimator ν σ)
    (derive : Node → List (Statistics ν) → Statistics ν) : Prop :=
  ∀ n inputs env s env', estimator n inputs env = .ok s env' → s = derive n.bare inputs

/-- If all that is remembered at first is right, it stays right, however the run ends. -/
theorem Page.Before.eq_derived (hv : Page.Before ⟨a.memo, []⟩ p) (hest : estimator.Follows derive)
    (hgenuine : ∀ ev ∈ p.log, ev.Genuine estimator start k) (hb : h.Before k)
    (ha : a.Agrees derive h) {n : Node} (hn : k.Holds n) {s : Statistics ν}
    (hs : p.memo n.cell = some s) : s = derived derive n.bare := by
  induction hheight : n.height using Nat.strong_induction_on generalizing n s with
  | _ height ih =>
    rcases hv.fresh n.cell s hs with hs | ⟨m, inputs, hcell, hlog, hinputs⟩
    · have hnode := hn.self.2
      rw [hb.node? _ (ha.size _ s hs)] at hnode
      exact ha.memo _ _ s hnode hs
    · -- what has been derived came from what the inputs remember, which is right by induction
      obtain ⟨hm, env, env', hx⟩ := hgenuine _ hlog
      have hsame := hm.bare_eq hn hcell
      have hlist : n.bare.inputs.map (derived derive) = inputs := by
        rw [← hsame, Node.inputs_bare, List.map_map, ← List.forall₂_eq_eq_eq,
          List.forall₂_map_left_iff]
        have hmem := (List.forall₂_and_left m.inputs inputs).2 ⟨fun i hi => hi, hinputs⟩
        refine hmem.imp ?_
        rintro i t ⟨hi, ht⟩
        refine (ih i.height ?_ (hm.input hi) ht rfl).symm
        rw [← hheight, ← n.height_bare, ← hsame, m.height_bare]
        exact Node.height_lt hi
      rw [derived_eq, hlist, ← hsame]
      exact hest m inputs env s env' hx

theorem Page.Before.agrees (hv : Page.Before ⟨a.memo, []⟩ p) (hest : estimator.Follows derive)
    (hgenuine : ∀ ev ∈ p.log, ev.Genuine estimator start k) (hb : h.Before k)
    (ha : a.Agrees derive h) (env : τ) : Estimates.Agrees derive k ⟨p.memo, env⟩ where
  size c s hs := by
    rcases hv.fresh c s hs with hs | ⟨m, inputs, rfl, hlog, -⟩
    · exact (ha.size c s hs).trans_le hb.size
    · exact (hgenuine _ hlog).1.self.1
  memo c n s hn hs := by
    rcases hv.fresh c s hs with hold | ⟨m, inputs, rfl, hlog, -⟩
    · exact ha.memo c n s ((hb.node? c (ha.size c s hold)).symm.trans hn) hold
    · have hm := (hgenuine _ hlog).1
      rw [hm.self.2] at hn
      cases hn
      exact hv.eq_derived hest hgenuine hb ha hm hs

end Agreement

namespace Inquirer
variable {ν σ : Type} {q : Inquirer ν σ}

/-- What a run with this log leaves behind. -/
structure Leaves (q : Inquirer ν σ) (a b : Session ν σ) (log : List (Event ν)) : Prop where
  /-- What was remembered before is not changed. -/
  kept : ∀ c s, a.estimates.memo c = some s → b.estimates.memo c = some s
  /-- What is remembered anew has been derived for the node. -/
  fresh : ∀ c s, b.estimates.memo c = some s → a.estimates.memo c = some s ∨
    ∃ n inputs, n.cell = c ∧ .derived n inputs (.ok s) ∈ log
  /-- What has been derived is what the estimator said. -/
  answers : ∀ n inputs answer, .derived n inputs answer ∈ log →
    ∃ env env', q.estimator n inputs env = Action.ofExcept answer env'
  /-- A node whose derivation failed remembers nothing. -/
  failed : ∀ n inputs f, .derived n inputs (.error f) ∈ log → b.estimates.memo n.cell = none
  /-- New nodes take nobody's place. -/
  built : ∀ n, .built n ∈ log → a.supply.nextId ≤ n.id ∧ a.supply.nextCell ≤ n.cell

/-- From here on, collaborators that do not fail find what others like them find for a fresh copy of
the group. If the members cannot be ranked by their prices, both searches panic. -/
def Recovers [CostScale ν] (q : Inquirer ν σ) (derive : Node → List (Statistics ν) → Statistics ν)
    (p : Pricing ν) (members : List Node) (residuals : List Expr) (b : Session ν σ) : Prop :=
  ∀ (τ υ : Type) (t : Search ν τ) (u : Search ν υ), t.edges = q.edges → u.edges = q.edges →
    Structural t.estimator t.model derive p → Structural u.estimator u.model derive p →
    ∀ (env : τ) (copies : List Node) (k : Heap) (c : Session ν υ),
      copies.map Node.bare = members.map Node.bare → (∀ m ∈ copies, k.Holds m) → c.Fits derive k →
      (∃ found d found' d',
        t.solve members residuals ⟨b.supply, ⟨b.estimates.memo, env⟩⟩ = .ok found d ∧
        u.solve copies residuals c = .ok found' d' ∧
        found.map Solution.bare = found'.map Solution.bare) ∨
      (rankedBy p.base (members.map Node.bare) = none ∧ ∃ d d',
        t.solve members residuals ⟨b.supply, ⟨b.estimates.memo, env⟩⟩ = .error .disorder d ∧
        u.solve copies residuals c = .error .disorder d')

section Page
variable {a b : Session ν σ} {e : Estimates ν (σ × List (Event ν))} {h k : Heap} {p : Page ν}
  (hp : p.Describes q.estimator a.supply k b.estimates e)
  (hv : Page.Before ⟨a.estimates.memo, []⟩ p)
include hp hv

theorem leaves_of_describes
    (hfailed : ∀ n inputs f, .derived n inputs (.error f) ∈ p.log → p.memo n.cell = none) :
    q.Leaves a b p.log where
  kept c s hs := by
    rw [hp.memo]
    exact hv.kept c s hs
  fresh c s hs := by
    rw [hp.memo] at hs
    refine (hv.fresh c s hs).imp_right ?_
    rintro ⟨n, inputs, hc, hlog, -⟩
    exact ⟨n, inputs, hc, hlog⟩
  answers n inputs answer hlog := (hp.genuine _ hlog).2
  failed n inputs f hlog := by
    rw [hp.memo]
    exact hfailed n inputs f hlog
  built n hlog := hp.genuine _ hlog

theorem recovers_of_describes [CostScale ν] {members : List Node} (hm : ∀ m ∈ members, h.Holds m)
    (hb : h.Before k) (hsupply : b.supply.Fits k)
    {derive : Node → List (Statistics ν) → Statistics ν} (hest : q.estimator.Follows derive)
    (ha : a.estimates.Agrees derive h) (prices : Pricing ν) (residuals : List Expr) :
    q.Recovers derive prices members residuals b := by
  intro τ υ t u ht hu hst hsu env copies k' c hcopies hheld hc
  have hmembers : ∀ m ∈ members, k.Holds m := fun m hmem => (hm m hmem).mono hb
  have hagrees := hv.agrees hest hp.genuine hb ha env
  rw [← hp.memo] at hagrees
  have hfits : Session.Fits derive k (⟨b.supply, ⟨b.estimates.memo, env⟩⟩ : Session ν τ) :=
    ⟨hsupply, hagrees⟩
  cases hr : rankedBy prices.base (members.map Node.bare) with
  | none =>
    obtain ⟨d, hd⟩ := hst.solve_panics hmembers hr residuals hfits
    obtain ⟨d', hd'⟩ := hsu.solve_panics hheld (hcopies ▸ hr) residuals hc
    exact .inr ⟨rfl, d, d', hd, hd'⟩
  | some order =>
    obtain ⟨found, d, -, hfound, -, -, -, hsame⟩ := hst.solve_ranked hmembers hr residuals _ hfits
    obtain ⟨found', d', -, hfound', -, -, -, hsame'⟩ :=
      hsu.solve_ranked hheld (hcopies ▸ hr) residuals c hc
    rw [ht] at hsame
    rw [hu] at hsame'
    exact .inl ⟨found, d, found', d', hfound, hfound', hsame.trans hsame'.symm⟩

end Page

theorem session_eq {b : Session ν σ} {log : List (Event ν)} {c : Session ν (σ × List (Event ν))}
    (hsupply : c.supply = b.supply) (hestimates : c.estimates = b.estimates.watched log) :
    c = b.watched log := by
  obtain ⟨supply, estimates⟩ := c
  cases hsupply
  cases hestimates
  rfl

variable [CostScale ν]

/-- A failing call ends the search, and the search fails for its reason. Otherwise the search is
successful, unless the ranking of its members panics. What the search leaves behind is right, and does
not show in later searches. -/
theorem solve_aborts (hq : q.PassesOn) {h : Heap} {members : List Node}
    (hm : ∀ m ∈ members, h.Holds m) {a : Session ν σ} (ha : a.supply.Fits h)
    (residuals : List Expr) :
    ∃ result b log,
      q.search.solve members residuals a = Action.ofExcept result b ∧
      q.recorded.solve q.edges members residuals (a.watched []) =
        Action.ofExcept result (b.watched log) ∧
      (((∃ f, result = .error f) ↔ ∃ ev ∈ log, ev.failure? ≠ none) ∧
          (∀ f, result = .error f → Broken f log) ∨
        result = .error .disorder ∧ Clean log ∧
          RankingPanics q.search.estimator q.search.model members) ∧
      q.Leaves a b log ∧
      ∀ derive p, q.estimator.Follows derive → a.estimates.Agrees derive h →
        q.Recovers derive p members residuals b := by
  have hsame : List.Forall₂ (Held (h, ⟨a.estimates.memo, []⟩)) members members :=
    List.forall₂_same.2 fun m hmem => ⟨rfl, hm m hmem⟩
  have hend := (simulates_recorded hq a.supply
    (RankingPanics q.search.estimator q.search.model members)).solve q.edges id hsame residuals a
      (a.watched []) ⟨⟨rfl, ha, le_rfl, le_rfl⟩, ⟨rfl, rfl, by simp⟩, by simp [Clean]⟩
  have hsteps : q.search.steps.solve q.edges members residuals = q.search.solve members residuals :=
    q.search.steps_solve members residuals
  rw [hsteps] at hend
  generalize q.search.solve members residuals a = left at hend ⊢
  generalize q.recorded.solve q.edges members residuals (a.watched []) = right at hend ⊢
  cases hend with
  | @ok v found found' b c hv hok hfound =>
    obtain ⟨⟨hsupply, hcontinues⟩, hp, hclean⟩ := hok
    have hrecorded : c = b.watched v.2.log := session_eq hsupply hp.recorded
    refine ⟨.ok found, b, v.2.log, rfl, ?_, .inl ⟨?_, nofun⟩, leaves_of_describes hp hv.2 ?_, ?_⟩
    · rw [hrecorded, Steps.eq_of_alike And.left hfound]
      rfl
    · exact ⟨nofun, fun ⟨ev, hev, hne⟩ => absurd (hclean ev hev) hne⟩
    · exact fun n inputs f hlog => nomatch hclean _ hlog
    · exact fun derive p hest hagrees =>
        recovers_of_describes hp hv.2 hm hv.1 hcontinues.fits hest hagrees p residuals
  | @error v f b c hv hfails =>
    obtain ⟨⟨hsupply, hcontinues⟩, hp, hstops⟩ := hfails
    have hrecorded : c = b.watched v.2.log := session_eq hsupply hp.recorded
    refine ⟨.error f, b, v.2.log, rfl, ?_, .inl ⟨?_, ?_⟩,
      leaves_of_describes hp hv.2 hstops.memo, ?_⟩
    · rw [hrecorded]
      rfl
    · obtain ⟨before, ev, after, hlog, -, hev, -⟩ := hstops.log
      refine ⟨fun _ => ⟨ev, ?_, by simp [hev]⟩, fun _ => ⟨f, rfl⟩⟩
      rw [hlog]
      exact List.mem_append_right _ (List.mem_cons_self ..)
    · intro g hg
      cases hg
      exact hstops.log
    · exact fun derive p hest hagrees =>
        recovers_of_describes hp hv.2 hm hv.1 hcontinues.fits hest hagrees p residuals
  | @panic v b c hpanics hv hok =>
    obtain ⟨⟨hsupply, hcontinues⟩, hp, hclean⟩ := hok
    have hrecorded : c = b.watched v.2.log := session_eq hsupply hp.recorded
    refine ⟨.error .disorder, b, v.2.log, rfl, ?_, .inr ⟨rfl, hclean, hpanics⟩,
      leaves_of_describes hp hv.2 ?_, ?_⟩
    · rw [hrecorded]
      rfl
    · exact fun n inputs f hlog => nomatch hclean _ hlog
    · exact fun derive p hest hagrees =>
        recovers_of_describes hp hv.2 hm hv.1 hcontinues.fits hest hagrees p residuals
  | alone h => exact h.elim

end Inquirer

/-- An estimator that counts its calls and fails in the sixth. -/
def interrupted : Estimator ℕ ℕ := fun _ _ calls =>
  if calls = 5 then .error (.collaborator "interrupted") (calls + 1)
  else .ok (.ofRows 10) (calls + 1)

theorem Inquirer.solve_aborts_fourTables : ∃ b log found d,
    Search.solve ⟨interrupted, .cumulative, Search.triangle.edges⟩ fourTables []
      ⟨⟨4, 4⟩, ⟨Memo.empty, 0⟩⟩ = .error (.collaborator "interrupted") b ∧
    Broken (.collaborator "interrupted") log ∧
    (cumulative interrupted Search.triangle.edges).Leaves ⟨⟨4, 4⟩, ⟨Memo.empty, 0⟩⟩ b log ∧
    Search.solve ⟨.constant (.ofRows 10), .cumulative, Search.triangle.edges⟩ fourTables []
      ⟨b.supply, ⟨b.estimates.memo, ()⟩⟩ = .ok found d := by
  have hm : ∀ m ∈ fourTables, (fourTables.heap 4).Holds m := fourTables.holds_heap le_rfl
  obtain ⟨result, b, log, hsolve, -, houtcome, hleaves, hrecovers⟩ := solve_aborts
    (passesOn_cumulative interrupted Search.triangle.edges) hm
    (a := ⟨⟨4, 4⟩, ⟨Memo.empty, 0⟩⟩) rfl []
  rw [search_cumulative] at hsolve
  have hfails : (match Search.solve ⟨interrupted, .cumulative, Search.triangle.edges⟩ fourTables []
      ⟨⟨4, 4⟩, ⟨Memo.empty, 0⟩⟩ with
    | .ok _ _ => none
    | .error f _ => some f) = some (.collaborator "interrupted") := by decide +kernel
  rw [hsolve] at hfails
  cases result with
  | ok _ => cases hfails
  | error f =>
    cases hfails
    let derive : Node → List (Statistics ℕ) → Statistics ℕ := fun _ _ => .ofRows 10
    have hfollows : interrupted.Follows derive := fun n inputs env s env' h => by
      unfold interrupted at h
      split at h <;> cases h
      rfl
    have hstructural : Structural (.constant (.ofRows 10) : Estimator ℕ Unit) .cumulative derive
        ⟨derivedRows derive, fun n left right => (derived derive n).rows + left + right⟩ :=
      structural_cumulative fun _ _ env => ⟨env, rfl⟩
    obtain ⟨-, hbroken⟩ := houtcome.resolve_right fun h => nomatch h.1
    have hrecovered := hrecovers _ _ hfollows ⟨nofun, nofun⟩ Unit Unit
      ⟨.constant (.ofRows 10), .cumulative, Search.triangle.edges⟩
      ⟨.constant (.ofRows 10), .cumulative, Search.triangle.edges⟩ rfl rfl hstructural hstructural
      () fourTables (fourTables.heap 4) (.unused 4) rfl hm ⟨rfl, nofun, nofun⟩
    obtain ⟨found, d, -, -, hfound, -⟩ := hrecovered.resolve_right fun h => nomatch h.1
    exact ⟨b, log, found, d, hsolve, hbroken _ rfl, hleaves, hfound⟩

end JoinOrder
