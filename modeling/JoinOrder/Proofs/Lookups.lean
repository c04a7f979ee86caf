import JoinOrder.Proofs.Prospects
import JoinOrder.Proofs.Recording
import JoinOrder.Proofs.RelatedRewriting

/-!
# Which tables are looked up

Where plans are estimated from a catalog, reordering looks at the members of the groups that it
orders anew, and at nothing else. `Config.consulted` lists the tables that are scanned there. So
reordering fails just if one of them is not in the catalog, and names such a table, unless the ranking
of a group panics before (`Catalog.lookups_of_rewrite`).

The run is followed beside a recorded one. A step may look up only tables of the list, and it fails
only for one of them. That all of them are there is seen on the way, as one group after the other is
ordered. Reordering the members changes nothing about the tables below them (`Reorder.sameTables`).
-/

namespace JoinOrder

namespace Node
variable {m n : Node}

/-- The tables that are scanned, from left to right. -/
def tables : Node → List String
  | scan _ s => [s.table]
  | unary _ _ input => input.tables
  | join _ _ left right => left.tables ++ right.tables

/-- The table of a scan. -/
def table? : Node → Option String
  | scan _ s => some s.table
  | _ => none

theorem tables_bare (n : Node) : n.bare.tables = n.tables := by
  induction n with
  | scan => rfl
  | unary tag op i ih => exact ih
  | join tag j l r ihl ihr => rw [bare, tables, tables, ihl, ihr]

theorem mem_tables_iff {t : String} : t ∈ n.tables ↔ ∃ m ∈ n.preorder, m.table? = some t := by
  induction n with
  | scan => simp [tables, preorder, table?, eq_comm]
  | unary tag op i ih => simp [tables, preorder, table?, ih]
  | join tag j l r ihl ihr => simp [tables, preorder, table?, ihl, ihr, or_and_right, exists_or]

theorem tables_subset (hm : m ∈ n.preorder) : m.tables ⊆ n.tables := fun t ht => by
  obtain ⟨k, hk, hkt⟩ := mem_tables_iff.1 ht
  exact mem_tables_iff.2 ⟨k, mem_preorder_trans hk hm, hkt⟩

theorem flatMap_tables_members (n : Node) : n.members.flatMap tables = n.tables := by
  induction n with
  | scan => rfl
  | unary => exact List.flatMap_singleton ..
  | join tag j l r ihl ihr =>
    rw [members]
    split
    · rw [List.flatMap_append, ihl, ihr, tables]
    · exact List.flatMap_singleton ..

/-- The same tables are scanned in both plans. -/
def SameTables (n q : Node) : Prop := ∀ t, t ∈ q.tables ↔ t ∈ n.tables

theorem mem_tables_congr {ns ms : List Node} (h : List.Forall₂ SameTables ns ms) (t : String) :
    t ∈ ms.flatMap tables ↔ t ∈ ns.flatMap tables := by
  induction h with
  | nil => rfl
  | cons hm _ ih =>
    rw [List.flatMap_cons, List.flatMap_cons, List.mem_append, List.mem_append, hm t, ih]

end Node

theorem JoinTree.tables_plan (t : JoinTree) : t.plan.tables = t.leaves.flatMap Node.tables := by
  induction t with
  | leaf => exact (List.flatMap_singleton ..).symm
  | join _ _ _ l r ihl ihr => rw [plan, Node.tables, ihl, ihr, leaves, List.flatMap_append]

theorem Regrouped.sameTables {n q : Node} (h : Regrouped Node.SameTables n q) : n.SameTables q := by
  induction h with
  | member _ h => exact h
  | join _ _ _ ihl ihr =>
    intro t
    rw [Node.tables, Node.tables, List.mem_append, List.mem_append, ihl t, ihr t]

theorem Dresses.tables {config : Config} {n q : Node} {s : Solution} (h : Dresses config n s q) :
    q.tables = s.plan.tables := by
  obtain ⟨filtered, hf, hq⟩ := h
  have hft : filtered.tables = s.plan.tables := by
    split at hf
    · rw [hf]
    · obtain ⟨tag, rfl⟩ := hf
      rfl
  split at hq
  · obtain ⟨-, tag, rfl⟩ := hq
    exact hft
  · rw [hq, hft]

/-- Reordering scans the same tables. -/
theorem Reorder.sameTables {ν σ : Type} [CostScale ν] (context : Context ν σ) :
    Invariant context False Node.SameTables where
  refl _ _ := Iff.rfl
  unary _ _ _ h := h
  outer _ _ _ hl hr t := by
    rw [Node.tables, Node.tables, List.mem_append, List.mem_append, hl t, hr t]
  kept _ _ h := h.sameTables
  joined {n q ms a b s} _ _ hms hs _ hq t := by
    obtain ⟨-, tree, left, hfound, hf, -⟩ := Search.forest_of_solve (ne_nil_of_members hms) hs
    cases hfound
    have hleaves : tree.leaves.Perm ms := by simpa using hf.leaves
    rw [hq.tables, tree.tables_plan, (hleaves.flatMap_right _).mem_iff,
      Node.mem_tables_congr hms, n.flatMap_tables_members]

/-- The tables at or below the members of those of the groups that may be reordered. -/
def Config.consulted (config : Config) (groups : List Node) : List String :=
  (groups.filter fun g => config.admits g.members.length).flatMap fun g =>
    g.members.flatMap Node.tables

namespace Config
variable {config : Config} {n : Node}

theorem consulted_append (gs gs' : List Node) :
    config.consulted (gs ++ gs') = config.consulted gs ++ config.consulted gs' := by
  rw [consulted, List.filter_append, List.flatMap_append]
  rfl

theorem consulted_rootGroup : config.consulted n.rootGroup =
    if n.isInnerJoin ∧ config.admits n.members.length then n.members.flatMap Node.tables
    else [] := by
  rw [consulted, Node.rootGroup]
  cases n.isInnerJoin <;> cases h : config.admits n.members.length <;> simp [h]

end Config

namespace Event
variable {ν : Type}

def lookup? : Event ν → Option String
  | derived n _ _ => n.table?
  | consulted n _ _ => n.table?
  | _ => none

/-- The tables that the estimator has been asked for. -/
def lookups (log : List (Event ν)) : List String := log.filterMap lookup?

end Event

open Event

namespace Catalog

section Settling
variable {ν α β : Type} (c : Catalog ν)

def Covers (ts : List String) : Prop := ∀ t ∈ ts, c.find? t ≠ none

/-- The failure is about one of the tables, which is not in the catalog. -/
def Lacks (ts : List String) (f : Failure) : Prop :=
  ∃ t ∈ ts, c.find? t = none ∧ f = .missingStatistics t

/-- There is an answer if all of the tables are in the catalog, and if not, the failure is about one
that is not. -/
inductive Settles (ts : List String) : Except Failure α → Prop
  | ok {r : α} (h : c.Covers ts) : Settles ts (.ok r)
  | error {f : Failure} (h : c.Lacks ts f) : Settles ts (.error f)

variable {c} {ts us : List String}

theorem Lacks.mono {f : Failure} (h : c.Lacks ts f) (hsub : ts ⊆ us) : c.Lacks us f := by
  obtain ⟨t, ht, hnone⟩ := h
  exact ⟨t, hsub ht, hnone⟩

theorem covers_append : c.Covers (ts ++ us) ↔ c.Covers ts ∧ c.Covers us := List.forall_mem_append

namespace Settles

theorem pure {r : α} : c.Settles [] (.ok r) := .ok nofun

theorem bind {x : Except Failure α} {k : α → Except Failure β} (hx : c.Settles ts x)
    (hk : ∀ r, c.Settles us (k r)) : c.Settles (ts ++ us) (x >>= k) := by
  cases hx with
  | error h => exact .error (h.mono (List.subset_append_left ..))
  | @ok r h =>
    change c.Settles _ (k r)
    have hy := hk r
    generalize k r = y at hy ⊢
    cases hy with
    | ok h' => exact .ok (covers_append.2 ⟨h, h'⟩)
    | error h' => exact .error (h'.mono (List.subset_append_right ..))

theorem congr {x : Except Failure α} (h : c.Settles ts x) (hsub : ∀ t, t ∈ ts ↔ t ∈ us) :
    c.Settles us x := by
  cases h with
  | ok h => exact .ok fun t ht => h t ((hsub t).2 ht)
  | error h => exact .error (h.mono fun t => (hsub t).1)

end Settles

variable [Quantity ν] (c)

theorem settles_derived? (n : Node) : c.Settles n.tables (derived? c.estimate n) := by
  induction n with
  | scan tag s =>
    unfold derived? estimate
    dsimp only
    cases h : c.find? s.table with
    | none => exact .error ⟨s.table, List.mem_singleton_self _, h, rfl⟩
    | some => exact .ok (List.forall_mem_singleton.2 (by simp [h]))
  | unary tag op i ih =>
    refine (ih.bind fun s => (?_ : c.Settles [] _)).congr (by simp [Node.tables])
    cases op <;> exact .pure
  | join tag j l r ihl ihr =>
    exact (ihl.bind fun _ => ihr.bind fun _ => .pure).congr (by simp [Node.tables])

theorem settles_rows? (n : Node) : c.Settles n.tables (rows? c.estimate n) :=
  ((c.settles_derived? n).bind fun _ => .pure).congr (by simp)

theorem settles_totalRows? (n : Node) : c.Settles n.tables (totalRows? c.estimate n) := by
  induction n with
  | scan => exact c.settles_rows? _
  | unary tag op i ih =>
    refine ((c.settles_rows? (.unary tag op i)).bind fun _ => ih.bind fun _ => .pure).congr ?_
    simp [Node.tables]
  | join tag j l r ihl ihr =>
    refine ((c.settles_rows? (.join tag j l r)).bind fun _ => ihl.bind fun _ =>
      ihr.bind fun _ => .pure).congr ?_
    simp only [Node.tables, List.mem_append, List.append_nil]
    tauto

end Settling

section Auditing
variable {ν σ α β : Type} [Quantity ν] {c : Catalog ν} {ts us : List String} {h : Heap} {n : Node}
  {panics : Prop}

/-- What is remembered accords with the catalog, and only these tables have been looked up. -/
structure Audited (c : Catalog ν) (ts : List String) (h : Heap)
    (e : Estimates ν (σ × List (Event ν))) : Prop where
  accords : e.Accords c.estimate h
  lookups : lookups e.env.2 ⊆ ts

theorem answers_recorded {inputs : List (Statistics ν)} (hn : ∀ t, n.table? = some t → t ∈ ts) :
    Answers (Audited (σ := σ) c ts h) (Estimating.ofEnv (Estimator.recorded c.estimator n inputs))
      (c.estimate n.bare inputs) := by
  intro e he
  rw [c.estimate_bare]
  let ev : Event ν := .derived n inputs (c.estimate n inputs)
  refine ⟨⟨e.memo, (e.env.1, e.env.2 ++ [ev])⟩, ?_, ⟨he.accords.size, he.accords.memo⟩, ?_⟩
  · unfold Estimating.ofEnv Action.onPart Estimator.recorded Action.recorded Catalog.estimator
    dsimp only [ev]
    cases c.estimate n inputs <;> rfl
  · change Event.lookups (e.env.2 ++ [ev]) ⊆ ts
    intro t ht
    rw [Event.lookups, List.filterMap_append, List.mem_append] at ht
    rcases ht with ht | ht
    · exact he.lookups ht
    · exact hn t (by simpa [ev, lookup?] using ht)

theorem answers_estimator (hn : h.Holds n) :
    Answers (Estimates.Accords c.estimate h)
      (Estimating.estimate (c.estimator : Estimator ν σ) n) (derived? c.estimate n.bare) :=
  answers_estimate c.estimator_eq hn

theorem answers_estimator_recorded (hn : h.Holds n) (hsub : n.tables ⊆ ts) :
    Answers (Audited c ts h) (Estimating.estimate (c.estimator : Estimator ν σ).recorded n)
      (derived? c.estimate n.bare) :=
  answers_derived (fun _ hm _ s he hs => he.accords.memo _ _ s (hn.sub hm).self.2 hs)
    (fun _ hm _ _ he hs => ⟨he.accords.insert (hn.sub hm) hs, he.lookups⟩)
    fun _ hm _ => answers_recorded fun _ ht => hsub (Node.mem_tables_iff.2 ⟨_, hm, ht⟩)

/-- Estimates beside recorded ones. -/
def auditing (σ : Type) (c : Catalog ν) (ts : List String) (h : Heap) :
    Correspondence Unit (Estimates ν σ) (Estimates ν (σ × List (Event ν))) where
  holds _ e e' := e.Accords c.estimate h ∧ c.Audited ts h e'
  fails _ f _ e' := c.Lacks ts f ∧ Event.lookups e'.env.2 ⊆ ts

def audit (σ : Type) (c : Catalog ν) (ts : List String) (panics : Prop) :
    Correspondence Heap (Session ν σ) (Session ν (σ × List (Event ν))) :=
  .sessions (fun h s t => s = t ∧ s.Fits h) (c.auditing σ ts) panics

theorem relates_settled {x : Estimating ν σ α} {y : Estimating ν (σ × List (Event ν)) α}
    {answer : Except Failure α} {u : Unit}
    (hx : Answers (Estimates.Accords c.estimate h) x answer) (hy : Answers (Audited c ts h) y answer)
    (hs : c.Settles us answer) (hsub : us ⊆ ts) :
    (c.auditing σ ts h).Relates u x y fun _ r s => r = s ∧ c.Covers us := by
  rintro a b ⟨ha, hb⟩
  obtain ⟨a', hx, ha'⟩ := hx a ha
  obtain ⟨b', hy, hb'⟩ := hy b hb
  rw [hx, hy]
  cases hs with
  | ok hs => exact .ok (v := ()) trivial ⟨ha', hb'⟩ ⟨rfl, hs⟩
  | error hs => exact .error (v := ()) trivial ⟨hs.mono hsub, hb'.lookups⟩

theorem audit_build {x : Building α} {Q : Heap → α → Prop} (hx : Yields Supply.Fits h x Q) :
    (c.audit σ ts panics).Relates h (Planning.build x) (Planning.build x)
      fun v r s => r = s ∧ Q v r := by
  refine relates_build (D := c.auditing σ ts) ?_ fun hw he => ⟨he.1.mono hw, he.2.1.mono hw, he.2.2⟩
  rintro s _ ⟨rfl, hs⟩
  obtain ⟨r, t, h', hr, ht, hh, hq⟩ := hx s hs
  exact ⟨r, t, r, t, h', hr, hr, hh, ⟨rfl, ht⟩, rfl, hq⟩

/-- The same plan on both sides, in which only these tables are scanned. -/
structure Within (ts : List String) (h : Heap) (m n : Node) : Prop where
  eq : m = n
  holds : h.Holds m
  tables : m.tables ⊆ ts

theorem audit_estimate {m : Node} (hn : Within ts h n m) {u : Unit} :
    (c.auditing σ ts h).Relates u (Estimating.estimate c.estimator n)
      (Estimating.estimate (Estimator.recorded c.estimator) m)
      fun _ r s => r = s ∧ c.Covers n.tables := by
  obtain ⟨rfl, hn, hsub⟩ := hn
  have hs := c.settles_derived? n.bare
  rw [n.tables_bare] at hs
  exact relates_settled (answers_estimator hn) (answers_estimator_recorded hn hsub) hs hsub

theorem audit_totalRows {m : Node} (hn : Within ts h n m) {u : Unit} :
    (c.auditing σ ts h).Relates u (CostModel.totalRows c.estimator n)
      (CostModel.totalRows (Estimator.recorded c.estimator) m) fun _ r s => r = s := by
  obtain ⟨rfl, hn, hsub⟩ := hn
  have hs := c.settles_totalRows? n.bare
  rw [n.tables_bare] at hs
  exact (relates_settled (answers_totalRows fun _ hm => answers_estimator (hn.sub hm))
    (answers_totalRows fun _ hm => answers_estimator_recorded (hn.sub hm)
      (List.Subset.trans (Node.tables_subset hm) hsub)) hs hsub).imp fun _ _ _ _ hr => hr.1

end Auditing

section Searching
variable {ν σ : Type} [CostScale ν] {c : Catalog ν} {config : Config} {ts : List String} {h : Heap}
  {n : Node} {ms : List Node} {panics : Prop}

/-- The standard collaborators. -/
def context (c : Catalog ν) (config : Config) : Context ν σ := ⟨c.estimator, .cumulative, config⟩

/-- The standard collaborators, with the calls to the estimator recorded. -/
def recording (c : Catalog ν) (config : Config) : Context ν (σ × List (Event ν)) :=
  ⟨Estimator.recorded c.estimator, .cumulative, config⟩

theorem simulates_audit (c : Catalog ν) (ts : List String) (panics : Prop) (E : List Edge) :
    Steps.Simulates (c.audit σ ts panics) (Within ts) (Search.steps ⟨c.estimator, .cumulative, E⟩)
      (Search.steps ⟨Estimator.recorded c.estimator, .cumulative, E⟩) := by
  refine Search.simulates (fun _ => id) (fun hw hn => ⟨hn.eq, hn.holds.mono hw, hn.tables⟩)
    (fun hn => ?_) (fun j hm hn => ?_) (fun hn => (audit_estimate hn).imp fun _ _ _ _ _ => trivial)
    (fun hn => audit_totalRows hn) fun l r hn => ?_
  · rw [hn.eq]
    exact fun _ => rfl
  · obtain ⟨rfl, hm, hsubm⟩ := hm
    obtain ⟨rfl, hn, hsubn⟩ := hn
    refine (audit_build (yields_joinAny hm hn)).imp fun v q q' _ hq => ⟨hq.1, hq.2.1, ?_⟩
    rw [← q.tables_bare, hq.2.2, Node.tables, Node.tables_bare, Node.tables_bare]
    exact List.append_subset.2 ⟨hsubm, hsubn⟩
  · have hrows := (audit_estimate (σ := σ) (c := c) hn (u := ())).bind (R := fun _ r s => r = s)
      fun _ _ _ _ hr => .pure (congrArg Statistics.rows hr.1)
    exact hrows.bind fun _ _ _ _ hr => .pure (by rw [hr])

/-- A search looks up the tables of its members. -/
theorem audit_solve (E : List Edge)
    (hp : RankingPanics (c.estimator : Estimator ν σ) .cumulative ms → panics)
    (hms : ∀ m ∈ ms, h.Holds m) (hsub : ms.flatMap Node.tables ⊆ ts) (residuals : List Expr) :
    (c.audit σ ts panics).Relates h (Search.solve ⟨c.estimator, .cumulative, E⟩ ms residuals)
      (Search.solve ⟨Estimator.recorded c.estimator, .cumulative, E⟩ ms residuals)
      fun v found found' => found = found' ∧ (∀ s ∈ found, v.Holds s.plan) ∧
        c.Covers (ms.flatMap Node.tables) := by
  have hsim := simulates_audit (σ := σ) c ts panics E
  have hwithin : List.Forall₂ (Within ts h) ms ms := List.forall₂_same.2 fun m hm =>
    ⟨rfl, hms m hm, fun t ht => hsub (List.mem_flatMap.2 ⟨m, hm, ht⟩)⟩
  rw [← Search.steps_solve, ← Search.steps_solve]
  unfold Steps.solve
  refine (Correspondence.Relates.mapM (I := Within ts)
    (R := fun v (t u : Tree ν) => c.Covers t.plan.tables ∧ Steps.Alike (Within ts) v t u) hsim.mono
    (fun hw htu => ⟨htu.1, hsim.mono_alike hw htu.2⟩) (fun {v m n} hm => ?_) hwithin).bind_of ?_
  · exact relates_estimating id ((audit_estimate hm).bind fun _ _ _ _ hcov =>
      (audit_totalRows hm).bind fun _ _ _ _ hcost => .pure ⟨hcov.2, hm, hcost⟩)
  · intro v a trees a' b trees' b' htrees _ _ htt
    obtain ⟨hcov, halike⟩ := (List.forall₂_and_left _ _).1 htt
    have hranking := Steps.relates_ranking (C := c.audit σ ts panics) hp htrees halike
    refine hranking.bind fun _ order order' _ horder => ?_
    refine (hsim.combine E horder residuals).imp fun _ found found' _ hfound =>
      ⟨Steps.eq_of_alike Within.eq hfound, fun s hs => ?_, fun t ht => ?_⟩
    · cases hs
      cases hfound with
      | some hs => exact hs.plan.holds
    · rw [← Search.map_plan_of_appraise htrees, List.flatMap_map] at ht
      obtain ⟨u, hu, ht⟩ := List.mem_flatMap.1 ht
      exact hcov u hu t ht

section Settling
variable (hn : h.Holds n) (hms : ∀ m ∈ ms, h.Holds m)
  (hcols : List.Forall₂ Node.SameColumns n.members ms)
  (htabs : List.Forall₂ Node.SameTables n.members ms)
include hn hms hcols htabs

theorem audit_settleGroup
    (hp : Reorder.GroupPanics (c.context config : Context ν σ) n → panics)
    (hsub : config.admits ms.length = true → n.members.flatMap Node.tables ⊆ ts) :
    (c.audit σ ts panics).Relates h (Reorder.settleGroup (c.context config) n ms)
      (Reorder.settleGroup (c.recording config) n ms) fun v q r => q = r ∧ v.Holds q ∧
        (config.admits ms.length = true → c.Covers (n.members.flatMap Node.tables)) := by
  unfold Reorder.settleGroup context recording
  dsimp only
  split
  · rename_i ha
    have hsub : ms.flatMap Node.tables ⊆ ts := fun t ht =>
      hsub ha ((Node.mem_tables_congr htabs t).1 ht)
    have hpanics : RankingPanics (c.estimator : Estimator ν σ) .cumulative ms → panics :=
      fun hr => hp ⟨hcols.length_eq ▸ ha, ms, hcols, hr⟩
    refine (audit_solve _ hpanics hms hsub _).bind_of ?_
    rintro v a found a' b _ b' hsolve - hv ⟨rfl, hplan, hcov⟩
    have hcov : c.Covers (n.members.flatMap Node.tables) := fun t ht =>
      hcov t ((Node.mem_tables_congr htabs t).2 ht)
    cases found with
    | none => exact .pure ⟨rfl, hn.mono hv, fun _ => hcov⟩
    | some s =>
      refine (audit_build (Reorder.yields_dressed (hplan s rfl)
        (Reorder.sameColumns_of_solve hcols hsolve))).imp fun _ q r _ hq => ?_
      exact ⟨hq.1, hq.2.1, fun _ => hcov⟩
  · rename_i ha
    exact (audit_build (Reorder.yields_withMembers hn hms)).bind fun _ q r _ hq =>
      .pure ⟨congrArg Prod.fst hq.1, hq.2.1, fun h => absurd h ha⟩

theorem audit_settle
    (hp : ∀ g ∈ n.rootGroup, Reorder.GroupPanics (c.context config : Context ν σ) g → panics)
    (hsub : config.consulted n.rootGroup ⊆ ts) :
    (c.audit σ ts panics).Relates h (Reorder.settle (c.context config) n ms)
      (Reorder.settle (c.recording config) n ms)
      fun v q r => q = r ∧ v.Holds q ∧ c.Covers (config.consulted n.rootGroup) := by
  rw [Config.consulted_rootGroup, hcols.length_eq] at hsub ⊢
  unfold Reorder.settle
  cases hinner : n.isInnerJoin with
  | false =>
    simp only [Bool.false_eq_true, false_and, if_false]
    exact .pure ⟨rfl, (Reorder.holds_headD hn hms).1, nofun⟩
  | true =>
    simp only [hinner, if_true, true_and] at hsub ⊢
    have hmem : n ∈ n.rootGroup := by
      rw [Node.rootGroup, if_pos hinner]
      exact List.mem_singleton_self n
    refine (audit_settleGroup hn hms hcols htabs (hp n hmem) fun ha => ?_).imp fun v q r _ hq => ?_
    · rwa [if_pos ha] at hsub
    · refine ⟨hq.1, hq.2.1, ?_⟩
      split
      · exact hq.2.2 ‹_›
      · exact nofun

end Settling

/-- A plan is ordered after what is below its members. -/
theorem audit_rewrite_of (hn : h.Holds n) (hsub : config.consulted n.groups ⊆ ts)
    (hp : ∀ g ∈ n.rootGroup, Reorder.GroupPanics (c.context config : Context ν σ) g → panics)
    (hms : (c.audit σ ts panics).Relates h (Reorder.rewriteMembers (c.context config) n)
      (Reorder.rewriteMembers (c.recording config) n) fun v ms ms' =>
        ms = ms' ∧ (∀ m ∈ ms, v.Holds m) ∧ c.Covers (config.consulted n.groupsBelow)) :
    (c.audit σ ts panics).Relates h (Reorder.rewrite (c.context config) n)
      (Reorder.rewrite (c.recording config) n) fun v q q' =>
        q = q' ∧ v.Holds q ∧ c.Covers (config.consulted n.groups) := by
  rw [Node.groups, Config.consulted_append] at hsub ⊢
  refine hms.bind_of ?_
  rintro v a ms a' b _ b' hrun - hv ⟨rfl, hms, hbelow⟩
  refine (audit_settle (hn.mono hv) hms (Reorder.sameColumns_of_members hrun)
    ((Reorder.sameTables _).rewriteMembers False.elim hrun) hp
    (List.append_subset.1 hsub).1).imp fun v' q q' _ hq => ?_
  exact ⟨hq.1, hq.2.1, covers_append.2 ⟨hq.2.2, hbelow⟩⟩

theorem audit_rewriteMembers (hw : n.WellFormed) (hn : h.Holds n)
    (hsub : config.consulted n.groupsBelow ⊆ ts)
    (hp : ∀ g ∈ n.groupsBelow, Reorder.GroupPanics (c.context config : Context ν σ) g → panics) :
    (c.audit σ ts panics).Relates h (Reorder.rewriteMembers (c.context config) n)
      (Reorder.rewriteMembers (c.recording config) n) fun v ms ms' =>
        ms = ms' ∧ (∀ m ∈ ms, v.Holds m) ∧ c.Covers (config.consulted n.groupsBelow) := by
  induction n generalizing h with
  | scan => exact .pure ⟨rfl, List.forall_mem_singleton.2 hn, nofun⟩
  | unary tag op i ih =>
    rw [Reorder.rewriteMembers_unary, Reorder.rewriteMembers_unary]
    have hi := (Heap.holds_unary.1 hn).2
    have hsubi : config.consulted i.groups ⊆ ts := hsub
    rw [Node.groups, Config.consulted_append, List.append_subset] at hsubi
    obtain ⟨hroot, hbelow⟩ := List.forall_mem_append.1 hp
    refine (audit_rewrite_of hi hsub hroot (ih hw.2 hi hsubi.2 hbelow)).bind_of ?_
    rintro v a q a' b _ b' hrun - hv ⟨rfl, hq, hcov⟩
    have hop : op.missing? q.produces = none := by
      rw [← funext ((Reorder.standsFor _).rewrite False.elim hrun).produces]
      exact hw.1
    refine (audit_build (Reorder.yields_withInputs_unary (hn.mono hv) hq hop)).bind ?_
    rintro v' o _ - ⟨rfl, ho, -⟩
    exact .pure ⟨rfl, List.forall_mem_singleton.2 ho, hcov⟩
  | join tag j l r ihl ihr =>
    obtain ⟨-, hl, hr⟩ := Heap.holds_join.1 hn
    cases hj : j.isInner with
    | true =>
      rw [Node.groupsBelow_inner hj, Config.consulted_append, List.append_subset] at hsub
      rw [Node.groupsBelow_inner hj, List.forall_mem_append] at hp
      rw [Node.groupsBelow_inner hj, Config.consulted_append, Reorder.rewriteMembers,
        Reorder.rewriteMembers, if_pos hj, if_pos hj]
      refine (ihl hw.1 hl hsub.1 hp.1).bind ?_
      rintro v₁ ls _ hv₁ ⟨rfl, hls, hcovl⟩
      refine (ihr hw.2 (hr.mono hv₁) hsub.2 hp.2).bind ?_
      rintro v₂ rs _ hv₂ ⟨rfl, hrs, hcovr⟩
      refine .pure ⟨rfl, ?_, covers_append.2 ⟨hcovl, hcovr⟩⟩
      exact List.forall_mem_append.2 ⟨fun m hm => (hls m hm).mono hv₂, hrs⟩
    | false =>
      rw [Node.groupsBelow_outer hj, Config.consulted_append, List.append_subset] at hsub
      rw [Node.groupsBelow_outer hj, List.forall_mem_append] at hp
      rw [Node.groupsBelow_outer hj, Config.consulted_append, Reorder.rewriteMembers_outer _ hj,
        Reorder.rewriteMembers_outer _ hj]
      obtain ⟨hrootl, hbelowl⟩ := List.forall_mem_append.1 hp.1
      obtain ⟨hrootr, hbelowr⟩ := List.forall_mem_append.1 hp.2
      have hsubl := hsub.1
      have hsubr := hsub.2
      rw [Node.groups, Config.consulted_append, List.append_subset] at hsubl hsubr
      refine (audit_rewrite_of hl hsub.1 hrootl (ihl hw.1 hl hsubl.2 hbelowl)).bind ?_
      rintro v₁ p _ hv₁ ⟨rfl, hp, hcovl⟩
      refine (audit_rewrite_of (hr.mono hv₁) hsub.2 hrootr
        (ihr hw.2 (hr.mono hv₁) hsubr.2 hbelowr)).bind ?_
      rintro v₂ q _ hv₂ ⟨rfl, hq, hcovr⟩
      refine (audit_build (Reorder.yields_withInputs_join ((hn.mono hv₁).mono hv₂) (hp.mono hv₂)
        hq)).bind ?_
      rintro v₃ o _ - ⟨rfl, ho, -⟩
      exact .pure ⟨rfl, List.forall_mem_singleton.2 ho, covers_append.2 ⟨hcovl, hcovr⟩⟩

/-- Reordering looks up the tables of the groups that it orders anew. -/
theorem audit_rewrite (c : Catalog ν) (config : Config) (hw : n.WellFormed) (hn : h.Holds n) :
    (c.audit σ (config.consulted n.groups) (Reorder.Panics (c.context config : Context ν σ) n)).Relates
      h (Reorder.rewrite (c.context config) n) (Reorder.rewrite (c.recording config) n) fun _ q q' =>
        q = q' ∧ c.Covers (config.consulted n.groups) := by
  have hbelow : config.consulted n.groupsBelow ⊆ config.consulted n.groups := by
    rw [Node.groups, Config.consulted_append]
    exact List.subset_append_right ..
  have hp : ∀ g ∈ n.groups, Reorder.GroupPanics (c.context config : Context ν σ) g →
      Reorder.Panics (c.context config : Context ν σ) n := fun g hg hpanics => ⟨g, hg, hpanics⟩
  obtain ⟨hroot, hgroups⟩ := List.forall_mem_append.1 hp
  exact (audit_rewrite_of hn (List.Subset.refl _) hroot
    (audit_rewriteMembers hw hn hbelow hgroups)).imp fun _ _ _ _ hq => ⟨hq.1, hq.2.2⟩

end Searching

end Catalog

section Starting
variable {ν σ : Type} {a : Session ν σ} {p : Node}

theorem Session.Houses.holds (ha : a.Houses [p]) : (Heap.ofPlan a.supply.nextCell p).Holds p := by
  have hmem {n : Node} (hn : n ∈ p.preorder) : n ∈ [p].flatMap Node.preorder := by simpa using hn
  exact Heap.holds_ofPlan (fun m hm => ha.below m (hmem hm)) fun m hm k hk hc =>
    congrArg Node.shape (ha.alone m (hmem hm) k (hmem hk) hc)

/-- Where nothing is remembered of a plan, all that is remembered of it is right. -/
theorem Session.Houses.accords {estimate : Derivation ν} (ha : a.Houses [p])
    (hnew : ∀ n ∈ p.preorder, a.estimates.memo n.cell = none) :
    a.estimates.Accords estimate (Heap.ofPlan a.supply.nextCell p) := by
  refine ⟨ha.memo, fun c n s hn hs => ?_⟩
  obtain ⟨m, hm, -⟩ := Option.map_eq_some_iff.1 hn
  have hc : m.cell = c := by simpa using List.find?_some hm
  rw [← hc, hnew m (List.mem_of_find?_eq_some hm)] at hs
  cases hs

end Starting

namespace Catalog

/-- Two tables joined, beside a third one. -/
def outerTables : Node :=
  .join ⟨4, 4⟩ ⟨.left, [], []⟩ .twoTables (.scan ⟨3, 3⟩ (.ofNames "c" ["z"] none))

def knowing (tables : List String) : Catalog ℕ := ⟨tables.map fun t => (t, .ofRows 10)⟩

end Catalog

end JoinOrder
