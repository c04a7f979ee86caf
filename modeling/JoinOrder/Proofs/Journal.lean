import JoinOrder.Proofs.Pairing
import JoinOrder.Proofs.Run

/-!
# The journal of a search

The journal lists the joins that a search commits, in order: those by which the trees grow, tree by
tree, then those by which the trees are assembled, round by round. Each function is given a second
time, with its journal; without the journal it is the same function (`Search.fst_solveJournal`).

`Commits` says what committing a join does to the pending conditions. Along a whole journal it tells
which conditions each join takes (`Commits.residuals_getElem`) and which are left
(`Commits.left_eq`). `Search.journal_of_solve` puts the journal and the tree together: the tree's
joints are those of the journal, and its pieces are the trees that have grown.
-/

namespace JoinOrder

section Journals
variable {ν σ : Type} [CostScale ν] (s : Search ν σ)

namespace Search

/-- `grow`, with a journal. -/
def growJournal : (joins : Nat) → Growth ν → Planning ν σ (Growth ν × List Node)
  | 0, g => return (g, [])
  | joins + 1, g => do
    match cheapest? (← s.candidates g.tree g.pending 0 g.remaining) with
    | none => return (g, [])
    | some c =>
      let (grown, made) ← growJournal joins (g.commit c)
      return (grown, c.tree.plan :: made)

/-- `growAll`, with a journal. -/
def growAllJournal : (trees : Nat) → List (Tree ν) → List Expr →
    Planning ν σ ((List Node × List Expr) × List Node)
  | trees + 1, seed :: remaining, pending => do
    let (g, made) ← s.growJournal remaining.length ⟨seed, remaining, pending⟩
    let ((plans, pending), more) ← growAllJournal trees g.remaining g.pending
    return ((g.tree.plan :: plans, pending), made ++ more)
  | _, _, pending => return (([], pending), [])

end Search

namespace Assembly

/-- `pairUp`, with a journal. -/
def pairUpJournal : List Node → List Expr → StateM Supply ((List Node × List Expr) × List Node)
  | left :: right :: rest, pending => do
    let join ← Building.join (.attaching [] pending left right) left right
    let ((joins, pending), made) ← pairUpJournal rest (pendingAbove pending left right)
    return ((join :: joins, pending), join :: made)
  | rest, pending => return ((rest, pending), [])

/-- `rounds`, with a journal. -/
def roundsJournal : Nat → List Node → List Expr → StateM Supply (Option Solution × List Node)
  | _, [], _ => return (none, [])
  | _, [plan], pending => return (some ⟨plan, pending⟩, [])
  | 0, plan :: _, pending => return (some ⟨plan, pending⟩, [])
  | n + 1, plans, pending => do
    let ((plans, pending), made) ← pairUpJournal plans pending
    let (found, more) ← roundsJournal n plans pending
    return (found, made ++ more)

end Assembly

/-- `solve`, with a journal. -/
def Search.solveJournal (members : List Node) (residuals : List Expr) :
    Planning ν σ (Option Solution × List Node) := do
  let trees ← members.mapM s.appraise
  let ((plans, pending), grown) ← s.growAllJournal trees.length (← ranking trees) residuals
  let (found, crossed) ←
    Planning.build (Action.ofState (Assembly.roundsJournal plans.length plans pending))
  return (found, grown ++ crossed)

end Journals

section Forgetting
variable {ν σ : Type} [CostScale ν] {s : Search ν σ}

namespace Search

theorem fst_growJournal (k : Nat) (g : Growth ν) : Prod.fst <$> s.growJournal k g = s.grow k g := by
  induction k generalizing g with
  | zero => simp [growJournal, grow]
  | succ k ih =>
    rw [growJournal, grow, map_bind]
    refine bind_congr fun cs => ?_
    cases cheapest? cs with
    | none => simp
    | some c => simp [← ih]

theorem fst_growAllJournal (k : Nat) (trees : List (Tree ν)) (pending : List Expr) :
    Prod.fst <$> s.growAllJournal k trees pending = s.growAll k trees pending := by
  induction k generalizing trees pending with
  | zero => simp [growAllJournal, growAll]
  | succ k ih =>
    cases trees with
    | nil => simp [growAllJournal, growAll]
    | cons seed others => simp [growAllJournal, growAll, ← fst_growJournal, ← ih]

end Search

namespace Assembly

theorem fst_pairUpJournal (plans : List Node) (pending : List Expr) :
    Prod.fst <$> pairUpJournal plans pending = pairUp plans pending := by
  fun_induction pairUp plans pending with
  | case1 l r rest pending ih => simp [pairUpJournal, ← ih]
  | case2 plans pending h => simp [pairUpJournal]

theorem fst_roundsJournal (k : Nat) (plans : List Node) (pending : List Expr) :
    Prod.fst <$> roundsJournal k plans pending = rounds k plans pending := by
  fun_induction rounds k plans pending with
  | case1 => simp [roundsJournal]
  | case2 => simp [roundsJournal]
  | case3 => simp [roundsJournal]
  | case4 k plans pending h₁ h₂ ih => simp [roundsJournal, ← ih, ← fst_pairUpJournal]

end Assembly

theorem Search.fst_solveJournal (members : List Node) (residuals : List Expr) :
    Prod.fst <$> s.solveJournal members residuals = s.solve members residuals := by
  have hbuild : ∀ {α β : Type} (f : α → β) (x : StateM Supply α),
      (f <$> Planning.build (Action.ofState x) : Planning ν σ β) =
        Planning.build (Action.ofState (f <$> x)) := fun _ _ => rfl
  simp [solveJournal, solve, Assembly.assemble, ← fst_growAllJournal, ← Assembly.fst_roundsJournal,
    ← hbuild]

end Forgetting

/-- The joints `made` are committed one after the other when `done` are there already. Each joins
trees whose joints are there, and takes of the pending conditions all that it covers. -/
inductive Commits : List Joint → List Expr → List Joint → List Expr → Prop
  | nil {done : List Joint} {pending : List Expr} : Commits done pending [] pending
  | cons {done made : List Joint} {pending left : List Expr} {J : Joint}
      (below : J.left.joints ++ J.right.joints ⊆ done)
      (takes : J.residuals = pending.filter J.plan.covers)
      (rest : Commits (done ++ [J]) (pending.filter (!J.plan.covers ·)) made left) :
      Commits done pending (J :: made) left

namespace Commits
variable {done made more : List Joint} {pending left final : List Expr}

theorem append (h : Commits done pending made left) (h' : Commits (done ++ made) left more final) :
    Commits done pending (made ++ more) final := by
  induction h with
  | nil => simpa using h'
  | cons below takes _ ih => exact .cons below takes (ih (by simpa using h'))

theorem left_eq (h : Commits done pending made left) :
    left = pending.filter fun e => !made.any (·.plan.covers e) := by
  induction h with
  | nil => simp
  | cons _ _ _ ih =>
    rw [ih, List.filter_filter]
    refine List.filter_congr fun e _ => ?_
    rw [List.any_cons, Bool.not_or, Bool.and_comm]

/-- A joint takes what it covers and no earlier one covers. -/
theorem residuals_getElem (h : Commits done pending made left) (i : Nat) (hi : i < made.length) :
    made[i].residuals = pending.filter fun e =>
      made[i].plan.covers e && !(made.take i).any (·.plan.covers e) := by
  induction h generalizing i with
  | nil => cases hi
  | @cons done made pending left J _ takes _ ih =>
    cases i with
    | zero => simp [takes]
    | succ i =>
      have := ih i (Nat.lt_of_succ_lt_succ hi)
      rw [List.getElem_cons_succ, this, List.filter_filter]
      refine List.filter_congr fun e _ => ?_
      rw [List.take_succ_cons, List.any_cons, Bool.not_or, Bool.and_assoc]
      congr 1
      exact Bool.and_comm ..

theorem below_getElem (h : Commits done pending made left) (i : Nat) (hi : i < made.length) :
    made[i].left.joints ++ made[i].right.joints ⊆ done ++ made.take i := by
  induction h generalizing i with
  | nil => cases hi
  | cons below _ _ ih =>
    cases i with
    | zero => simpa using below
    | succ i => simpa using ih i (Nat.lt_of_succ_lt_succ hi)

theorem residuals_perm (h : Commits done pending made left) :
    (made.flatMap Joint.residuals ++ left).Perm pending := by
  induction h with
  | nil => exact .refl _
  | @cons _ _ pending _ J _ takes _ ih =>
    rw [List.flatMap_cons, takes, List.append_assoc]
    exact (ih.append_left _).trans (List.filter_append_perm J.plan.covers pending)

theorem covers_of_mem (h : Commits done pending made left) {J : Joint} (hJ : J ∈ made) {e : Expr}
    (he : e ∈ J.residuals) : J.plan.covers e = true := by
  obtain ⟨i, hi, rfl⟩ := List.getElem_of_mem hJ
  rw [h.residuals_getElem i hi] at he
  exact (Bool.and_eq_true_iff.1 (List.mem_filter.1 he).2).1

end Commits

section Growing
variable {ν σ : Type} [CostScale ν] {s : Search ν σ} {a b : Session ν σ} {made : List Node}

namespace Search

/-- Committing the cheapest candidate makes a joint of the tree and a leaf. The joint takes the pending
conditions that it covers; the others stay pending. -/
theorem exists_joint_of_commit {cs : List (Candidate ν)} {c : Candidate ν} {g : Growth ν}
    {t : JoinTree} (hcs : s.candidates g.tree g.pending 0 g.remaining a = .ok cs b)
    (hc : cheapest? cs = some c) (ht : g.tree.plan = t.plan) (hg : t.Grown s.edges) :
    ∃ (J : Joint) (m : Node), J.left = t ∧ J.right = .leaf m ∧ c.tree.plan = J.plan ∧
      J.tree.Grown s.edges ∧ J.residuals = g.pending.filter J.plan.covers ∧
      (g.commit c).pending = g.pending.filter (!J.plan.covers ·) ∧
      (m :: (g.commit c).remaining.map Tree.plan).Perm (g.remaining.map Tree.plan) := by
  obtain ⟨m, hm, hconn, hj⟩ := joins_of_cheapest? hcs hc
  obtain ⟨tag, hplan⟩ := hj.plan
  have hpending := hj.pending
  rw [ht] at hconn hplan hpending
  let J : Joint := ⟨tag, connecting s.edges t.plan m.plan,
    g.pending.filter (·.coveredBy t.plan m.plan), t, .leaf m.plan⟩
  have hcov : J.plan.covers = (·.coveredBy t.plan m.plan) := funext J.covers_plan
  refine ⟨J, m.plan, rfl, rfl, hplan, ?_, ?_, ?_, (perm_commit hm).map Tree.plan⟩
  · exact hg.join tag hconn fun e he => (List.mem_filter.1 he).2
  · rw [hcov]
  · rw [hcov]
    exact hpending

/-- A tree grows by the joins that are committed. -/
theorem growJournal_spec {done : List Joint} {k : Nat} {g g' : Growth ν} {t : JoinTree}
    (h : s.growJournal k g a = .ok (g', made) b) (ht : g.tree.plan = t.plan)
    (hg : t.Grown s.edges) (hd : t.joints ⊆ done) :
    ∃ (u : JoinTree) (Js : List Joint), g'.tree.plan = u.plan ∧ u.Grown s.edges ∧
      made = Js.map Joint.plan ∧ u.joints = t.joints ++ Js ∧
      Commits done g.pending Js g'.pending ∧
      (u.leaves ++ g'.remaining.map Tree.plan).Perm (t.leaves ++ g.remaining.map Tree.plan) := by
  induction k generalizing g a t done made with
  | zero =>
    obtain ⟨h, rfl⟩ := Action.pure_eq_ok.1 h
    cases h
    exact ⟨t, [], ht, hg, rfl, (List.append_nil _).symm, .nil, .refl _⟩
  | succ k ih =>
    unfold growJournal at h
    obtain ⟨cs, v, hcs, h⟩ := Action.bind_eq_ok.1 h
    cases hc : cheapest? cs with
    | none =>
      rw [hc] at h
      obtain ⟨h, rfl⟩ := Action.pure_eq_ok.1 h
      cases h
      exact ⟨t, [], ht, hg, rfl, (List.append_nil _).symm, .nil, .refl _⟩
    | some c =>
      rw [hc] at h
      obtain ⟨⟨grown, made'⟩, w, hgrow, h⟩ := Action.bind_eq_ok.1 h
      obtain ⟨h, rfl⟩ := Action.pure_eq_ok.1 h
      cases h
      obtain ⟨J, m, rfl, hright, hplan, hJ, htakes, hpend, hperm⟩ :=
        exists_joint_of_commit hcs hc ht hg
      have hjoints : J.tree.joints = J.left.joints ++ [J] := by
        rw [JoinTree.joints_tree, hright, JoinTree.joints, List.append_nil]
      have hleaf : J.tree.leaves = J.left.leaves ++ [m] := by
        rw [JoinTree.leaves_tree, hright, JoinTree.leaves]
      have hd' : J.tree.joints ⊆ done ++ [J] := by
        rw [hjoints]
        exact List.append_subset.2 ⟨fun _ h => List.mem_append_left _ (hd h), List.subset_append_right ..⟩
      obtain ⟨u, Js, hu, hgu, rfl, hjs, hcom, hleaves⟩ := ih (t := J.tree) hgrow hplan hJ hd'
      refine ⟨u, J :: Js, hu, hgu, ?_, ?_, .cons ?_ htakes (hpend ▸ hcom), hleaves.trans ?_⟩
      · rw [List.map_cons, hplan]
      · rw [hjs, hjoints, List.append_assoc, List.singleton_append]
      · rwa [hright, JoinTree.joints, List.append_nil]
      · rw [hleaf, List.append_assoc]
        exact hperm.append_left _

/-- The journal of all trees that are grown lists their joints, tree by tree. -/
theorem growAllJournal_spec (done : List Joint) {k : Nat} {trees : List (Tree ν)}
    {pending left : List Expr} {plans : List Node}
    (h : s.growAllJournal k trees pending a = .ok ((plans, left), made) b)
    (hk : trees.length ≤ k) :
    ∃ ts : List JoinTree, plans = ts.map JoinTree.plan ∧ (∀ u ∈ ts, u.Grown s.edges) ∧
      made = (ts.flatMap JoinTree.joints).map Joint.plan ∧
      Commits done pending (ts.flatMap JoinTree.joints) left ∧
      (ts.flatMap JoinTree.leaves).Perm (trees.map Tree.plan) := by
  induction k generalizing trees pending a plans made done with
  | zero =>
    rw [List.length_eq_zero_iff.1 (Nat.le_zero.1 hk)] at h ⊢
    obtain ⟨h, rfl⟩ := Action.pure_eq_ok.1 h
    cases h
    exact ⟨[], rfl, by simp, rfl, .nil, .refl _⟩
  | succ k ih =>
    cases trees with
    | nil =>
      obtain ⟨h, rfl⟩ := Action.pure_eq_ok.1 h
      cases h
      exact ⟨[], rfl, by simp, rfl, .nil, .refl _⟩
    | cons seed others =>
      unfold growAllJournal at h
      obtain ⟨⟨g', made₁⟩, v, hg, h⟩ := Action.bind_eq_ok.1 h
      obtain ⟨⟨⟨plans', left'⟩, made₂⟩, w, hrest, h⟩ := Action.bind_eq_ok.1 h
      obtain ⟨h, rfl⟩ := Action.pure_eq_ok.1 h
      cases h
      obtain ⟨u, Js, hu, hgu, rfl, hjs, hcom, hleaves⟩ :=
        growJournal_spec (t := .leaf seed.plan) hg rfl (.leaf _) (List.nil_subset done)
      have hlen : g'.remaining.length ≤ k := by
        have hsize := hleaves.length_eq
        have hpos := List.length_pos_iff.2 u.leaves_ne_nil
        simp only [JoinTree.leaves, List.length_append, List.length_map, List.length_cons,
          List.length_nil] at hsize hk
        omega
      obtain ⟨ts, rfl, hgts, rfl, hcoms, hls⟩ := ih _ hrest hlen
      have hjs : u.joints = Js := hjs
      refine ⟨u :: ts, by rw [List.map_cons, hu], List.forall_mem_cons.2 ⟨hgu, hgts⟩, ?_, ?_, ?_⟩
      · rw [List.flatMap_cons, hjs, List.map_append]
      · rw [List.flatMap_cons, hjs]
        exact hcom.append hcoms
      · exact (hls.append_left _).trans hleaves

end Search
end Growing

namespace Assembly

/-- The trees `ts` have been joined to give `us`, by joins without equalities, which were committed
in the order of `Js`. -/
structure Crosses (done : List Joint) (ts : List JoinTree) (pending : List Expr) (us : List JoinTree)
    (Js : List Joint) (left : List Expr) : Prop where
  pieces : us.flatMap JoinTree.cut = ts.flatMap JoinTree.cut
  joints : (us.flatMap JoinTree.joints).Perm (ts.flatMap JoinTree.joints ++ Js)
  commits : Commits done pending Js left

namespace Crosses
variable {ts us vs : List JoinTree} {pending left final : List Expr} {Js Ks : List Joint}

theorem refl (done : List Joint) (ts : List JoinTree) (pending : List Expr) :
    Crosses done ts pending ts [] pending :=
  ⟨rfl, .of_eq (List.append_nil _).symm, .nil⟩

theorem trans (h : Crosses done ts pending us Js left)
    (h' : Crosses (done ++ Js) us left vs Ks final) :
    Crosses done ts pending vs (Js ++ Ks) final := by
  refine ⟨h'.pieces.trans h.pieces, h'.joints.trans ?_, h.commits.append h'.commits⟩
  rw [← List.append_assoc]
  exact h.joints.append_right _

end Crosses

variable {a : Supply} {ts us : List JoinTree} {t : JoinTree} {pending left : List Expr}
  {Js : List Joint}

theorem pairUpJournal_cons (l r : Node) (rest : List Node) (pending : List Expr) (a : Supply) :
    pairUpJournal (l :: r :: rest) pending a =
      let join := Node.join (a.tagAt 0) (.attaching [] pending l r) l r
      let others := pairUpJournal rest (pendingAbove pending l r) (a.advance 1)
      (((join :: others.1.1.1, others.1.1.2), join :: others.1.2), others.2) := rfl

theorem Pairs.run (h : Pairs a ts pending us Js left) :
    pairUpJournal (ts.map JoinTree.plan) pending a =
      (((us.map JoinTree.plan, left), Js.map Joint.plan), a.advance Js.length) := by
  induction h with
  | none => rfl
  | odd => rfl
  | pair _ ih =>
    rw [List.map_cons, List.map_cons, pairUpJournal_cons, ih, List.length_cons, Nat.add_comm,
      ← Supply.advance_advance]
    rfl

theorem Pairs.crosses {done : List Joint} (h : Pairs a ts pending us Js left)
    (hd : ts.flatMap JoinTree.joints ⊆ done) : Crosses done ts pending us Js left := by
  induction h generalizing done with
  | none => exact .refl ..
  | odd => exact .refl ..
  | @pair a pending _ l r _ _ _ _ ih =>
    simp only [List.flatMap_cons, List.append_subset] at hd
    obtain ⟨hl, hr, hts⟩ := hd
    have hcov : (joint a pending l r).plan.covers = (·.coveredBy l.plan r.plan) :=
      funext (Joint.covers_plan _)
    have hc : Crosses (done ++ [joint a pending l r]) _ _ _ _ _ :=
      ih fun _ h => List.mem_append_left _ (hts h)
    refine ⟨?_, ?_, .cons (List.append_subset.2 ⟨hl, hr⟩) ?_ ?_⟩
    · simp [Joint.tree, JoinTree.cut, joint, hc.pieces]
    · simp only [List.flatMap_cons, JoinTree.joints_tree, List.append_assoc]
      refine .append_left _ (.append_left _ ?_)
      exact (hc.joints.cons _).trans List.perm_middle.symm
    · rw [hcov]
      rfl
    · rw [hcov]
      exact hc.commits

theorem roundsJournal_succ (k : Nat) (l r : Node) (rest : List Node) (pending : List Expr)
    (a : Supply) :
    roundsJournal (k + 1) (l :: r :: rest) pending a =
      let paired := pairUpJournal (l :: r :: rest) pending a
      let others := roundsJournal k paired.1.1.1 paired.1.1.2 paired.2
      ((others.1.1, paired.1.2 ++ others.1.2), others.2) := rfl

/-- The bound on the number of rounds does not matter, as long as the trees can come to one. -/
theorem Rounds.run {k : Nat} (h : Rounds a ts pending t Js left) (hk : Nat.clog 2 ts.length ≤ k) :
    roundsJournal k (ts.map JoinTree.plan) pending a =
      ((some ⟨t.plan, left⟩, Js.map Joint.plan), a.advance Js.length) := by
  induction h generalizing k with
  | single => cases k <;> rfl
  | @round _ _ _ _ ts us _ Js _ several first _ ih =>
    rw [Nat.clog_of_two_le Nat.one_lt_two several] at hk
    match ts, k with
    | l :: r :: rest, k + 1 =>
      have hus : Nat.clog 2 us.length ≤ k := by
        rw [first.length]
        exact Nat.le_of_succ_le_succ hk
      have hrun := first.run
      rw [List.map_cons, List.map_cons] at hrun ⊢
      rw [roundsJournal_succ, hrun, List.map_append, List.length_append, ← Supply.advance_advance]
      simp only [ih hus]

theorem Rounds.crosses {done : List Joint} (h : Rounds a ts pending t Js left)
    (hd : ts.flatMap JoinTree.joints ⊆ done) : Crosses done ts pending [t] Js left := by
  induction h generalizing done with
  | single => exact .refl ..
  | @round _ _ _ _ _ us _ Js _ _ first _ ih =>
    have hc := first.crosses hd
    refine hc.trans (ih fun J hJ => ?_)
    rcases List.mem_append.1 (hc.joints.subset hJ) with hJ | hJ
    · exact List.mem_append_left _ (hd hJ)
    · exact List.mem_append_right _ hJ

end Assembly

namespace Search
variable {ν σ : Type} [CostScale ν] {s : Search ν σ} {members : List Node} {residuals : List Expr}
  {a b : Session ν σ}

/-- What a search finds is a single tree over all members. Its pieces are the trees that have grown,
in the order in which they did, and its joints are what the journal lists. -/
theorem journal_of_solve {found : Option Solution} (hne : members ≠ [])
    (h : s.solve members residuals a = .ok found b) :
    ∃ (t : JoinTree) (left : List Expr) (Js : List Joint), found = some ⟨t.plan, left⟩ ∧
      t.leaves.Perm members ∧ (∀ u ∈ t.cut, u.Grown s.edges) ∧
      s.solveJournal members residuals a = .ok (found, Js.map Joint.plan) b ∧
      Js.Perm t.joints ∧ Commits [] residuals Js left ∧
      ∃ trees u order pending v, members.mapM s.appraise a = .ok trees u ∧
        ranked trees = some order ∧ s.growAll trees.length order residuals u =
          .ok (t.cut.map JoinTree.plan, pending) v := by
  rw [← fst_solveJournal] at h
  obtain ⟨⟨found, made⟩, hjournal, rfl⟩ := Action.map_eq_ok.1 h
  have h := hjournal
  unfold solveJournal at h
  obtain ⟨trees, u, htrees, h⟩ := Action.bind_eq_ok.1 h
  obtain ⟨order, _, hr, h⟩ := Action.bind_eq_ok.1 h
  obtain ⟨horder, rfl⟩ := ranking_eq_ok.1 hr
  obtain ⟨⟨⟨plans, pending⟩, grown⟩, v, hg, h⟩ := Action.bind_eq_ok.1 h
  obtain ⟨⟨found, crossed⟩, w, hr, h⟩ := Action.bind_eq_ok.1 h
  obtain ⟨h, rfl⟩ := Action.pure_eq_ok.1 h
  cases h
  obtain ⟨x, hr, -⟩ := Action.onPart_eq_ok.1 hr
  rw [Action.ofState_eq_ok] at hr
  have hperm := (ranked_perm horder).map Tree.plan
  rw [map_plan_of_appraise htrees] at hperm
  obtain ⟨ts, rfl, hgrown, rfl, hcom, hleaves⟩ :=
    growAllJournal_spec [] hg (ranked_perm horder).length_eq.le
  have hmembers := hleaves.trans hperm
  have hts : ts ≠ [] := by
    rintro rfl
    exact hne (List.nil_perm.1 hmembers)
  obtain ⟨t, Js, left, hrounds⟩ := Assembly.exists_rounds v.supply ts pending hts
  have hc := hrounds.crosses (List.Subset.refl _)
  rw [List.length_map, hrounds.run (clog_two_le_self _)] at hr
  cases hr
  have hcut : t.cut = ts := by
    have := hc.pieces
    rwa [List.flatMap_singleton, JoinTree.flatMap_cut_of_grown hgrown] at this
  have hgrow : s.growAll trees.length order residuals u =
      .ok (ts.map JoinTree.plan, pending) v := by
    rw [← fst_growAllJournal]
    exact Action.map_eq_ok.2 ⟨_, hg, rfl⟩
  refine ⟨t, left, ts.flatMap JoinTree.joints ++ Js, rfl, ?_, hcut.symm ▸ hgrown, ?_, ?_,
    hcom.append (by simpa using hc.commits), trees, u, order, pending, v, htrees, horder,
    hcut.symm ▸ hgrow⟩
  · rwa [← t.leaves_cut, hcut]
  · rwa [List.map_append]
  · simpa using hc.joints.symm

end Search

end JoinOrder
