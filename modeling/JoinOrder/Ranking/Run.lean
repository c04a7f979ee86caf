import JoinOrder.Ranking.Block

/-!
# Ranking by merging runs

A list is cut into runs, which are merged with their neighbours. The merges follow a balanced tree
over the positions of the list: the deeper in this tree the place between two runs is, the earlier
they are merged. Runs that are waiting for later merges are kept, the last one first, together with
the depth of the place behind them. There is no result if some part of the work panics.
-/

namespace JoinOrder.Ranking
variable {α : Type}

/-- Consecutive items of a list. They are in order if the run is sorted, and left for later if
not. -/
structure Run (α : Type) where
  items : List α
  sorted : Bool

/-- A run and the depth of the place behind it. -/
structure Waiting (α : Type) where
  run : Run α
  depth : Nat

section Cutting
variable (less : α → α → Bool)

/-- The length of the longest beginning of `last :: rest` in which every item is less than the one
before it, if falling, or none is, if not. -/
def streak (falling : Bool) (last : α) : List α → Nat
  | [] => 1
  | x :: rest => if less x last == falling then streak falling x rest + 1 else 1

/-- The longest beginning of a list that is in order or falling: its length, and whether it is
falling. -/
def existingRun : List α → Nat × Bool
  | x :: y :: rest => (streak less (less y x) x (y :: rest), less y x)
  | items => (items.length, false)

/-- The first run of a list, and the rest. If the list begins with enough items in order or
falling, these are the run. Otherwise it is the first block, or the first `shortest` items, left for
later. -/
def firstRun (shortest : Nat) (inBlocks : Bool) (items : List α) : Option (Run α × List α) :=
  let (length, falling) := existingRun less items
  if shortest ≤ length then
    let run := if falling then (items.take length).reverse else items.take length
    return (⟨run, true⟩, items.drop length)
  else if inBlocks then return (⟨← block less (items.take blockSize), true⟩, items.drop blockSize)
  else return (⟨items.take shortest, false⟩, items.drop shortest)

/-- Cuts a list into runs. A run has at least one item, so that as many steps as items suffice. -/
def cutRuns (shortest : Nat) (inBlocks : Bool) : (steps : Nat) → List α → Option (List (Run α))
  | _, [] => return []
  | 0, items => return [⟨items, false⟩]
  | steps + 1, items => do
    let (run, rest) ← firstRun less shortest inBlocks items
    return run :: (← cutRuns shortest inBlocks steps rest)

/-- The least number of items that are a run if they are in order: half of them all, but not above
64, and near the square root of the length of a long list. -/
def shortestRun (length : Nat) : Nat :=
  if length ≤ 4096 then min (length - length / 2) 64
  else
    let root := Nat.pow 2 ((1 + Nat.log2 length) / 2)
    (root + length / root) / 2

end Cutting

/-- The depth of the place between two neighbouring runs of a list, one from `left` to `middle` and
one from there to `right`. With the list stretched to length `2^63`, it is the number of leading
binary digits, out of 64, that the midpoints of the two runs have in common. -/
def depthBetween (length left middle right : Nat) : Nat :=
  let scale := (Nat.pow 2 62 + length - 1) / length
  63 - Nat.log2 (scale * (left + middle) ^^^ scale * (middle + right))

section Merging
variable (less : α → α → Bool) (sort : List α → Option (List α))

/-- The items of a run in order. -/
def Run.inOrder (r : Run α) : Option (List α) := if r.sorted then some r.items else sort r.items

/-- Two neighbouring runs as one. Both are left for later if neither is sorted. -/
def Run.join (r s : Run α) : Option (Run α) :=
  if r.sorted || s.sorted then return ⟨merge less (← r.inOrder sort) (← s.inOrder sort), true⟩
  else return ⟨r.items ++ s.items, false⟩

/-- Joins a run with the waiting ones before it, as long as the place between is deep enough. -/
def joinWaiting (depth : Nat) : List (Waiting α) → Run α → Option (List (Waiting α))
  | [], r => return [⟨r, depth⟩]
  | w :: waiting, r =>
    if depth ≤ w.depth then do joinWaiting depth waiting (← w.run.join less sort r)
    else return ⟨r, depth⟩ :: w :: waiting

/-- Joins all runs of a list of the given length: those that are waiting, the current one, which
begins at `start`, and the following ones. -/
def joinRuns (length : Nat) :
    (waiting : List (Waiting α)) → (start : Nat) → (current : Run α) → List (Run α) →
      Option (Run α)
  | waiting, _, current, [] =>
    waiting.foldlM (fun joined w => w.run.join less sort joined) current
  | waiting, start, current, next :: runs => do
    let middle := start + current.items.length
    let depth := depthBetween length start middle (middle + next.items.length)
    joinRuns length (← joinWaiting less sort depth waiting current) middle next runs

/-- The items in ascending order, by joining runs. Where items are left for later, they are sorted
by the given method. -/
def byRuns (inBlocks : Bool) (items : List α) : Option (List α) := do
  match ← cutRuns less (shortestRun items.length) inBlocks items.length items with
  | [] => return []
  | first :: runs => (← joinRuns less sort items.length [] 0 first runs).inOrder sort

end Merging

section Permutations
variable (less : α → α → Bool)

theorem firstRun_perm {shortest : Nat} {inBlocks : Bool} {items rest : List α} {run : Run α}
    (h : firstRun less shortest inBlocks items = some (run, rest)) :
    (run.items ++ rest).Perm items := by
  have cut : ∀ n (taken : List α), taken.Perm (items.take n) →
      (taken ++ items.drop n).Perm items := by
    intro n taken h
    have h := h.append_right (items.drop n)
    rwa [List.take_append_drop] at h
  unfold firstRun at h
  dsimp only at h
  split at h
  · cases h
    refine cut _ _ ?_
    dsimp only
    split
    · exact List.reverse_perm _
    · exact .refl _
  split at h
  · obtain ⟨sorted, block, h⟩ := Option.bind_eq_some_iff.1 h
    cases h
    exact cut _ _ (block_perm less block)
  · cases h
    exact cut _ _ (.refl _)

/-- Nothing is lost or repeated by cutting. -/
theorem cutRuns_perm {shortest : Nat} {inBlocks : Bool} {steps : Nat} {items : List α}
    {runs : List (Run α)} (h : cutRuns less shortest inBlocks steps items = some runs) :
    (runs.flatMap Run.items).Perm items := by
  induction steps generalizing items runs with
  | zero => cases items <;> cases h <;> simp
  | succ steps ih =>
    cases items with
    | nil => cases h; simp
    | cons x rest =>
      obtain ⟨⟨run, rest⟩, first, h⟩ := Option.bind_eq_some_iff.1 h
      obtain ⟨others, cut, h⟩ := Option.bind_eq_some_iff.1 h
      cases h
      exact ((ih cut).append_left _).trans (firstRun_perm less first)

variable {sort : List α → Option (List α)}
  (sort_perm : ∀ {items sorted}, sort items = some sorted → sorted.Perm items)
include sort_perm

theorem Run.inOrder_perm {r : Run α} {sorted : List α} (h : r.inOrder sort = some sorted) :
    sorted.Perm r.items := by
  unfold Run.inOrder at h
  split at h
  · cases h; exact .refl _
  · exact sort_perm h

theorem Run.join_perm {r s joined : Run α} (h : r.join less sort s = some joined) :
    joined.items.Perm (r.items ++ s.items) := by
  unfold Run.join at h
  split at h
  · obtain ⟨left, hl, h⟩ := Option.bind_eq_some_iff.1 h
    obtain ⟨right, hr, h⟩ := Option.bind_eq_some_iff.1 h
    cases h
    exact (merge_perm less _ _).trans
      ((Run.inOrder_perm sort_perm hl).append (Run.inOrder_perm sort_perm hr))
  · cases h; exact .refl _

theorem joinWaiting_perm {depth : Nat} {waiting joined : List (Waiting α)} {r : Run α}
    (h : joinWaiting less sort depth waiting r = some joined) :
    (joined.flatMap (·.run.items)).Perm (r.items ++ waiting.flatMap (·.run.items)) := by
  induction waiting generalizing r with
  | nil => cases h; simp
  | cons w waiting ih =>
    unfold joinWaiting at h
    split at h
    · obtain ⟨s, join, h⟩ := Option.bind_eq_some_iff.1 h
      refine (ih h).trans ?_
      have h := (Run.join_perm less sort_perm join).trans List.perm_append_comm
      simpa using h.append_right (waiting.flatMap (·.run.items))
    · cases h; simp

theorem foldlM_join_perm {waiting : List (Waiting α)} {r joined : Run α}
    (h : waiting.foldlM (fun joined w => w.run.join less sort joined) r = some joined) :
    joined.items.Perm (r.items ++ waiting.flatMap (·.run.items)) := by
  induction waiting generalizing r with
  | nil => cases h; simp
  | cons w waiting ih =>
    obtain ⟨s, join, h⟩ := Option.bind_eq_some_iff.1 h
    refine (ih h).trans ?_
    have h := (Run.join_perm less sort_perm join).trans List.perm_append_comm
    simpa using h.append_right (waiting.flatMap (·.run.items))

theorem joinRuns_perm {length start : Nat} {waiting : List (Waiting α)} {current joined : Run α}
    {runs : List (Run α)}
    (h : joinRuns less sort length waiting start current runs = some joined) :
    joined.items.Perm
      (waiting.flatMap (·.run.items) ++ (current.items ++ runs.flatMap Run.items)) := by
  induction runs generalizing waiting start current with
  | nil =>
    simpa using (foldlM_join_perm less sort_perm h).trans List.perm_append_comm
  | cons next runs ih =>
    obtain ⟨waiting', join, h⟩ := Option.bind_eq_some_iff.1 h
    refine (ih h).trans ?_
    rw [List.flatMap_cons, ← List.append_assoc (waiting.flatMap _)]
    exact ((joinWaiting_perm less sort_perm join).trans List.perm_append_comm).append_right _

/-- Nothing is lost or repeated, if that is so for the method that sorts what is left. -/
theorem byRuns_perm {inBlocks : Bool} {items sorted : List α}
    (h : byRuns less sort inBlocks items = some sorted) : sorted.Perm items := by
  obtain ⟨runs, cut, h⟩ := Option.bind_eq_some_iff.1 h
  have cut := cutRuns_perm less cut
  cases runs with
  | nil => cases h; simpa using cut
  | cons first runs =>
    obtain ⟨joined, join, h⟩ := Option.bind_eq_some_iff.1 h
    exact ((Run.inOrder_perm sort_perm h).trans (joinRuns_perm less sort_perm join)).trans cut

end Permutations

end JoinOrder.Ranking
