import Mathlib.Data.List.Forall2
import JoinOrder.Greedy.Solve

/-!
# Ranking goes by comparisons

Whatever the method, where an item ends up depends only on how the items compare. So items may be
exchanged for others that compare alike, before or after they are ranked (`stable_map`,
`ranked_map`). This holds for every comparison, be it an order or not, and whether ranking panics
depends only on how the items compare too.
-/

namespace JoinOrder.Ranking
variable {α β : Type} {f : α → β} {less : α → α → Bool} {less' : β → β → Bool}
  (h : ∀ x y, less' (f x) (f y) = less x y)

section Insertion
include h

theorem insertDown_map (x : α) (items : List α) :
    insertDown less' (f x) (items.map f) = (insertDown less x items).map f := by
  induction items with
  | nil => rfl
  | cons y rest ih =>
    rw [List.map_cons, insertDown, insertDown, h]
    split
    · rw [ih, List.map_cons]
    · rfl

theorem insertAll_map (sorted items : List α) :
    insertAll less' (sorted.map f) (items.map f) = (insertAll less sorted items).map f := by
  have fold : ∀ falling : List α,
      (items.map f).foldl (fun falling x => insertDown less' x falling) (falling.map f) =
        (items.foldl (fun falling x => insertDown less x falling) falling).map f := by
    induction items with
    | nil => exact fun _ => rfl
    | cons x rest ih =>
      intro falling
      rw [List.map_cons, List.foldl_cons, List.foldl_cons, insertDown_map h, ih]
  unfold insertAll
  rw [List.map_reverse, ← fold, List.map_reverse]

theorem insertion_map (items : List α) :
    insertion less' (items.map f) = (insertion less items).map f := insertAll_map h [] items

end Insertion

section Merging

/-- The same merge of other items. -/
def Merging.map (f : α → β) (m : Merging α) : Merging β :=
  ⟨m.merged.map f, m.left.map f, m.right.map f⟩

include h

theorem mergeUp_map (left right : List α) :
    mergeUp less' (left.map f) (right.map f) = (mergeUp less left right).map f := by
  refine (List.map_merge fun a _ b _ => ?_).symm
  rw [h]

theorem mergeDown_map (left right : List α) :
    mergeDown less' (left.map f) (right.map f) = (mergeDown less left right).map f := by
  unfold mergeDown
  rw [List.map_reverse, List.map_merge (s := fun b a => !less' b a), List.map_reverse, List.map_reverse]
  intro a _ b _
  rw [h]

theorem merge_map (left right : List α) :
    merge less' (left.map f) (right.map f) = (merge less left right).map f := by
  unfold merge
  rw [List.length_map, List.length_map]
  split
  · exact mergeUp_map h left right
  · exact mergeDown_map h left right

theorem mergeFront_map (steps : Nat) (left right : List α) :
    mergeFront less' steps (left.map f) (right.map f) = (mergeFront less steps left right).map f := by
  induction steps generalizing left right with
  | zero => cases left <;> cases right <;> rfl
  | succ steps ih =>
    match left, right with
    | [], _ => cases right <;> rfl
    | _ :: _, [] => rfl
    | a :: left, b :: right =>
      rw [List.map_cons, List.map_cons, mergeFront, mergeFront, h]
      split
      · have := ih (a :: left) right
        rw [List.map_cons] at this
        rw [this]
        rfl
      · have := ih left (b :: right)
        rw [List.map_cons] at this
        rw [this]
        rfl

theorem mergeBack_map (steps : Nat) (left right : List α) :
    mergeBack less' steps (left.map f) (right.map f) = (mergeBack less steps left right).map f := by
  have hflip : ∀ x y, (fun b a => less' a b) (f x) (f y) = (fun b a => less a b) x y := fun x y => h y x
  unfold mergeBack
  rw [← List.map_reverse, ← List.map_reverse, mergeFront_map hflip]
  unfold Merging.map
  simp only [List.map_reverse]

theorem meet_map (left right : List α) :
    meet less' (left.map f) (right.map f) = (meet less left right).map (List.map f) := by
  unfold meet
  rw [List.length_map, mergeFront_map h, mergeBack_map h]
  simp only [Merging.map, List.length_map]
  split
  · simp only [Option.map_some, List.map_append, List.map_take]
  · rfl

end Merging

section Blocks
include h

theorem pair_map (x y : α) : pair less' (f x) (f y) = (pair less x y).map f := by
  unfold pair
  rw [h]
  split <;> rfl

theorem four_map (items : List α) : four less' (items.map f) = (four less items).map f := by
  match items with
  | [] => rfl
  | [_] => rfl
  | [_, _] => rfl
  | [_, _, _] => rfl
  | [w, x, y, z] =>
    have inner : ∀ p q r s : α, f p :: pair less' (f q) (f r) ++ [f s] = (p :: pair less q r ++ [s]).map f :=
      fun p q r s => by rw [pair_map h]; simp
    simp only [List.map_cons, List.map_nil, four, h]
    cases less x w <;> cases less z y <;> simp only [Bool.false_eq_true, if_true, if_false, h] <;>
      split <;> exact inner ..
  | _ :: _ :: _ :: _ :: _ :: _ => rfl

theorem eight_map (items : List α) :
    eight less' (items.map f) = (eight less items).map (List.map f) := by
  unfold eight
  rw [← List.map_take, ← List.map_drop, four_map h, four_map h, meet_map h]

theorem half_map (length : Nat) (items : List α) :
    half less' length (items.map f) = (half less length items).map (List.map f) := by
  unfold half
  split
  · rw [← List.map_take, ← List.map_drop, eight_map h]
    cases eight less (items.take 8) with
    | none => rfl
    | some first => exact congrArg some (insertAll_map h first (items.drop 8))
  split
  · rw [← List.map_take, ← List.map_drop, four_map h, insertAll_map h]
    rfl
  · exact congrArg some (insertion_map h items)

theorem block_map (items : List α) :
    block less' (items.map f) = (block less items).map (List.map f) := by
  unfold block
  simp only [List.length_map, ← List.map_take, ← List.map_drop, half_map h]
  cases half less items.length (items.take (items.length / 2)) with
  | none => rfl
  | some left =>
    cases half less items.length (items.drop (items.length / 2)) with
    | none => rfl
    | some right => exact meet_map h left right

end Blocks

section Runs

/-- The same run of other items. -/
def Run.map (f : α → β) (r : Run α) : Run β := ⟨r.items.map f, r.sorted⟩

/-- The same run of other items, waiting. -/
def Waiting.map (f : α → β) (w : Waiting α) : Waiting β := ⟨w.run.map f, w.depth⟩

section
include h

theorem streak_map (falling : Bool) (last : α) (items : List α) :
    streak less' falling (f last) (items.map f) = streak less falling last items := by
  induction items generalizing last with
  | nil => rfl
  | cons x rest ih => rw [List.map_cons, streak, streak, h, ih]

theorem existingRun_map (items : List α) :
    existingRun less' (items.map f) = existingRun less items := by
  match items with
  | [] => rfl
  | [_] => rfl
  | x :: y :: rest =>
    have := streak_map h (less y x) x (y :: rest)
    rw [List.map_cons] at this
    simp only [List.map_cons, existingRun, h, this]

theorem firstRun_map (shortest : Nat) (inBlocks : Bool) (items : List α) :
    firstRun less' shortest inBlocks (items.map f) =
      (firstRun less shortest inBlocks items).map fun r => (r.1.map f, r.2.map f) := by
  unfold firstRun
  rw [existingRun_map h]
  dsimp only
  split
  · unfold Run.map
    rw [← List.map_drop, ← List.map_take, ← List.map_reverse]
    split <;> rfl
  split
  · rw [← List.map_drop, ← List.map_take, block_map h]
    cases block less (items.take blockSize) <;> rfl
  · rw [← List.map_drop, ← List.map_take]
    rfl

theorem cutRuns_map (shortest : Nat) (inBlocks : Bool) (steps : Nat) (items : List α) :
    cutRuns less' shortest inBlocks steps (items.map f) =
      (cutRuns less shortest inBlocks steps items).map (List.map (Run.map f)) := by
  induction steps generalizing items with
  | zero => cases items <;> rfl
  | succ steps ih =>
    cases items with
    | nil => rfl
    | cons x rest =>
      have hfirst := firstRun_map h shortest inBlocks (x :: rest)
      rw [List.map_cons] at hfirst ⊢
      unfold cutRuns
      rw [hfirst]
      cases firstRun less shortest inBlocks (x :: rest) with
      | none => rfl
      | some r =>
        change (cutRuns less' shortest inBlocks steps (r.2.map f) >>= fun _ => _) = _
        rw [ih]
        change _ = Option.map _ (cutRuns less shortest inBlocks steps r.2 >>= fun _ => _)
        cases cutRuns less shortest inBlocks steps r.2 <;> rfl

end

variable {sort : List α → Option (List α)} {sort' : List β → Option (List β)}
  (hs : ∀ items, sort' (items.map f) = (sort items).map (List.map f))
include hs

theorem Run.inOrder_map (r : Run α) :
    (r.map f).inOrder sort' = (r.inOrder sort).map (List.map f) := by
  unfold Run.inOrder Run.map
  dsimp only
  split
  · rfl
  · exact hs _

include h

theorem Run.join_map (r s : Run α) :
    (r.map f).join less' sort' (s.map f) = (r.join less sort s).map (Run.map f) := by
  unfold Run.join
  rw [Run.inOrder_map hs, Run.inOrder_map hs]
  change (if r.sorted || s.sorted then _ else _) = _
  split
  · cases r.inOrder sort with
    | none => rfl
    | some left =>
      cases s.inOrder sort with
      | none => rfl
      | some right =>
        exact congrArg (fun items => some (Run.mk items true)) (merge_map h left right)
  · exact congrArg (fun items => some (Run.mk items false)) List.map_append.symm

theorem joinWaiting_map (depth : Nat) (waiting : List (Waiting α)) (r : Run α) :
    joinWaiting less' sort' depth (waiting.map (Waiting.map f)) (r.map f) =
      (joinWaiting less sort depth waiting r).map (List.map (Waiting.map f)) := by
  induction waiting generalizing r with
  | nil => rfl
  | cons w waiting ih =>
    rw [List.map_cons, joinWaiting, joinWaiting]
    change (if depth ≤ w.depth then (w.run.map f).join less' sort' (r.map f) >>=
      joinWaiting less' sort' depth (waiting.map (Waiting.map f)) else _) = _
    rw [Run.join_map h hs]
    split
    · cases w.run.join less sort r with
      | none => rfl
      | some joined => exact ih joined
    · rfl

theorem foldlM_join_map (waiting : List (Waiting α)) (r : Run α) :
    let join := fun joined (w : Waiting α) => w.run.join less sort joined
    let join' := fun joined (w : Waiting β) => w.run.join less' sort' joined
    (waiting.map (Waiting.map f)).foldlM join' (r.map f) =
      (waiting.foldlM join r).map (Run.map f) := by
  intro join join'
  induction waiting generalizing r with
  | nil => rfl
  | cons w waiting ih =>
    rw [List.map_cons, List.foldlM_cons, List.foldlM_cons]
    have hjoin : join' (r.map f) (w.map f) = (join r w).map (Run.map f) := Run.join_map h hs w.run r
    rw [hjoin]
    cases join r w with
    | none => rfl
    | some joined => exact ih joined

theorem joinRuns_map (length : Nat) (waiting : List (Waiting α)) (start : Nat) (current : Run α)
    (runs : List (Run α)) :
    joinRuns less' sort' length (waiting.map (Waiting.map f)) start (current.map f)
        (runs.map (Run.map f)) =
      (joinRuns less sort length waiting start current runs).map (Run.map f) := by
  induction runs generalizing waiting start current with
  | nil => exact foldlM_join_map h hs waiting current
  | cons next runs ih =>
    rw [List.map_cons, joinRuns, joinRuns]
    have hlength : ∀ r : Run α, (r.map f).items.length = r.items.length := fun _ =>
      List.length_map ..
    simp only [hlength, joinWaiting_map h hs]
    generalize depthBetween length start _ _ = depth
    cases joinWaiting less sort depth waiting current with
    | none => rfl
    | some joined => exact ih joined _ next

theorem byRuns_map (inBlocks : Bool) (items : List α) :
    byRuns less' sort' inBlocks (items.map f) =
      (byRuns less sort inBlocks items).map (List.map f) := by
  unfold byRuns
  rw [List.length_map, cutRuns_map h]
  cases cutRuns less (shortestRun items.length) inBlocks items.length items with
  | none => rfl
  | some runs =>
    cases runs with
    | nil => rfl
    | cons first runs =>
      have hjoin := joinRuns_map h hs items.length [] 0 first runs
      change (joinRuns less' sort' items.length ([].map (Waiting.map f)) 0 (first.map f)
        (runs.map (Run.map f)) >>= _) = _
      rw [hjoin]
      change _ = Option.map _ (joinRuns less sort items.length [] 0 first runs >>= _)
      cases joinRuns less sort items.length [] 0 first runs with
      | none => rfl
      | some joined => exact Run.inOrder_map hs joined

end Runs

section Partition
include h

theorem lessAt_map (items : List α) (i j : Nat) :
    lessAt less' (items.map f) i j = lessAt less items i j := by
  unfold lessAt
  rw [List.getElem?_map, List.getElem?_map]
  cases items[i]? <;> cases items[j]? <;> simp [h]

theorem median_map (items : List α) (a b c : Nat) :
    median less' (items.map f) a b c = median less items a b c := by
  unfold median
  simp only [lessAt_map h]

theorem spreadMedian_map (items : List α) (stretch a b c : Nat) :
    spreadMedian less' (items.map f) stretch a b c = spreadMedian less items stretch a b c := by
  induction stretch using Nat.strongRecOn generalizing a b c with
  | ind stretch ih =>
    rw [spreadMedian, spreadMedian]
    split
    · have hpart : stretch / 8 < stretch := by omega
      simp only [ih _ hpart, median_map h]
    · exact median_map h items a b c

theorem pivotPosition_map (items : List α) :
    pivotPosition less' (items.map f) = pivotPosition less items := by
  unfold pivotPosition
  rw [List.length_map]
  exact spreadMedian_map h ..

omit h in
theorem filter_map_of {p : α → Bool} {p' : β → Bool} (hp : ∀ x, p' (f x) = p x) (items : List α) :
    (items.map f).filter p' = (items.filter p).map f := by
  rw [List.filter_map]
  exact congrArg (List.map f) (List.filter_congr fun x _ => hp x)

omit h in
theorem around_map {p : α → Bool} {p' : β → Bool} (hp : ∀ x, p' (f x) = p x) (before : List α)
    (pivot : α) (after : List α) :
    around p' (before.map f) (f pivot) (after.map f) = (around p before pivot after).map f := by
  unfold around
  rw [filter_map_of hp, filter_map_of hp, List.map_append, List.map_cons]

theorem bySplits_map (splits : Nat) (floor : Option α) (items : List α) :
    bySplits less' splits (floor.map f) (items.map f) =
      (bySplits less splits floor items).map (List.map f) := by
  induction splits generalizing floor items with
  | zero =>
    have hsome : ∀ part : List α, some (part.map f) = (some part).map (List.map f) := fun _ => rfl
    unfold bySplits
    rw [List.length_map, block_map h, byRuns_map h hsome]
    split <;> rfl
  | succ splits ih =>
    unfold bySplits
    rw [List.length_map, block_map h, pivotPosition_map h, ← List.map_take, ← List.map_drop]
    split
    · rfl
    cases items.drop (pivotPosition less items) with
    | nil => rfl
    | cons pivot after =>
      generalize items.take (pivotPosition less items) = before
      have hlower : (before.map f ++ after.map f).filter (less' · (f pivot)) =
          ((before ++ after).filter (less · pivot)).map f := by
        rw [← List.map_append]
        exact filter_map_of (fun x => h x pivot) _
      have hhigher : (before.map f ++ after.map f).filter (less' (f pivot) ·) =
          ((before ++ after).filter (less pivot ·)).map f := by
        rw [← List.map_append]
        exact filter_map_of (fun x => h pivot x) _
      have hleast : around (!less' (f pivot) ·) (before.map f) (f pivot) (after.map f) =
          (around (!less pivot ·) before pivot after).map f :=
        around_map (fun x => by rw [h]) ..
      have hothers : around (!less' · (f pivot)) (before.map f) (f pivot) (after.map f) =
          (around (!less · pivot) before pivot after).map f :=
        around_map (fun x => by rw [h]) ..
      have hfloor : (floor.map f).any (!less' · (f pivot)) = floor.any (!less · pivot) := by
        cases floor with
        | none => rfl
        | some x => exact congrArg not (h x pivot)
      have hnone := ih none ((before ++ after).filter (less pivot ·))
      have hsome := ih (some pivot) (around (!less · pivot) before pivot after)
      rw [Option.map_none] at hnone
      rw [Option.map_some] at hsome
      rw [List.map_cons]
      dsimp only
      rw [hlower, hhigher, hleast, hothers, hfloor, hnone, hsome, ih, List.isEmpty_map]
      split
      · cases bySplits less splits none ((before ++ after).filter (less pivot ·)) with
        | none => rfl
        | some greater => exact congrArg some List.map_append.symm
      · cases bySplits less splits floor ((before ++ after).filter (less · pivot)) with
        | none => rfl
        | some lower =>
          cases bySplits less splits (some pivot) (around (!less · pivot) before pivot after) with
          | none => rfl
          | some others => exact congrArg some List.map_append.symm

theorem partition_map (items : List α) :
    partition less' (items.map f) = (partition less items).map (List.map f) := by
  unfold partition
  rw [List.length_map]
  exact bySplits_map h _ none items

/-- Ranking the images of items gives the images of the ranked items. -/
theorem stable_map (items : List α) :
    stable less' (items.map f) = (stable less items).map (List.map f) := by
  unfold stable
  rw [List.length_map, insertion_map h, byRuns_map h (partition_map h)]
  split <;> rfl

end Partition

end JoinOrder.Ranking

namespace JoinOrder
variable {ν ζ : Type} [CostScale ν]

/-- Items in the order in which trees of these costs are ranked. -/
def rankedBy (cost : ζ → ν) (items : List ζ) : Option (List ζ) :=
  if items.all fun x => items.all fun y => (CostScale.compare? (cost x) (cost y)).isSome then
    some (Ranking.insertion (fun x y => CostScale.less (cost x) (cost y)) items)
  else Ranking.stable (fun x y => CostScale.less (cost x) (cost y)) items

theorem ranked_map (cost : ζ → ν) {f : ζ → Tree ν} (h : ∀ z, (f z).cost = cost z)
    (items : List ζ) : ranked (items.map f) = (rankedBy cost items).map (List.map f) := by
  have hcheaper : ∀ x y, (f x).cheaper (f y) = CostScale.less (cost x) (cost y) := fun x y => by
    unfold Tree.cheaper
    rw [h, h]
  have hcomparable : comparable (items.map f) =
      items.all fun x => items.all fun y => (CostScale.compare? (cost x) (cost y)).isSome := by
    unfold comparable
    simp only [List.all_map, Function.comp_def, h]
  unfold ranked rankedBy sorted
  rw [hcomparable, Ranking.insertion_map hcheaper, Ranking.stable_map hcheaper]
  split <;> rfl

/-- Trees of the same costs are ranked alike, or ranking either of them panics. -/
theorem rel_ranked {R : Tree ν → Tree ν → Prop} {ts us : List (Tree ν)}
    (hR : ∀ t u, R t u → t.cost = u.cost) (h : List.Forall₂ R ts us) :
    Option.Rel (List.Forall₂ R) (ranked ts) (ranked us) := by
  have hpairs : ∃ ps : List { p : Tree ν × Tree ν // R p.1 p.2 },
      ps.map (·.1.1) = ts ∧ ps.map (·.1.2) = us := by
    induction h with
    | nil => exact ⟨[], rfl, rfl⟩
    | @cons t u _ _ htu _ ih =>
      obtain ⟨ps, rfl, rfl⟩ := ih
      exact ⟨⟨(t, u), htu⟩ :: ps, rfl, rfl⟩
  obtain ⟨ps, rfl, rfl⟩ := hpairs
  rw [ranked_map (fun p => p.1.1.cost) fun _ => rfl,
    ranked_map (fun p => p.1.1.cost) fun p => (hR _ _ p.2).symm]
  cases rankedBy (fun p : { p : Tree ν × Tree ν // R p.1 p.2 } => p.1.1.cost) ps with
  | none => exact .none
  | some order =>
    refine .some ?_
    rw [List.forall₂_map_left_iff, List.forall₂_map_right_iff, List.forall₂_same]
    exact fun p _ => p.2

end JoinOrder
