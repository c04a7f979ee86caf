import JoinOrder.Proofs.ExactCosts

/-!
# Costs that differ

Trees whose costs are numbers, and pairwise different, are ranked strictly. So their order before does
not show afterwards (`ranked_eq_of_perm`).
-/

namespace JoinOrder

open CostScale

namespace Ranking
variable {α : Type} {less : α → α → Bool}
  (htrans : ∀ a b c, less a b = true → less b c = true → less a c = true)
include htrans

/-- One more insertion into a list, greatest first. -/
theorem insertDown_strict {x : α} {items : List α}
    (hx : ∀ y ∈ items, less x y = true ∨ less y x = true)
    (h : items.Pairwise fun y z => less z y = true) :
    (insertDown less x items).Pairwise fun y z => less z y = true := by
  induction items with
  | nil => exact List.pairwise_singleton ..
  | cons y rest ih =>
    obtain ⟨hy, hrest⟩ := List.pairwise_cons.1 h
    obtain ⟨hxy, hxrest⟩ := List.forall_mem_cons.1 hx
    rw [insertDown]
    split
    · refine List.pairwise_cons.2 ⟨fun z hz => ?_, ih hxrest hrest⟩
      rcases List.mem_cons.1 ((insertDown_perm less x rest).subset hz) with rfl | hz
      · assumption
      · exact hy z hz
    · have hyx : less y x = true := hxy.resolve_left ‹_›
      refine List.pairwise_cons.2 ⟨fun z hz => ?_, h⟩
      rcases List.mem_cons.1 hz with rfl | hz
      · exact hyx
      · exact htrans z y x (hy z hz) hyx

theorem insertion_strict {items : List α}
    (h : items.Pairwise fun x y => less x y = true ∨ less y x = true) :
    (insertion less items).Pairwise fun x y => less x y = true := by
  have fold : ∀ falling : List α,
      (falling ++ items).Pairwise (fun x y => less x y = true ∨ less y x = true) →
      falling.Pairwise (fun y z => less z y = true) →
        (items.foldl (fun falling x => insertDown less x falling) falling).Pairwise
          fun y z => less z y = true := by
    clear h
    induction items with
    | nil => exact fun _ _ h => h
    | cons x rest ih =>
      intro falling h hfalling
      have hperm : (insertDown less x falling ++ rest).Perm (falling ++ x :: rest) :=
        ((insertDown_perm less x falling).append_right rest).trans List.perm_middle.symm
      refine ih _ (h.perm hperm.symm Or.symm) (insertDown_strict htrans (fun y hy => ?_) hfalling)
      exact ((List.pairwise_append.1 h).2.2 y hy x (List.mem_cons_self ..)).symm
  unfold insertion insertAll
  rw [List.pairwise_reverse]
  exact fold [] h .nil

end Ranking

variable {ν : Type} [CostScale ν] [OrderedCosts ν] {ts us : List (Tree ν)}

theorem sorted_strict (hp : ts.Pairwise fun t u => t.cheaper u = true ∨ u.cheaper t = true) :
    (sorted ts).Pairwise fun t u => t.cheaper u = true :=
  Ranking.insertion_strict (fun t u v => OrderedCosts.trans t.cost u.cost v.cost) hp

/-- Of trees whose costs are numbers, no two of them equal, the order before they are ranked does not
show. -/
theorem ranked_eq_of_perm (hn : ∀ t ∈ ts, Number t.cost)
    (hd : ts.Pairwise fun t u => Differ t.cost u.cost) (h : us.Perm ts) : ranked us = ranked ts := by
  have hp : ts.Pairwise fun t u => t.cheaper u = true ∨ u.cheaper t = true :=
    hd.imp_of_mem fun ht hu htu => less_or_less (hn _ ht) (hn _ hu) htu
  have hts := sorted_strict hp
  have hus := sorted_strict (hp.perm h.symm Or.symm)
  have hperm : (sorted us).Perm (sorted ts) :=
    (sorted_perm us).trans (h.trans (sorted_perm ts).symm)
  rw [ranked_of_numbers hn, ranked_of_numbers fun u hu => hn u (h.subset hu), Option.some.injEq]
  refine hperm.eq_of_pairwise (fun t u _ _ htu hut => ?_) hus hts
  have := AsymmetricCosts.asymm _ _ htu
  rw [Tree.cheaper, this] at hut
  cases hut

end JoinOrder
