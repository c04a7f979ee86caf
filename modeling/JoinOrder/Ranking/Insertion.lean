/-!
# Ranking by insertion

An item is inserted behind all items that are not greater than it, beginning the search at the
greatest. The order is given by `less`, which need not be an order: where two items do not compare,
neither is less.
-/

namespace JoinOrder.Ranking
variable {α : Type} (less : α → α → Bool)

/-- Inserts an item into a list that has the greatest first, in front of the first item that it is
not less than. -/
def insertDown (x : α) : List α → List α
  | [] => [x]
  | y :: rest => if less x y then y :: insertDown x rest else x :: y :: rest

/-- Inserts items, one after the other, into a sorted list. -/
def insertAll (sorted items : List α) : List α :=
  (items.foldl (fun falling x => insertDown less x falling) sorted.reverse).reverse

/-- The items in ascending order; items of equal rank stay in order. -/
def insertion (items : List α) : List α := insertAll less [] items

theorem insertDown_perm (x : α) (items : List α) : (insertDown less x items).Perm (x :: items) := by
  induction items with
  | nil => exact .refl _
  | cons y rest ih =>
    unfold insertDown
    split
    · exact (ih.cons y).trans (.swap x y rest)
    · exact .refl _

theorem foldl_insertDown_perm (items falling : List α) :
    (items.foldl (fun falling x => insertDown less x falling) falling).Perm (falling ++ items) := by
  induction items generalizing falling with
  | nil => simp
  | cons x rest ih =>
    refine (ih _).trans ?_
    exact ((insertDown_perm less x falling).append_right rest).trans List.perm_middle.symm

/-- Nothing is lost or repeated by insertion. -/
theorem insertAll_perm (sorted items : List α) :
    (insertAll less sorted items).Perm (sorted ++ items) :=
  (List.reverse_perm _).trans <|
    (foldl_insertDown_perm less items _).trans ((List.reverse_perm sorted).append_right items)

theorem insertion_perm (items : List α) : (insertion less items).Perm items :=
  insertAll_perm less [] items

end JoinOrder.Ranking
