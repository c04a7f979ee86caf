import JoinOrder.Plan.Basic

/-!
# Breadth-first order

A walk over the nodes of a plan level by level, in which a node counts as met as soon as some node
with its id was queued. Within a level the node queued last comes first.
-/

namespace JoinOrder.Node

/-- The walk between two levels: the ids met so far and the nodes queued for the next level. -/
structure Frontier where
  met : List Nat
  queued : List Node

/-- Queues a node in front of the others, unless its id was met before. -/
def Frontier.offer (f : Frontier) (n : Node) : Frontier :=
  if n.id ∈ f.met then f else ⟨n.id :: f.met, n :: f.queued⟩

/-- Queues the inputs of all nodes of a level. -/
def Frontier.next (f : Frontier) (level : List Node) : Frontier :=
  level.foldl (fun f n => n.inputs.foldl Frontier.offer f) f

/-- The nodes of at most `depth` levels, given the first one and the ids met. -/
def levels : (depth : Nat) → (met : List Nat) → (level : List Node) → List Node
  | 0, _, _ => []
  | depth + 1, met, level =>
    let f := Frontier.next ⟨met, []⟩ level
    level ++ levels depth f.met f.queued

/-- The nodes of a plan in breadth-first order, one for each id met. -/
def breadthFirst (root : Node) : List Node := levels root.height [root.id] [root]

end JoinOrder.Node
