import Kconfig.Model.Basic
/-!
The nodes of trees, and those among them that other nodes stand below.
-/
namespace Kconfig.Tree

theorem forestIds_append (ts us : List Tree) :
    forestIds (ts ++ us) = forestIds ts ++ forestIds us := by
  induction ts with
  | nil => rfl
  | cons t ts ih => rw [List.cons_append, forestIds, forestIds, ih, List.append_assoc]

theorem forestIds_concat (ts : List Tree) (n : NodeId) (below : List Tree) :
    forestIds (ts ++ [.node n below]) = forestIds ts ++ n :: forestIds below := by
  rw [forestIds_append, forestIds, forestIds, ids, List.append_nil]

mutual

/-- The nodes of a tree that other nodes stand below. -/
def parents : Tree → List NodeId
  | .node id children => (if children.isEmpty then [] else [id]) ++ forestParents children

def forestParents : List Tree → List NodeId
  | [] => []
  | t :: ts => t.parents ++ forestParents ts

end

theorem forestParents_append (ts us : List Tree) :
    forestParents (ts ++ us) = forestParents ts ++ forestParents us := by
  induction ts with
  | nil => rfl
  | cons t ts ih => rw [List.cons_append, forestParents, forestParents, ih, List.append_assoc]

/-- Which nodes others stand below does not hang on the order of the trees. -/
theorem mem_forestParents_reverse {n : NodeId} {ts : List Tree} :
    n ∈ forestParents ts.reverse ↔ n ∈ forestParents ts := by
  induction ts with
  | nil => rfl
  | cons t ts ih =>
    rw [List.reverse_cons, forestParents_append, forestParents, forestParents, forestParents,
      List.append_nil, List.mem_append, List.mem_append, ih, or_comm]

end Kconfig.Tree
