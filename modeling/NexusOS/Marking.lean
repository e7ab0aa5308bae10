import Mathlib.Logic.Relation

/-!
Tracing a graph from its roots. At any moment of a trace the nodes marked so far
are all reachable, and a marked node some successor of which is not marked is
still pending. Three rules keep this: marking a root or a successor of a marked
node, and dropping a pending node whose successors are all marked. When nothing
is pending, marked and reachable are the same.
-/

namespace NexusOS.Marking

variable {Node : Type} {edge : Node → Node → Prop} {root marked pending : Node → Prop}

def Reachable (edge : Node → Node → Prop) (root : Node → Prop) (node : Node) : Prop :=
  ∃ source, root source ∧ Relation.ReflTransGen edge source node

/-- Every successor of `node` is marked. -/
def Traced (edge : Node → Node → Prop) (marked : Node → Prop) (node : Node) : Prop :=
  ∀ next, edge node next → marked next

structure Trace (edge : Node → Node → Prop) (root marked pending : Node → Prop) : Prop where
  sound : ∀ node, marked node → Reachable edge root node
  frontier : ∀ node, marked node → pending node ∨ Traced edge marked node

theorem reachable_root {node : Node} (isRoot : root node) : Reachable edge root node :=
  ⟨node, isRoot, Relation.ReflTransGen.refl⟩

theorem reachable_next {node next : Node} (reached : Reachable edge root node)
    (step : edge node next) : Reachable edge root next := by
  rcases reached with ⟨source, isRoot, path⟩
  exact ⟨source, isRoot, path.tail step⟩

/-- A graph that keeps the roots, and the edges from what they lead to, keeps all they
lead to. -/
theorem reachable_within {root' : Node → Prop} {edge' : Node → Node → Prop}
    (roots : ∀ node, root node → root' node)
    (edges : ∀ node next, Reachable edge root node → edge node next → edge' node next)
    {node : Node} (reached : Reachable edge root node) : Reachable edge' root' node := by
  rcases reached with ⟨source, isRoot, path⟩
  induction path with
  | refl => exact reachable_root (roots source isRoot)
  | tail before step ih => exact reachable_next ih (edges _ _ ⟨source, isRoot, before⟩ step)

theorem trace_none (unmarked : ∀ node, ¬ marked node) : Trace edge root marked pending :=
  ⟨fun node known => absurd known (unmarked node), fun node known => absurd known (unmarked node)⟩

-- Mark one node that is a root or a successor of a marked node; it is pending.
theorem trace_mark {fresh : Node} {marked' pending' : Node → Prop}
    (trace : Trace edge root marked pending)
    (source : root fresh ∨ ∃ node, marked node ∧ edge node fresh)
    (now : ∀ node, marked' node ↔ marked node ∨ node = fresh)
    (kept : ∀ node, pending node ∨ node = fresh → pending' node) :
    Trace edge root marked' pending' := by
  constructor
  · intro node known
    rcases (now node).mp known with old | rfl
    · exact trace.sound node old
    · rcases source with isRoot | ⟨before, old, step⟩
      · exact reachable_root isRoot
      · exact reachable_next (trace.sound before old) step
  · intro node known
    rcases (now node).mp known with old | rfl
    · rcases trace.frontier node old with still | done
      · exact Or.inl (kept node (Or.inl still))
      · exact Or.inr fun next step => (now next).mpr (Or.inl (done next step))
    · exact Or.inl (kept node (Or.inr rfl))

-- A pending node may be dropped once it is traced.
theorem trace_drop {pending' : Node → Prop} (trace : Trace edge root marked pending)
    (kept : ∀ node, marked node → pending node → pending' node ∨ Traced edge marked node) :
    Trace edge root marked pending' := by
  refine ⟨trace.sound, fun node known => ?_⟩
  rcases trace.frontier node known with still | done
  · exact kept node known still
  · exact Or.inr done

theorem trace_exact (trace : Trace edge root marked pending)
    (roots : ∀ node, root node → marked node) (finished : ∀ node, marked node → ¬ pending node)
    (node : Node) : marked node ↔ Reachable edge root node := by
  constructor
  · exact trace.sound node
  · rintro ⟨source, isRoot, path⟩
    induction path with
    | refl => exact roots source isRoot
    | tail _ step ih =>
        rcases trace.frontier _ ih with still | done
        · exact absurd still (finished _ ih)
        · exact done _ step

end NexusOS.Marking
