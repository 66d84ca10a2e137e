import Dataflow.NodeId

/-!
Total maps on nodes with finitely many cells that differ from a common value. Writing outside the
cells extends them, so `get_set` needs no bound.
-/

namespace Dataflow

structure NodeMap (α : Type) where
  rest : α
  cells : Array α

namespace NodeMap

variable {α : Type}

def const (value : α) : NodeMap α := ⟨value, #[]⟩

def get (m : NodeMap α) (n : NodeId) : α := m.cells.getD n.index m.rest

def set (m : NodeMap α) (n : NodeId) (value : α) : NodeMap α :=
  if n.index < m.cells.size then
    { m with cells := m.cells.setIfInBounds n.index value }
  else
    { m with cells := (m.cells ++ Array.replicate (n.index - m.cells.size) m.rest).push value }

@[simp] theorem get_const (value : α) (n : NodeId) : (const value).get n = value := by
  simp [const, get]

theorem get_set (m : NodeMap α) (n k : NodeId) (value : α) :
    (m.set n value).get k = if k = n then value else m.get k := by
  obtain ⟨i⟩ := n
  obtain ⟨j⟩ := k
  simp only [NodeId.mk.injEq]
  unfold set
  split
  · simp only [get, Array.getD_eq_getD_getElem?, Array.getElem?_setIfInBounds]
    grind
  · simp only [get, Array.getD_eq_getD_getElem?, Array.getElem?_push, Array.getElem?_append,
      Array.getElem?_replicate, Array.size_append, Array.size_replicate]
    grind

@[simp] theorem get_set_self (m : NodeMap α) (n : NodeId) (value : α) :
    (m.set n value).get n = value := by
  simp [get_set]

theorem get_set_of_ne (m : NodeMap α) {n k : NodeId} (value : α) (other : k ≠ n) :
    (m.set n value).get k = m.get k := by
  simp [get_set, other]

end NodeMap

end Dataflow
