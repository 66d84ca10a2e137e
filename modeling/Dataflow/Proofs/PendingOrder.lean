import Dataflow.Proofs.Worklist
import Mathlib.Data.List.Nodup
import Mathlib.Data.List.TakeWhile

/-! The order in which pending nodes will be taken. A node that is pushed while it is pending keeps its
place, and a worklist that is filled from a list has the nodes in the order of the list, whether it is a
queue by rank, a queue by age or a stack. -/

namespace Dataflow.Worklist

theorem pushAll_of_pending {w : Worklist} (coherent : w.Coherent) {nodes : List NodeId}
    (waiting : ∀ n ∈ nodes, n ∈ w.pending) : w.pushAll nodes = w := by
  unfold pushAll
  induction nodes with
  | nil => rfl
  | cons n rest ih =>
    have queued : w.queued.get n = true := (coherent.flagged n).mpr (waiting n List.mem_cons_self)
    rw [List.foldl_cons, push_of_queued queued]
    exact ih fun m member => waiting m (List.mem_cons_of_mem _ member)

theorem get_ranked_of_not_mem {n : NodeId} {entries : List (NodeId × Nat)} (m : NodeMap (Option Nat))
    (absent : n ∉ entries.map Prod.fst) :
    (entries.foldl (fun m e => m.set e.1 (some e.2)) m).get n = m.get n := by
  induction entries generalizing m with
  | nil => rfl
  | cons e rest ih =>
    simp only [List.map_cons, List.mem_cons, not_or] at absent
    rw [List.foldl_cons, ih _ absent.2, NodeMap.get_set_of_ne _ _ absent.1]

/-- The rank of a node is the number of nodes listed before it. -/
theorem get_ranks {before after : List NodeId} {n : NodeId} (once : n ∉ after) :
    (ranks (before ++ n :: after)).get n = some before.length := by
  have later : n ∉ (after.zipIdx (before.length + 1)).map Prod.fst := by
    rwa [List.zipIdx_map_fst]
  rw [ranks, List.zipIdx_append, List.foldl_append, List.zipIdx_cons, List.foldl_cons, Nat.zero_add,
    get_ranked_of_not_mem _ later, NodeMap.get_set_self]

theorem before_of_ranks {w : Worklist} {done rest : List NodeId} {n m : NodeId}
    (ranked : w.rank = ranks (done ++ n :: rest)) (distinct : (done ++ n :: rest).Nodup)
    (member : m ∈ done) : Ranked.before ⟨w.rank.get m, m⟩ ⟨w.rank.get n, n⟩ = true := by
  have last : n ∉ rest := (List.nodup_cons.mp (List.nodup_append.mp distinct).2.1).1
  obtain ⟨first, second, rfl⟩ := List.append_of_mem member
  rw [List.append_assoc, List.cons_append] at distinct
  have once : m ∉ second ++ n :: rest := (List.nodup_cons.mp (List.nodup_append.mp distinct).2.1).1
  have earlier : w.rank.get m = some first.length := by
    rw [ranked, List.append_assoc, List.cons_append]
    exact get_ranks once
  have later : w.rank.get n = some (first ++ m :: second).length := by
    rw [ranked]
    exact get_ranks last
  simp [Ranked.before, earlier, later]

theorem insert_last {e : Ranked} {entries : List Ranked} (behind : ∀ x ∈ entries, x.before e = true) :
    Ranked.insert e entries = entries ++ [e] := by
  induction entries with
  | nil => rfl
  | cons x rest ih =>
    obtain ⟨first, later⟩ := List.forall_mem_cons.mp behind
    rw [Ranked.insert, if_pos first, ih later, List.cons_append]

/-- Behind nodes of smaller rank a queue by rank and a queue by age have the same place for a node. -/
theorem place_last {w : Worklist} (coherent : w.Coherent) (queue : w.discipline ≠ .lifo) {n : NodeId}
    (behind : ∀ m ∈ w.pending, Ranked.before ⟨w.rank.get m, m⟩ ⟨w.rank.get n, n⟩ = true) :
    w.place n = w.pending ++ [n] := by
  cases discipline : w.discipline with
  | reversePostorder =>
    have last (e : Ranked) (member : e ∈ w.ranked.entries) : e.before ⟨w.rank.get n, n⟩ = true := by
      have listed : e.node ∈ w.pending := by
        simp only [pending, stored, discipline]
        exact List.mem_map_of_mem member
      have ahead := behind e.node listed
      rwa [← coherent.keyed e member] at ahead
    simp [place, pending, stored, discipline, insert_last last]
  | fifo => simp [place, discipline]
  | lifo => contradiction

theorem pending_pushAll_queue {w : Worklist} {order : List NodeId} (coherent : w.Coherent)
    (queue : w.discipline ≠ .lifo) (ranked : w.rank = ranks order) (distinct : order.Nodup)
    {todo : List NodeId} (parted : order = w.pending ++ todo) : (w.pushAll todo).pending = order := by
  unfold pushAll
  induction todo generalizing w with
  | nil => simpa using parted.symm
  | cons n rest ih =>
    have absent : n ∉ w.pending := fun member =>
      (List.nodup_append.mp (parted ▸ distinct)).2.2 n member n List.mem_cons_self rfl
    have behind (m : NodeId) (member : m ∈ w.pending) :
        Ranked.before ⟨w.rank.get m, m⟩ ⟨w.rank.get n, n⟩ = true :=
      before_of_ranks (parted ▸ ranked) (parted ▸ distinct) member
    have placed : (w.push n).pending = w.pending ++ [n] := by
      rw [pending_push (not_queued coherent absent), place_last coherent queue behind]
    apply ih (push_coherent coherent n)
    · simpa using queue
    · simpa using ranked
    · rw [placed, parted, List.append_assoc, List.singleton_append]

theorem pending_pushAll_stack {w : Worklist} (coherent : w.Coherent) (stack : w.discipline = .lifo)
    {nodes : List NodeId} (distinct : nodes.Nodup) (absent : ∀ n ∈ nodes, n ∉ w.pending) :
    (w.pushAll nodes).pending = nodes.reverse ++ w.pending := by
  unfold pushAll
  induction nodes generalizing w with
  | nil => rfl
  | cons n rest ih =>
    obtain ⟨fresh, later⟩ := List.nodup_cons.mp distinct
    have placed : (w.push n).pending = n :: w.pending := by
      rw [pending_push (not_queued coherent (absent n List.mem_cons_self)), place, stack]
    rw [List.foldl_cons, ih (push_coherent coherent n) (by simpa using stack) later, placed]
    · simp
    · intro m member
      rw [placed, List.mem_cons, not_or]
      exact ⟨fun same => fresh (same ▸ member), absent m (List.mem_cons_of_mem _ member)⟩

/-- Under every discipline the nodes of a fresh worklist will be taken in the order they are listed in. -/
theorem pending_seeded (discipline : Discipline) {order : List NodeId} (distinct : order.Nodup) :
    (seeded discipline order).pending = order := by
  have coherent := new_coherent discipline order
  cases discipline with
  | reversePostorder => exact pending_pushAll_queue coherent (by simp [new]) rfl distinct (by simp)
  | fifo => exact pending_pushAll_queue coherent (by simp [new]) rfl distinct (by simp)
  | lifo =>
    have pushed := pending_pushAll_stack coherent rfl (List.nodup_reverse.mpr distinct) (by simp)
    rw [List.reverse_reverse] at pushed
    exact pushed.trans (List.append_nil order)

end Dataflow.Worklist
