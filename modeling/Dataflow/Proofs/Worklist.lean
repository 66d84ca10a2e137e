import Dataflow.Worklist

/-! The worklist as a set. The flags and the stored nodes agree along every sequence of pushes and pops,
so under each discipline a push adds a member and a pop removes one. Which member a pop removes is not
a question of this module: later proofs read the nodes in the order in which they will be taken. -/

namespace Dataflow.Worklist

/-- The nodes in the container that the discipline uses. -/
def stored (w : Worklist) : List NodeId :=
  match w.discipline with
  | .reversePostorder => w.ranked.entries.map Ranked.node
  | .fifo | .lifo => w.queue

/-- The stored nodes in the order in which they will be taken. -/
def pending (w : Worklist) : List NodeId :=
  match w.discipline with
  | .reversePostorder | .fifo => w.stored
  | .lifo => w.stored.reverse

theorem pending_perm (w : Worklist) : w.pending.Perm w.stored := by
  unfold pending
  split
  · exact List.Perm.refl _
  · exact List.Perm.refl _
  · exact List.reverse_perm _

/-- The flags say exactly which nodes are pending, no node is pending twice, and the set by rank has a node
under its own rank. -/
structure Coherent (w : Worklist) : Prop where
  distinct : w.pending.Nodup
  flagged : ∀ n, w.queued.get n = true ↔ n ∈ w.pending
  keyed : ∀ e ∈ w.ranked.entries, e.rank = w.rank.get e.node

@[simp] theorem pending_new (discipline : Discipline) (order : List NodeId) :
    (new discipline order).pending = [] := by
  cases discipline <;> rfl

theorem new_coherent (discipline : Discipline) (order : List NodeId) : (new discipline order).Coherent where
  distinct := by simp
  flagged n := by
    rw [pending_new]
    simp [new]
  keyed := by simp [new, RankedSet.empty]

/-! Pushes. -/

theorem push_of_queued {w : Worklist} {n : NodeId} (queued : w.queued.get n = true) : w.push n = w := by
  simp [push, queued]

@[simp] theorem discipline_push (w : Worklist) (n : NodeId) : (w.push n).discipline = w.discipline := by
  unfold push
  repeat' split
  all_goals rfl

@[simp] theorem rank_push (w : Worklist) (n : NodeId) : (w.push n).rank = w.rank := by
  unfold push
  repeat' split
  all_goals rfl

theorem queued_push {w : Worklist} {n : NodeId} (fresh : w.queued.get n = false) :
    (w.push n).queued = w.queued.set n true := by
  cases discipline : w.discipline <;> simp [push, fresh, discipline]

/-- The pending nodes with a new one in the place that the discipline gives it. -/
def place (w : Worklist) (n : NodeId) : List NodeId :=
  match w.discipline with
  | .reversePostorder => (Ranked.insert ⟨w.rank.get n, n⟩ w.ranked.entries).map Ranked.node
  | .fifo => w.pending ++ [n]
  | .lifo => n :: w.pending

theorem pending_push {w : Worklist} {n : NodeId} (fresh : w.queued.get n = false) :
    (w.push n).pending = w.place n := by
  cases discipline : w.discipline <;>
    simp [push, place, pending, stored, fresh, discipline, RankedSet.insert]

theorem mem_place (w : Worklist) (n m : NodeId) : m ∈ w.place n ↔ m = n ∨ m ∈ w.pending := by
  cases discipline : w.discipline with
  | reversePostorder =>
    simp only [place, pending, stored, discipline, List.mem_map, Ranked.mem_insert]
    grind
  | fifo => simp [place, discipline, or_comm]
  | lifo => simp [place, discipline]

/-- Insertion of a node that is not there puts it between the others. -/
theorem insert_perm {e : Ranked} {entries : List Ranked} (absent : e ∉ entries) :
    (Ranked.insert e entries).Perm (e :: entries) := by
  induction entries with
  | nil => exact List.Perm.refl _
  | cons x rest ih =>
    simp only [List.mem_cons, not_or] at absent
    unfold Ranked.insert
    split
    · exact ((ih absent.2).cons x).trans (List.Perm.swap e x rest)
    · rw [if_neg (Ne.symm absent.1)]

/-- Whatever the discipline, placing a node permutes it to the front of the others. -/
theorem place_perm {w : Worklist} {n : NodeId} (absent : n ∉ w.pending) : (w.place n).Perm (n :: w.pending) := by
  cases discipline : w.discipline with
  | reversePostorder =>
    simp only [pending, stored, discipline] at absent
    simp only [place, pending, stored, discipline]
    exact (insert_perm fun member => absent (List.mem_map_of_mem member)).map Ranked.node
  | fifo =>
    simp only [place, discipline]
    exact List.perm_append_singleton n w.pending
  | lifo => simp [place, discipline]

theorem not_queued {w : Worklist} (coherent : w.Coherent) {n : NodeId} (absent : n ∉ w.pending) :
    w.queued.get n = false := by
  rw [← coherent.flagged n] at absent
  exact Bool.eq_false_iff.mpr absent

theorem push_coherent {w : Worklist} (coherent : w.Coherent) (n : NodeId) : (w.push n).Coherent := by
  cases queued : w.queued.get n with
  | true => rwa [push_of_queued queued]
  | false =>
    have absent : n ∉ w.pending := fun member => by
      simp [(coherent.flagged n).mpr member] at queued
    refine ⟨?_, fun m => ?_, ?_⟩
    · rw [pending_push queued, (place_perm absent).nodup_iff]
      exact List.nodup_cons.mpr ⟨absent, coherent.distinct⟩
    · rw [pending_push queued, mem_place, ← coherent.flagged m, queued_push queued, NodeMap.get_set]
      by_cases same : m = n <;> simp [same]
    · intro e member
      rw [rank_push]
      cases discipline : w.discipline with
      | reversePostorder =>
        simp only [push, queued, discipline, RankedSet.insert, Bool.false_eq_true, if_false,
          Ranked.mem_insert] at member
        rcases member with rfl | old
        · rfl
        · exact coherent.keyed e old
      | fifo | lifo =>
        simp only [push, queued, discipline, Bool.false_eq_true, if_false] at member
        exact coherent.keyed e member

theorem mem_push {w : Worklist} (coherent : w.Coherent) (n m : NodeId) :
    m ∈ (w.push n).pending ↔ m = n ∨ m ∈ w.pending := by
  cases queued : w.queued.get n with
  | true =>
    rw [push_of_queued queued]
    have member : n ∈ w.pending := (coherent.flagged n).mp queued
    constructor
    · exact Or.inr
    · rintro (rfl | pending)
      · exact member
      · exact pending
  | false => rw [pending_push queued, mem_place]

theorem pushAll_coherent {w : Worklist} (coherent : w.Coherent) (nodes : List NodeId) :
    (w.pushAll nodes).Coherent := by
  unfold pushAll
  induction nodes generalizing w with
  | nil => exact coherent
  | cons n rest ih => exact ih (push_coherent coherent n)

theorem mem_pushAll {w : Worklist} (coherent : w.Coherent) (nodes : List NodeId) (m : NodeId) :
    m ∈ (w.pushAll nodes).pending ↔ m ∈ nodes ∨ m ∈ w.pending := by
  unfold pushAll
  induction nodes generalizing w with
  | nil => simp
  | cons n rest ih =>
    rw [List.foldl_cons, ih (push_coherent coherent n), mem_push coherent, List.mem_cons]
    grind

/-! Pops. -/

/-- What one pop does: it takes the first of the pending nodes and clears its flag. -/
structure Pops (w : Worklist) (n : NodeId) (rest : Worklist) : Prop where
  pending : w.pending = n :: rest.pending
  queued : rest.queued = w.queued.set n false
  discipline : rest.discipline = w.discipline
  rank : rest.rank = w.rank
  ranked : ∀ e ∈ rest.ranked.entries, e ∈ w.ranked.entries

theorem pop_cases (w : Worklist) :
    (w.pop? = none ∧ w.pending = []) ∨ ∃ n rest, w.pop? = some (n, rest) ∧ w.Pops n rest := by
  obtain ⟨discipline, queued, queue, rank, ⟨entries, ascending⟩⟩ := w
  cases discipline with
  | reversePostorder =>
    cases entries with
    | nil => exact .inl ⟨rfl, rfl⟩
    | cons e rest => exact .inr ⟨e.node, _, rfl, rfl, rfl, rfl, rfl, fun _ => List.mem_cons_of_mem _⟩
  | fifo =>
    cases queue with
    | nil => exact .inl ⟨rfl, rfl⟩
    | cons n rest => exact .inr ⟨n, _, rfl, rfl, rfl, rfl, rfl, fun _ => id⟩
  | lifo =>
    rcases List.eq_nil_or_concat queue with rfl | ⟨rest, n, rfl⟩
    · exact .inl ⟨rfl, rfl⟩
    · refine .inr ⟨n, ⟨.lifo, queued.set n false, rest, rank, ⟨entries, ascending⟩⟩, ?_, ?_, rfl, rfl, rfl,
        fun _ => id⟩
      · simp [pop?]
      · simp [pending, stored]

theorem pops {w rest : Worklist} {n : NodeId} (popped : w.pop? = some (n, rest)) : w.Pops n rest := by
  rcases w.pop_cases with ⟨none, _⟩ | ⟨m, other, some, pops⟩
  · cases none.symm.trans popped
  · cases some.symm.trans popped
    exact pops

theorem pending_of_pop {w rest : Worklist} {n : NodeId} (popped : w.pop? = some (n, rest)) :
    w.pending = n :: rest.pending :=
  (pops popped).pending

theorem pop_eq_none_iff {w : Worklist} : w.pop? = none ↔ w.pending = [] := by
  rcases w.pop_cases with ⟨none, empty⟩ | ⟨n, rest, some, pops⟩
  · simp [none, empty]
  · simp [some, pops.pending]

/-- The first of the pending nodes can be taken. -/
theorem pop_of_pending {w : Worklist} {n : NodeId} {nodes : List NodeId} (pending : w.pending = n :: nodes) :
    ∃ rest, w.pop? = some (n, rest) ∧ rest.pending = nodes := by
  rcases w.pop_cases with ⟨_, empty⟩ | ⟨m, rest, some, pops⟩
  · cases empty.symm.trans pending
  · obtain ⟨rfl, same⟩ := List.cons.inj (pops.pending.symm.trans pending)
    exact ⟨rest, some, same⟩

theorem pop_coherent {w rest : Worklist} {n : NodeId} (coherent : w.Coherent)
    (popped : w.pop? = some (n, rest)) : rest.Coherent := by
  have pops := pops popped
  have distinct := coherent.distinct
  rw [pops.pending, List.nodup_cons] at distinct
  refine ⟨distinct.2, fun m => ?_, fun e member => ?_⟩
  · rw [pops.queued]
    by_cases same : m = n
    · subst same
      simpa using distinct.1
    · rw [NodeMap.get_set_of_ne _ _ same, coherent.flagged m, pops.pending]
      simp [same]
  · rw [pops.rank]
    exact coherent.keyed e (pops.ranked e member)

theorem seeded_coherent (discipline : Discipline) (order : List NodeId) :
    (seeded discipline order).Coherent :=
  pushAll_coherent (new_coherent discipline order) _

theorem mem_seeded (discipline : Discipline) (order : List NodeId) (n : NodeId) :
    n ∈ (seeded discipline order).pending ↔ n ∈ order := by
  unfold seeded
  rw [mem_pushAll (new_coherent discipline order)]
  cases discipline <;> simp

end Dataflow.Worklist
