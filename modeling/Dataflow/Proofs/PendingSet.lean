import Dataflow.Proofs.PendingOrder
import Mathlib.Data.List.Induction
import Mathlib.Data.Set.Insert

/-! The worklist as a set from which a discipline chooses. Along every history of pushes and pops the flags
stand for the set of pending nodes, each of which is listed once; a push inserts, and a pop removes the member
that the discipline is about: the first in the order of ranks, or the one whose stay began first or last. When
a stay began is read off the history: it is the last push that found the node absent. -/

namespace Dataflow.Worklist

/-- The set that the flags stand for. -/
def members (w : Worklist) : Set NodeId := {n | w.queued.get n = true}

/-- What is done to a worklist. -/
inductive Action where
  | push (n : NodeId)
  | pop
  deriving DecidableEq, Repr

/-- A pop from an empty worklist changes nothing. -/
def perform (w : Worklist) : Action → Worklist
  | .push n => w.push n
  | .pop => (w.pop?.map Prod.snd).getD w

/-- The worklist that a history leads to. -/
def after (discipline : Discipline) (order : List NodeId) (history : List Action) : Worklist :=
  history.foldl perform (new discipline order)

/-! What the disciplines go by. -/

/-- By rank, which is the place in `order`; nodes that are not listed share the place behind all others, and
are told apart by their identifiers. -/
def Precedes (order : List NodeId) (a b : NodeId) : Prop :=
  order.idxOf a < order.idxOf b ∨ order.idxOf a = order.idxOf b ∧ a.index < b.index

section

variable (discipline : Discipline) (order : List NodeId) (history : List Action)

/-- The action at `time` pushes a node that is not pending then. -/
def Enters (time : Nat) (n : NodeId) : Prop :=
  history[time]? = some (.push n) ∧ n ∉ (after discipline order (history.take time)).members

/-- The last push of the node that had an effect. -/
structure Entered (time : Nat) (n : NodeId) : Prop where
  enters : Enters discipline order history time n
  last : ∀ later, time < later → ¬Enters discipline order history later n

def Earlier (a b : NodeId) : Prop :=
  ∃ first second, Entered discipline order history first a ∧ Entered discipline order history second b ∧
    first < second

/-- Whether a pop has to return `a` rather than `b`. -/
def Ahead (a b : NodeId) : Prop :=
  match discipline with
  | .reversePostorder => Precedes order a b
  | .fifo => Earlier discipline order history a b
  | .lifo => Earlier discipline order history b a

end

variable {discipline : Discipline} {order : List NodeId} {history : List Action}

/-! Ranks. -/

theorem get_ranks_eq (distinct : order.Nodup) (n : NodeId) :
    (ranks order).get n = if n ∈ order then some (order.idxOf n) else none := by
  split
  · rename_i listed
    obtain ⟨before, rest, rfl, fresh⟩ := List.eq_append_cons_of_mem listed
    have once : n ∉ rest := (List.nodup_cons.mp (List.nodup_append.mp distinct).2.1).1
    rw [get_ranks once, List.idxOf_append_of_notMem fresh, List.idxOf_cons_self, Nat.add_zero]
  · rename_i unlisted
    have absent : n ∉ order.zipIdx.map Prod.fst := by rwa [List.zipIdx_map_fst]
    rw [ranks, get_ranked_of_not_mem _ absent, NodeMap.get_const]

theorem before_iff (distinct : order.Nodup) (a b : NodeId) :
    Ranked.before ⟨(ranks order).get a, a⟩ ⟨(ranks order).get b, b⟩ = true ↔ Precedes order a b := by
  have place (n : NodeId) : n ∈ order ∧ order.idxOf n < order.length ∨
      n ∉ order ∧ order.idxOf n = order.length := by
    by_cases listed : n ∈ order
    · exact .inl ⟨listed, List.idxOf_lt_length_of_mem listed⟩
    · exact .inr ⟨listed, List.idxOf_eq_length listed⟩
  unfold Ranked.before Precedes
  rw [get_ranks_eq distinct, get_ranks_eq distinct]
  rcases place a with ⟨inA, placeA⟩ | ⟨outA, placeA⟩ <;> rcases place b with ⟨inB, placeB⟩ | ⟨outB, placeB⟩
  · simp [inA, inB]
  · simp only [if_pos inA, if_neg outB, true_iff]
    omega
  · simp only [if_neg outA, if_pos inB, Bool.false_eq_true, false_iff]
    omega
  · simp only [if_neg outA, if_neg outB, decide_eq_true_eq]
    omega

/-- The set of a queue by rank is sorted by the keys it has the nodes under, which are their ranks. -/
theorem pending_ascending {w : Worklist} (coherent : w.Coherent) (byRank : w.discipline = .reversePostorder)
    (ranked : w.rank = ranks order) (distinct : order.Nodup) : w.pending.Pairwise (Precedes order) := by
  simp only [pending, stored, byRank]
  rw [List.pairwise_map]
  refine w.ranked.ascending.imp_of_mem fun {a b} memberA memberB ahead => ?_
  have keyA : a = ⟨(ranks order).get a.node, a.node⟩ := by rw [← ranked, ← coherent.keyed a memberA]
  have keyB : b = ⟨(ranks order).get b.node, b.node⟩ := by rw [← ranked, ← coherent.keyed b memberB]
  rw [keyA, keyB] at ahead
  exact (before_iff distinct a.node b.node).mp ahead

/-! Histories. -/

theorem after_append (history : List Action) (action : Action) :
    after discipline order (history ++ [action]) = (after discipline order history).perform action := by
  simp [after]

theorem perform_coherent {w : Worklist} (coherent : w.Coherent) (action : Action) :
    (w.perform action).Coherent := by
  cases action with
  | push n => exact push_coherent coherent n
  | pop =>
    cases popped : w.pop? with
    | none => simpa [perform, popped] using coherent
    | some taken => simpa [perform, popped] using pop_coherent coherent popped

theorem settings_perform (w : Worklist) (action : Action) :
    (w.perform action).discipline = w.discipline ∧ (w.perform action).rank = w.rank := by
  cases action with
  | push n => simp [perform]
  | pop =>
    rcases w.pop_cases with ⟨popped, _⟩ | ⟨n, rest, popped, pops⟩
    · simp [perform, popped]
    · simpa [perform, popped] using And.intro pops.discipline pops.rank

theorem after_coherent (discipline : Discipline) (order : List NodeId) (history : List Action) :
    (after discipline order history).Coherent := by
  induction history using List.reverseRecOn with
  | nil => exact new_coherent discipline order
  | append_singleton history action ih =>
    rw [after_append]
    exact perform_coherent ih action

theorem settings_after (discipline : Discipline) (order : List NodeId) (history : List Action) :
    (after discipline order history).discipline = discipline ∧
      (after discipline order history).rank = ranks order := by
  induction history using List.reverseRecOn with
  | nil => exact ⟨rfl, rfl⟩
  | append_singleton history action ih =>
    rw [after_append]
    have kept := settings_perform (after discipline order history) action
    exact ⟨kept.1.trans ih.1, kept.2.trans ih.2⟩

theorem mem_members {w : Worklist} (coherent : w.Coherent) {n : NodeId} : n ∈ w.members ↔ n ∈ w.pending :=
  coherent.flagged n

/-- One more action lets a node enter only if it pushes the node, and only now. -/
theorem enters_append {action : Action} {time : Nat} {n : NodeId} :
    Enters discipline order (history ++ [action]) time n ↔
      Enters discipline order history time n ∨
        time = history.length ∧ action = .push n ∧ n ∉ (after discipline order history).members := by
  unfold Enters
  rcases Nat.lt_trichotomy time history.length with early | rfl | late
  · rw [List.getElem?_append_left early, List.take_append_of_le_length (Nat.le_of_lt early)]
    simp [Nat.ne_of_lt early]
  · simp
  · rw [List.getElem?_eq_none (by simp; omega), List.getElem?_eq_none (by omega)]
    simp [Nat.ne_of_gt late]

theorem Enters.early {time : Nat} {n : NodeId} (enters : Enters discipline order history time n) :
    time < history.length :=
  (List.getElem?_eq_some_iff.mp enters.1).1

/-- Whatever is done, the stay of a pending node goes on. -/
theorem Entered.append {time : Nat} {n : NodeId} (entered : Entered discipline order history time n)
    (pending : n ∈ (after discipline order history).members) (action : Action) :
    Entered discipline order (history ++ [action]) time n where
  enters := enters_append.mpr (.inl entered.enters)
  last later after enters := by
    rcases enters_append.mp enters with old | ⟨_, _, absent⟩
    · exact entered.last later after old
    · exact absent pending

theorem entered_now {n : NodeId} (absent : n ∉ (after discipline order history).members) :
    Entered discipline order (history ++ [.push n]) history.length n where
  enters := enters_append.mpr (.inr ⟨rfl, rfl, absent⟩)
  last later after enters := by
    rcases enters_append.mp enters with old | ⟨now, _⟩
    · exact absurd old.early (Nat.not_lt.mpr (Nat.le_of_lt after))
    · exact absurd after (now ▸ Nat.lt_irrefl _)

theorem Ahead.append {a b : NodeId} (ahead : Ahead discipline order history a b)
    (pendingA : a ∈ (after discipline order history).members)
    (pendingB : b ∈ (after discipline order history).members) (action : Action) :
    Ahead discipline order (history ++ [action]) a b := by
  cases discipline with
  | reversePostorder => exact ahead
  | fifo =>
    obtain ⟨first, second, enteredA, enteredB, less⟩ := ahead
    exact ⟨first, second, enteredA.append pendingA action, enteredB.append pendingB action, less⟩
  | lifo =>
    obtain ⟨first, second, enteredB, enteredA, less⟩ := ahead
    exact ⟨first, second, enteredB.append pendingB action, enteredA.append pendingA action, less⟩

/-- The pending nodes stand in the order in which the discipline has to take them, and the stay of each of
them has a beginning. -/
structure Arranged (discipline : Discipline) (order : List NodeId) (history : List Action)
    (pending : List NodeId) : Prop where
  entered : ∀ n ∈ pending, ∃ time, Entered discipline order history time n
  ordered : pending.Pairwise (Ahead discipline order history)

/-- An action leaves the nodes that were pending arranged. -/
theorem Arranged.append {pending : List NodeId} (arranged : Arranged discipline order history pending)
    (members : ∀ n ∈ pending, n ∈ (after discipline order history).members) (action : Action) :
    Arranged discipline order (history ++ [action]) pending where
  entered n member := by
    obtain ⟨time, entered⟩ := arranged.entered n member
    exact ⟨time, entered.append (members n member) action⟩
  ordered := arranged.ordered.imp_of_mem fun memberA memberB ahead =>
    ahead.append (members _ memberA) (members _ memberB) action

theorem push_arranged (distinct : order.Nodup) {n : NodeId}
    (arranged : Arranged discipline order history (after discipline order history).pending)
    (absent : n ∉ (after discipline order history).members) :
    Arranged discipline order (history ++ [.push n]) ((after discipline order history).push n).pending := by
  have coherent := after_coherent discipline order history
  have settings := settings_after discipline order history
  have kept := arranged.append (fun m member => (mem_members coherent).mpr member) (.push n)
  have now := entered_now absent
  have unlisted : n ∉ (after discipline order history).pending := mt (mem_members coherent).mpr absent
  have placed := pending_push (not_queued coherent unlisted)
  have earlier (m : NodeId) (member : m ∈ (after discipline order history).pending) :
      Earlier discipline order (history ++ [.push n]) m n := by
    obtain ⟨time, entered⟩ := kept.entered m member
    refine ⟨time, history.length, entered, now, ?_⟩
    rcases enters_append.mp entered.enters with old | ⟨_, same, _⟩
    · exact old.early
    · cases same
      exact absurd member unlisted
  refine ⟨?_, ?_⟩
  · intro m member
    rcases (mem_push coherent n m).mp member with rfl | member
    · exact ⟨_, now⟩
    · exact kept.entered m member
  · cases discipline with
    | reversePostorder =>
      exact pending_ascending (push_coherent coherent n) (by simp [settings.1]) (by simp [settings.2]) distinct
    | fifo =>
      rw [placed, place, settings.1]
      refine List.pairwise_append.mpr ⟨kept.ordered, List.pairwise_singleton _ n, ?_⟩
      intro m member other last
      exact List.mem_singleton.mp last ▸ earlier m member
    | lifo =>
      rw [placed, place, settings.1]
      exact List.pairwise_cons.mpr ⟨earlier, kept.ordered⟩

theorem after_arranged (discipline : Discipline) (distinct : order.Nodup) (history : List Action) :
    Arranged discipline order history (after discipline order history).pending := by
  induction history using List.reverseRecOn with
  | nil => exact ⟨by simp [after], by simp [after]⟩
  | append_singleton history action ih =>
    have coherent := after_coherent discipline order history
    have kept := ih.append (fun m member => (mem_members coherent).mpr member) action
    rw [after_append]
    cases action with
    | push n =>
      cases queued : (after discipline order history).queued.get n with
      | true => rwa [perform, push_of_queued queued]
      | false =>
        exact push_arranged distinct ih (by simp [members, queued])
    | pop =>
      cases popped : (after discipline order history).pop? with
      | none => simpa [perform, popped] using kept
      | some taken =>
        have split := pending_of_pop popped
        rw [split] at kept
        have rest : ((after discipline order history).perform .pop).pending = taken.2.pending := by
          simp [perform, popped]
        rw [rest]
        exact ⟨fun m member => kept.entered m (List.mem_cons_of_mem _ member),
          (List.pairwise_cons.mp kept.ordered).2⟩

theorem members_push {w : Worklist} (coherent : w.Coherent) (n : NodeId) :
    (w.push n).members = insert n w.members := by
  ext m
  rw [Set.mem_insert_iff, mem_members (push_coherent coherent n), mem_members coherent, mem_push coherent]

theorem members_pop {w rest : Worklist} {n : NodeId} (coherent : w.Coherent)
    (popped : w.pop? = some (n, rest)) : n ∈ w.members ∧ rest.members = w.members \ {n} := by
  have split := pending_of_pop popped
  have fresh : n ∉ rest.pending := (List.nodup_cons.mp (split ▸ coherent.distinct)).1
  refine ⟨(mem_members coherent).mpr (split ▸ List.mem_cons_self), ?_⟩
  ext m
  rw [Set.mem_sdiff, Set.mem_singleton_iff, mem_members (pop_coherent coherent popped), mem_members coherent,
    split, List.mem_cons]
  constructor
  · intro later
    exact ⟨.inr later, fun same => fresh (same ▸ later)⟩
  · rintro ⟨rfl | later, differs⟩
    · contradiction
    · exact later

theorem pop_eq_none {w : Worklist} (coherent : w.Coherent) : w.pop? = none ↔ w.members = ∅ := by
  have empty : w.members = ∅ ↔ w.pending = [] := by
    rw [Set.eq_empty_iff_forall_notMem, List.eq_nil_iff_forall_not_mem]
    exact forall_congr' fun n => not_congr (mem_members coherent)
  rw [empty]
  exact pop_eq_none_iff

/-- After every history a node is flagged exactly if it is stored once, and else it is not stored; a push
inserts into the set of flagged nodes; a pop fails exactly if there is none, and otherwise removes the one that
is ahead of all others. -/
theorem after_refines_set (discipline : Discipline) {order : List NodeId} (distinct : order.Nodup)
    (history : List Action) :
    let w := after discipline order history
    (∀ n, w.stored.count n ≤ 1 ∧ (w.queued.get n = true ↔ w.stored.count n = 1)) ∧
    (∀ n ∈ w.members, ∃ time, Entered discipline order history time n) ∧
    (∀ n, (w.push n).members = insert n w.members) ∧
    (w.pop? = none ↔ w.members = ∅) ∧
    ∀ n rest, w.pop? = some (n, rest) → n ∈ w.members ∧ rest.members = w.members \ {n} ∧
      ∀ m ∈ w.members, m ≠ n → Ahead discipline order history n m := by
  intro w
  have coherent : w.Coherent := after_coherent discipline order history
  have arranged : Arranged discipline order history w.pending := after_arranged discipline distinct history
  refine ⟨fun n => ⟨?_, ?_⟩, ?_, members_push coherent, pop_eq_none coherent, ?_⟩
  · rw [← w.pending_perm.count_eq]
    exact List.nodup_iff_count_le_one.mp coherent.distinct n
  · rw [coherent.flagged, ← w.pending_perm.count_eq]
    exact ⟨List.count_eq_one_of_mem coherent.distinct, fun once => List.count_pos_iff.mp (by omega)⟩
  · exact fun n member => arranged.entered n ((mem_members coherent).mp member)
  · intro n rest popped
    obtain ⟨member, removed⟩ := members_pop coherent popped
    refine ⟨member, removed, fun m other differs => ?_⟩
    -- The node that is taken stands in front, and the list is in the order of the discipline.
    have front := arranged.ordered
    rw [pending_of_pop popped] at front
    have listed : m ∈ w.pending := (mem_members coherent).mp other
    rw [pending_of_pop popped] at listed
    exact (List.pairwise_cons.mp front).1 m ((List.mem_cons.mp listed).resolve_left differs)

/-- Node 3 is pushed, found pending, taken if it is the oldest or the first by rank, and pushed again. -/
def bounced : List Action := [.push ⟨3⟩, .push ⟨1⟩, .push ⟨3⟩, .pop, .push ⟨3⟩]

/-- A queue by age has node 1 in front then, because the second stay of node 3 counts; by rank it is node 3. -/
theorem after_refines_set_bounced :
    (∃ rest, (after .fifo [⟨3⟩, ⟨1⟩] bounced).pop? = some (⟨1⟩, rest) ∧
      ⟨3⟩ ∈ rest.members ∧ Earlier .fifo [⟨3⟩, ⟨1⟩] bounced ⟨1⟩ ⟨3⟩) ∧
    ∃ rest, (after .reversePostorder [⟨3⟩, ⟨1⟩] bounced).pop? = some (⟨3⟩, rest) ∧
      Precedes [⟨3⟩, ⟨1⟩] ⟨3⟩ ⟨1⟩ := by
  have distinct : ([⟨3⟩, ⟨1⟩] : List NodeId).Nodup := by decide
  have taken (discipline : Discipline) (n : NodeId)
      (front : ((after discipline [⟨3⟩, ⟨1⟩] bounced).pop?.map Prod.fst) = some n) :
      ∃ rest, (after discipline [⟨3⟩, ⟨1⟩] bounced).pop? = some (n, rest) := by
    obtain ⟨⟨_, rest⟩, popped, rfl⟩ := Option.map_eq_some_iff.mp front
    exact ⟨rest, popped⟩
  constructor
  · obtain ⟨rest, popped⟩ := taken .fifo ⟨1⟩ (by decide)
    obtain ⟨_, _, _, _, chooses⟩ := after_refines_set .fifo distinct bounced
    obtain ⟨_, removed, ahead⟩ := chooses ⟨1⟩ rest popped
    have waiting : ⟨3⟩ ∈ (after .fifo [⟨3⟩, ⟨1⟩] bounced).members :=
      show (after .fifo [⟨3⟩, ⟨1⟩] bounced).queued.get ⟨3⟩ = true by decide
    exact ⟨rest, popped, removed ▸ ⟨waiting, by decide⟩, ahead ⟨3⟩ waiting (by decide)⟩
  · obtain ⟨rest, popped⟩ := taken .reversePostorder ⟨3⟩ (by decide)
    obtain ⟨_, _, _, _, chooses⟩ := after_refines_set .reversePostorder distinct bounced
    obtain ⟨_, _, ahead⟩ := chooses ⟨3⟩ rest popped
    have waiting : ⟨1⟩ ∈ (after .reversePostorder [⟨3⟩, ⟨1⟩] bounced).members :=
      show (after .reversePostorder [⟨3⟩, ⟨1⟩] bounced).queued.get ⟨1⟩ = true by decide
    exact ⟨rest, popped, ahead ⟨1⟩ waiting (by decide)⟩

end Dataflow.Worklist
