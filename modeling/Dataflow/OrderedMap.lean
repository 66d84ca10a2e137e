/-!
Finite maps that remember insertion order. Storing under a present key keeps the key's position;
erasing a key keeps the order of the others. The view is `get?` together with `keys`.
-/

namespace Dataflow

structure OrderedMap (κ ν : Type) where
  entries : List (κ × ν)
  distinct : (entries.map Prod.fst).Nodup

namespace OrderedMap

variable {κ ν μ : Type}

instance [DecidableEq κ] [DecidableEq ν] : DecidableEq (OrderedMap κ ν) := fun a b =>
  if same : a.entries = b.entries then
    isTrue (by cases a; cases b; simp_all)
  else
    isFalse (fun h => same (by rw [h]))

theorem ext {a b : OrderedMap κ ν} (same : a.entries = b.entries) : a = b := by
  cases a; cases b; simp_all

def empty : OrderedMap κ ν := ⟨[], by simp⟩

def keys (m : OrderedMap κ ν) : List κ := m.entries.map Prod.fst

def values (m : OrderedMap κ ν) : List ν := m.entries.map Prod.snd

def isEmpty (m : OrderedMap κ ν) : Bool := m.entries.isEmpty

def size (m : OrderedMap κ ν) : Nat := m.entries.length

def map (f : ν → μ) (m : OrderedMap κ ν) : OrderedMap κ μ where
  entries := m.entries.map fun e => (e.1, f e.2)
  distinct := by simpa [Function.comp_def] using m.distinct

@[simp] theorem keys_empty : (empty : OrderedMap κ ν).keys = [] := rfl

/-- A function that changes none of the values changes nothing. -/
theorem map_of_fixed {f : ν → ν} {m : OrderedMap κ ν} (fixed : ∀ e ∈ m.entries, f e.2 = e.2) : m.map f = m := by
  have same (e : κ × ν) (member : e ∈ m.entries) : (e.1, f e.2) = e := by rw [fixed e member]
  exact ext ((List.map_congr_left same).trans (List.map_id _))

@[simp] theorem keys_map (f : ν → μ) (m : OrderedMap κ ν) : (m.map f).keys = m.keys := by
  simp [keys, map, Function.comp_def]

variable [DecidableEq κ]

def get? (m : OrderedMap κ ν) (k : κ) : Option ν :=
  (m.entries.find? fun e => decide (e.1 = k)).map Prod.snd

def contains (m : OrderedMap κ ν) (k : κ) : Bool := m.keys.contains k

theorem keys_replace (l : List (κ × ν)) (k : κ) (v : ν) :
    (l.map fun e => if e.1 = k then (k, v) else e).map Prod.fst = l.map Prod.fst := by
  induction l with
  | nil => rfl
  | cons e l ih =>
    simp only [List.map_cons, ih]
    split <;> simp_all

/-- Replaces the value in place when `k` is present and appends the pair otherwise. -/
def insert (m : OrderedMap κ ν) (k : κ) (v : ν) : OrderedMap κ ν :=
  if present : k ∈ m.entries.map Prod.fst then
    ⟨m.entries.map fun e => if e.1 = k then (k, v) else e, by
      rw [keys_replace]; exact m.distinct⟩
  else
    ⟨m.entries ++ [(k, v)], by
      simp only [List.map_append, List.map_cons, List.map_nil]
      refine List.nodup_append.mpr ⟨m.distinct, by simp, ?_⟩
      intro a ha b hb same
      simp only [List.mem_cons, List.not_mem_nil, or_false] at hb
      subst hb; subst same
      exact present ha⟩

def erase (m : OrderedMap κ ν) (k : κ) : OrderedMap κ ν where
  entries := m.entries.filter fun e => decide (e.1 ≠ k)
  distinct := m.distinct.sublist (List.filter_sublist.map Prod.fst)

/-- Stores the pairs one after the other: a later value wins, an earlier position stays. -/
def ofList (pairs : List (κ × ν)) : OrderedMap κ ν :=
  pairs.foldl (fun m e => m.insert e.1 e.2) empty

theorem nodup_eraseDups (ks : List κ) : ks.eraseDups.Nodup := by
  match ks with
  | [] => simp
  | k :: rest =>
    rw [List.eraseDups_cons]
    refine List.nodup_cons.mpr ⟨by simp, nodup_eraseDups _⟩
termination_by ks.length
decreasing_by
  simp only [List.length_cons]
  exact Nat.lt_succ_of_le (List.length_filter_le _ _)

/-- One entry per distinct key, in order of first occurrence. -/
def ofKeys (ks : List κ) (value : κ → ν) : OrderedMap κ ν where
  entries := ks.eraseDups.map fun k => (k, value k)
  distinct := by simpa [Function.comp_def] using nodup_eraseDups ks

@[simp] theorem get?_empty (k : κ) : (empty : OrderedMap κ ν).get? k = none := rfl

@[simp] theorem get?_map (f : ν → μ) (m : OrderedMap κ ν) (k : κ) :
    (m.map f).get? k = (m.get? k).map f := by
  simp only [get?, map, List.find?_map, Option.map_map, Function.comp_def]

theorem get?_isSome_iff (m : OrderedMap κ ν) (k : κ) : (m.get? k).isSome ↔ k ∈ m.keys := by
  simp [get?, keys]

theorem get?_eq_none_iff (m : OrderedMap κ ν) (k : κ) : m.get? k = none ↔ k ∉ m.keys := by
  rw [← get?_isSome_iff]
  cases m.get? k <;> simp

/-- No key has two entries, so an entry is what its key is mapped to. -/
theorem get?_of_mem {m : OrderedMap κ ν} {k : κ} {v : ν} (member : (k, v) ∈ m.entries) :
    m.get? k = some v := by
  have found (l : List (κ × ν)) (distinct : (l.map Prod.fst).Nodup) (member : (k, v) ∈ l) :
      (l.find? fun e => decide (e.1 = k)) = some (k, v) := by
    induction l with
    | nil => contradiction
    | cons e l ih =>
      obtain ⟨fresh, later⟩ := List.nodup_cons.mp distinct
      rcases List.mem_cons.mp member with rfl | tail
      · simp
      · have other : e.1 ≠ k := fun same => fresh (same ▸ List.mem_map_of_mem tail)
        simpa [other] using ih later tail
  simp [get?, found m.entries m.distinct member]

theorem keys_insert (m : OrderedMap κ ν) (k : κ) (v : ν) :
    (m.insert k v).keys = if k ∈ m.keys then m.keys else m.keys ++ [k] := by
  unfold insert keys
  split
  · exact keys_replace m.entries k v
  · simp

theorem mem_keys_insert (m : OrderedMap κ ν) (k j : κ) (v : ν) :
    j ∈ (m.insert k v).keys ↔ j = k ∨ j ∈ m.keys := by
  rw [keys_insert]
  split <;> grind

theorem find?_replace_self (l : List (κ × ν)) (k : κ) (v : ν) (present : k ∈ l.map Prod.fst) :
    ((l.map fun e => if e.1 = k then (k, v) else e).find? fun e => decide (e.1 = k)) =
      some (k, v) := by
  induction l with
  | nil => simp at present
  | cons e l ih =>
    by_cases here : e.1 = k
    · simp [here]
    · have tail : k ∈ l.map Prod.fst := by grind
      simpa [here] using ih tail

theorem find?_replace_of_ne (l : List (κ × ν)) {k j : κ} (v : ν) (other : j ≠ k) :
    ((l.map fun e => if e.1 = k then (k, v) else e).find? fun e => decide (e.1 = j)) =
      l.find? fun e => decide (e.1 = j) := by
  induction l with
  | nil => rfl
  | cons e l ih =>
    by_cases here : e.1 = k
    · have off : ¬ k = j := fun h => other h.symm
      simp [here, off, ih]
    · by_cases found : e.1 = j <;> simp_all

theorem get?_insert (m : OrderedMap κ ν) (k j : κ) (v : ν) :
    (m.insert k v).get? j = if j = k then some v else m.get? j := by
  unfold insert get?
  split
  next present =>
    by_cases same : j = k
    · subst same
      simp [find?_replace_self m.entries j v present]
    · simp [find?_replace_of_ne m.entries v same, same]
  next absent =>
    by_cases same : j = k
    · subst same
      have none : (m.entries.find? fun e => decide (e.1 = j)) = none := by
        simp only [List.find?_eq_none, decide_eq_true_eq]
        intro e member found
        exact absent (found ▸ List.mem_map_of_mem member)
      simp [List.find?_append, none]
    · have off : ¬ k = j := fun h => same h.symm
      simp [List.find?_append, same, off]

@[simp] theorem keys_ofKeys (ks : List κ) (value : κ → ν) :
    (ofKeys ks value).keys = ks.eraseDups := by
  simp [keys, ofKeys, Function.comp_def]

theorem get?_ofKeys (ks : List κ) (value : κ → ν) (k : κ) :
    (ofKeys ks value).get? k = if k ∈ ks then some (value k) else none := by
  have distinct : k ∈ ks ↔ k ∈ ks.eraseDups := List.mem_eraseDups.symm
  simp only [distinct, get?, ofKeys, List.find?_map, Option.map_map, Function.comp_def]
  induction ks.eraseDups with
  | nil => rfl
  | cons j l ih =>
    by_cases here : j = k
    · simp [here]
    · simpa [here, Ne.symm here] using ih

end OrderedMap

end Dataflow
