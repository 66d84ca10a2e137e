import Dataflow.Proofs.Stability
import Dataflow.Session
import Mathlib.Data.List.Induction

/-! The cache of a session, along every history of its scene. What is remembered is always the solution
under the configuration given last, as a run that nothing cancels finds it: a token can keep a run from
finding a solution but cannot change the one it finds. The history is read off the list of events alone. -/

namespace Dataflow

variable {I α ε : Type}

namespace Analysis

/-- A turn that is not cancelled does not depend on the signal. -/
theorem turn_never {a : Analysis I α ε} {g : Graph I} {limit : Nat} {signal : Signal} {s : Run α}
    (heard : a.turn g limit signal s ≠ .cancelled) :
    a.turn g limit .never s = a.turn g limit signal s := by
  unfold turn at heard ⊢
  by_cases cancelled : signal s.iterations = true
  · rw [if_pos cancelled] at heard
    contradiction
  · rw [if_neg cancelled]
    rfl

theorem runWithin_never {a : Analysis I α ε} {g : Graph I} {limit : Nat} {signal : Signal} {turns : Nat}
    {s : Run α} {r : Solution α} (ended : a.runWithin g limit signal turns s = some (.ok r)) :
    a.runWithin g limit .never turns s = some (.ok r) := by
  induction turns generalizing s with
  | zero => contradiction
  | succ turns ih =>
    rw [runWithin] at ended ⊢
    cases outcome : a.turn g limit signal s with
    | cancelled => simp [outcome] at ended
    | finished =>
      have heard : a.turn g limit signal s ≠ .cancelled := by simp [outcome]
      rw [turn_never heard, outcome]
      rwa [outcome] at ended
    | failed n failure => simp [outcome] at ended
    | visited n next =>
      have heard : a.turn g limit signal s ≠ .cancelled := by simp [outcome]
      rw [turn_never heard, outcome]
      rw [outcome] at ended
      exact ih ended

/-- A solution found under any signal is the one found without. -/
theorem solve_never {a : Analysis I α ε} {g : Graph I} {config : SolverConfig} {signal : Signal}
    {r : Solution α} (solved : a.solve g config signal = .ok r) : a.solve g config .never = .ok r := by
  unfold solve at solved ⊢
  split at solved
  · contradiction
  · cases ended : a.runWithin g config.maxVisits signal (a.turnBound g config.maxVisits)
      (a.begin g config.order) with
    | none => simp [ended] at solved
    | some outcome =>
      rw [ended, Option.getD_some] at solved
      rw [runWithin_never (solved ▸ ended), Option.getD_some]

end Analysis

namespace Event

def config? : Event → Option SolverConfig
  | .configure config => some config
  | _ => none

def token? : Event → Option Token
  | .attach token => some token
  | _ => none

/-- The tokens tripped by the event. -/
def trips : Event → List Token
  | .trip token => [token]
  | .ask _ meanwhile => meanwhile.map Prod.snd
  | _ => []

/-- Whether a remembered solution outlives the event. -/
def keeps : Event → Bool
  | .configure _ | .invalidate => false
  | .attach _ | .trip _ | .ask _ _ => true

end Event

/-! What a history comes to, whatever the session makes of it. -/

/-- The configuration given last. -/
def configAfter (events : List Event) : SolverConfig :=
  (events.filterMap Event.config?).getLast?.getD .standard

/-- The token attached last. -/
def tokenAfter (events : List Event) : Option Token := (events.filterMap Event.token?).getLast?

def trippedAfter (events : List Event) : List Token := events.flatMap Event.trips

/-- What a run hears that a question starts after some events: whether the token attached last has been
tripped, before the question or meanwhile. -/
def heardAfter (events : List Event) (meanwhile : List (Nat × Token)) : Signal := fun poll =>
  match tokenAfter events with
  | none => false
  | some token => decide (token ∈ trippedAfter events ∨ ∃ trip ∈ meanwhile, trip.2 = token ∧ trip.1 ≤ poll)

theorem configAfter_append (events : List Event) (e : Event) :
    configAfter (events ++ [e]) = e.config?.getD (configAfter events) := by
  cases e <;> simp [configAfter, Event.config?]

theorem tokenAfter_append (events : List Event) (e : Event) :
    tokenAfter (events ++ [e]) = e.token?.or (tokenAfter events) := by
  cases e <;> simp [tokenAfter, Event.token?]

theorem mem_trippedAfter_append (events : List Event) (e : Event) (token : Token) :
    token ∈ trippedAfter (events ++ [e]) ↔ token ∈ e.trips ∨ token ∈ trippedAfter events := by
  simp [trippedAfter, or_comm]

/-! The answers that a solution has, read off its facts. -/

namespace Solution

/-- What a solution shows of a node on the side where values that flow in the given direction come in: before
the node for `forward`, after it for `backward`. A node without facts shows nothing. In a solution that flows
the given way it is the incoming value, without labels, and otherwise what leaves the node, label by label. All
values are handed out as copies. -/
inductive Shows (ops : LatticeOps α) (r : Solution α) (side : Direction) (n : NodeId) :
    Option (Labeled α) → Prop where
  | unreached : r.facts.get n = none → Shows ops r side n none
  | incoming {f : Facts α} : r.facts.get n = some f → r.direction = side →
      Shows ops r side n (some (.single (ops.copy f.incoming)))
  | outgoing {f : Facts α} {shown : Labeled α} : r.facts.get n = some f → r.direction ≠ side →
      shown.base = ops.copy f.outgoing.base → shown.overrides.keys = f.outgoing.overrides.keys →
      (∀ label, shown.get label = ops.copy (f.outgoing.get label)) → Shows ops r side n (some shown)

/-- One value for a labelled one: a copy of the base value if no label is stored, and otherwise the values of
the stored labels, joined in their order from a copy of the first on. -/
def Joined (ops : LatticeOps α) (shown : Labeled α) (value : α) : Prop :=
  (shown.overrides.keys = [] → value = ops.copy shown.base) ∧
  ∀ first rest, shown.overrides.keys = first :: rest →
    value = (rest.map shown.get).foldl ops.join (ops.copy (shown.get first))

/-- What a solution has to tell when asked. The start is the state after the first node and the end the state
before the last. -/
inductive Tells (ops : LatticeOps α) (r : Solution α) : Query → Answer α → Prop where
  | solution : Tells ops r .solution (.solution r)
  | labeledBefore {n : NodeId} {shown : Option (Labeled α)} : r.Shows ops .forward n shown →
      Tells ops r (.labeledBefore n) (.labeled shown)
  | labeledAfter {n : NodeId} {shown : Option (Labeled α)} : r.Shows ops .backward n shown →
      Tells ops r (.labeledAfter n) (.labeled shown)
  | before {n : NodeId} {shown : Option (Labeled α)} {state : Option α} : r.Shows ops .forward n shown →
      Option.Rel (Joined ops) shown state → Tells ops r (.before n) (.state state)
  | after {n : NodeId} {shown : Option (Labeled α)} {state : Option α} : r.Shows ops .backward n shown →
      Option.Rel (Joined ops) shown state → Tells ops r (.after n) (.state state)
  | atStart {shown : Option (Labeled α)} {state : Option α} : r.Shows ops .backward .start shown →
      Option.Rel (Joined ops) shown state → Tells ops r .atStart (.state state)
  | atEnd {shown : Option (Labeled α)} {state : Option α} : r.Shows ops .forward .finish shown →
      Option.Rel (Joined ops) shown state → Tells ops r .atEnd (.state state)

theorem shows_facts (ops : LatticeOps α) (r : Solution α) (side : Direction) (n : NodeId) :
    r.Shows ops side n ((r.facts.get n).map fun f =>
      if r.direction = side then .single (ops.copy f.incoming) else f.outgoing.map ops.copy) := by
  cases stored : r.facts.get n with
  | none => exact .unreached stored
  | some f =>
    rw [Option.map_some]
    split
    · rename_i towards
      exact .incoming stored towards
    · rename_i away
      exact .outgoing stored away rfl (OrderedMap.keys_map _ _) (Labeled.get_map _ _)

theorem labeledBefore_shows (ops : LatticeOps α) (r : Solution α) (n : NodeId) :
    r.Shows ops .forward n (r.labeledBefore ops n) := by
  have shows := shows_facts ops r .forward n
  cases direction : r.direction <;> simpa [labeledBefore, direction] using shows

theorem labeledAfter_shows (ops : LatticeOps α) (r : Solution α) (n : NodeId) :
    r.Shows ops .backward n (r.labeledAfter ops n) := by
  have shows := shows_facts ops r .backward n
  cases direction : r.direction <;> simpa [labeledAfter, direction] using shows

theorem collapse_joined (ops : LatticeOps α) (shown : Labeled α) : Joined ops shown (shown.collapse ops) := by
  rw [Joined, Labeled.collapse, Labeled.values_eq]
  constructor
  · intro none
    rw [none]
    rfl
  · intro first rest keys
    rw [keys]
    rfl

theorem map_collapse_joined (ops : LatticeOps α) (shown : Option (Labeled α)) :
    Option.Rel (Joined ops) shown (shown.map (Labeled.collapse ops)) := by
  cases shown with
  | none => exact .none
  | some shown => exact .some (collapse_joined ops shown)

theorem answer_tells (ops : LatticeOps α) (r : Solution α) (query : Query) :
    r.Tells ops query (query.answer ops r) := by
  cases query with
  | solution => exact .solution
  | labeledBefore n => exact .labeledBefore (labeledBefore_shows ops r n)
  | labeledAfter n => exact .labeledAfter (labeledAfter_shows ops r n)
  | before n => exact .before (labeledBefore_shows ops r n) (map_collapse_joined ops _)
  | after n => exact .after (labeledAfter_shows ops r n) (map_collapse_joined ops _)
  | atStart => exact .atStart (labeledAfter_shows ops r .start) (map_collapse_joined ops _)
  | atEnd => exact .atEnd (labeledBefore_shows ops r .finish) (map_collapse_joined ops _)

end Solution

namespace Session

/-- Everything that solving a session can do: it comes to the solution remembered or found, which is remembered
then, or it hands on the failure of the run and leaves the session as it was. -/
theorem solve_cases (s : Session I α ε) (signals : Token → Signal) :
    (∃ r, (s.cache = some r ∨
        s.cache = none ∧ s.analysis.solve s.graph s.config (s.heard signals) = .ok r) ∧
      s.solve signals = ({ s with cache := some r }, .ok r)) ∨
    (∃ failure, s.cache = none ∧
      s.analysis.solve s.graph s.config (s.heard signals) = .error failure ∧
      s.solve signals = (s, .error failure)) := by
  cases remembered : s.cache with
  | some r =>
    have same : { s with cache := some r } = s := by rw [← remembered]
    exact .inl ⟨r, .inl rfl, by simp [solve, remembered, same]⟩
  | none =>
    cases outcome : s.analysis.solve s.graph s.config (s.heard signals) with
    | ok r => exact .inl ⟨r, .inr ⟨rfl, rfl⟩, by simp [solve, remembered, outcome]⟩
    | error failure => exact .inr ⟨failure, rfl, rfl, by simp [solve, remembered, outcome]⟩

end Session

namespace Scene

/-- Apart from the cache, an event changes a scene by what it gives. -/
theorem perform_settings (s : Scene I α ε) (e : Event) :
    (s.perform e).session.graph = s.session.graph ∧
    (s.perform e).session.analysis = s.session.analysis ∧
    (s.perform e).session.config = e.config?.getD s.session.config ∧
    (s.perform e).session.token = e.token?.or s.session.token ∧
    (s.perform e).tripped = e.trips ++ s.tripped := by
  cases e with
  | configure | attach | invalidate | trip => exact ⟨rfl, rfl, rfl, rfl, rfl⟩
  | ask query meanwhile =>
    rcases s.session.solve_cases (s.signals meanwhile) with ⟨r, _, solved⟩ | ⟨failure, _, _, solved⟩
    · simp [perform, ask, Session.ask, solved, Event.config?, Event.token?, Event.trips]
    · simp [perform, ask, Session.ask, solved, Event.config?, Event.token?, Event.trips]

/-- What a scene has made of its history. -/
structure Coherent (g : Graph I) (a : Analysis I α ε) (events : List Event) (s : Scene I α ε) : Prop where
  graph : s.session.graph = g
  analysis : s.session.analysis = a
  config : s.session.config = configAfter events
  token : s.session.token = tokenAfter events
  tripped : ∀ token, token ∈ s.tripped ↔ token ∈ trippedAfter events
  cached : ∀ r, s.session.cache = some r → a.solve g (configAfter events) .never = .ok r

variable {g : Graph I} {a : Analysis I α ε} {events : List Event} {s : Scene I α ε}

theorem new_coherent (g : Graph I) (a : Analysis I α ε) : Coherent g a [] (new g a) where
  graph := rfl
  analysis := rfl
  config := rfl
  token := rfl
  tripped := by simp [new, trippedAfter]
  cached := by simp [new, Session.new]

theorem Coherent.heard (coherent : Coherent g a events s) (meanwhile : List (Nat × Token)) :
    s.session.heard (s.signals meanwhile) = heardAfter events meanwhile := by
  funext poll
  unfold Session.heard heardAfter
  rw [coherent.token]
  cases tokenAfter events with
  | none => rfl
  | some token =>
    rw [Bool.eq_iff_iff]
    simp [signals, coherent.tripped token]

/-- Solving the session comes to the solution under the configuration given last, or to the failure of a run. -/
theorem Coherent.solve_cases (coherent : Coherent g a events s) (meanwhile : List (Nat × Token)) :
    (∃ r, a.solve g (configAfter events) .never = .ok r ∧
      s.session.solve (s.signals meanwhile) = ({ s.session with cache := some r }, .ok r)) ∨
    (∃ failure, a.solve g (configAfter events) (heardAfter events meanwhile) = .error failure ∧
      s.session.cache = none ∧ s.session.solve (s.signals meanwhile) = (s.session, .error failure)) := by
  have cases := s.session.solve_cases (s.signals meanwhile)
  rw [coherent.heard, coherent.graph, coherent.config] at cases
  rcases cases with ⟨r, known, solved⟩ | ⟨failure, empty, failed, solved⟩
  · rw [coherent.analysis] at known
    refine .inl ⟨r, ?_, by simpa [coherent.graph, coherent.config] using solved⟩
    rcases known with remembered | ⟨_, found⟩
    · exact coherent.cached r remembered
    · exact Analysis.solve_never found
  · rw [coherent.analysis] at failed
    exact .inr ⟨failure, failed, empty, solved⟩

/-- A question answers from the solution under the configuration given last and remembers it, or it hands
on the failure of the run that it started. -/
theorem Coherent.ask_cases (coherent : Coherent g a events s) (query : Query)
    (meanwhile : List (Nat × Token)) :
    (∃ r, a.solve g (configAfter events) .never = .ok r ∧
      (s.ask query meanwhile).1.session.cache = some r ∧
      (s.ask query meanwhile).2 = .ok (query.answer a.ops r)) ∨
    (∃ failure, a.solve g (configAfter events) (heardAfter events meanwhile) = .error failure ∧
      (s.ask query meanwhile).1.session.cache = none ∧
      (s.ask query meanwhile).2 = .error failure) := by
  rcases coherent.solve_cases meanwhile with ⟨r, solved, told⟩ | ⟨failure, failed, empty, told⟩
  · refine .inl ⟨r, solved, ?_, ?_⟩
    · simp [ask, Session.ask, told]
    · simp [ask, Session.ask, told, coherent.analysis]
  · refine .inr ⟨failure, failed, ?_, ?_⟩
    · simp [ask, Session.ask, told, empty]
    · simp [ask, Session.ask, told]

theorem perform_coherent (coherent : Coherent g a events s) (e : Event) :
    Coherent g a (events ++ [e]) (s.perform e) := by
  obtain ⟨graph, analysis, config, token, tripped⟩ := s.perform_settings e
  refine ⟨graph.trans coherent.graph, analysis.trans coherent.analysis, ?_, ?_, ?_, ?_⟩
  · rw [config, coherent.config, configAfter_append]
  · rw [token, coherent.token, tokenAfter_append]
  · intro t
    rw [tripped, List.mem_append, coherent.tripped, mem_trippedAfter_append]
  · rw [configAfter_append]
    cases e with
    | configure | invalidate => rintro r ⟨⟩
    | attach | trip => exact coherent.cached
    | ask query meanwhile =>
      intro r stored
      rcases coherent.ask_cases query meanwhile with ⟨found, solved, remembered, _⟩ | ⟨_, _, empty, _⟩
      · cases remembered.symm.trans stored
        exact solved
      · cases empty.symm.trans stored

theorem performAll_coherent (g : Graph I) (a : Analysis I α ε) (events : List Event) :
    Coherent g a events ((new g a).performAll events) := by
  induction events using List.reverseRecOn with
  | nil => exact new_coherent g a
  | append_singleton events e ih =>
    rw [performAll, List.foldl_append]
    exact perform_coherent ih e

theorem ask_remembered {r : Solution α} (remembered : s.session.cache = some r) (query : Query)
    (meanwhile : List (Nat × Token)) :
    (s.ask query meanwhile).1.session.cache = some r ∧
      (s.ask query meanwhile).2 = .ok (query.answer s.session.analysis.ops r) := by
  simp [ask, Session.ask, Session.solve, remembered]

/-- Until it is configured or invalidated, a scene keeps its solution. -/
theorem performAll_keeps {r : Solution α} (s : Scene I α ε) (remembered : s.session.cache = some r)
    {later : List Event} (keeps : ∀ e ∈ later, e.keeps = true) :
    (s.performAll later).session.cache = some r := by
  induction later generalizing s with
  | nil => exact remembered
  | cons e later ih =>
    refine ih _ ?_ fun e' member => keeps e' (List.mem_cons_of_mem _ member)
    have kept := keeps e List.mem_cons_self
    cases e with
    | configure | invalidate => cases kept
    | attach | trip => exact remembered
    | ask query meanwhile => exact (ask_remembered remembered query meanwhile).1

/-- What the session of a scene owes to its history: it remembers nothing but the solution under the
configuration given last, answers what that has to tell or hands on the failure of its run, and stands by one
answer to every question whatever is tripped or attached or asked. -/
structure Answers (g : Graph I) (a : Analysis I α ε) (events : List Event) (s : Scene I α ε) : Prop where
  cached : ∀ r, s.session.cache = some r → a.solve g (configAfter events) .never = .ok r
  answered : ∀ query meanwhile answer, (s.ask query meanwhile).2 = .ok answer →
    ∃ r, a.solve g (configAfter events) .never = .ok r ∧ r.Tells a.ops query answer ∧
      (s.ask query meanwhile).1.session.cache = some r
  refused : ∀ query meanwhile failure, (s.ask query meanwhile).2 = .error failure →
    a.solve g (configAfter events) (heardAfter events meanwhile) = .error failure ∧
      (s.ask query meanwhile).1.session.cache = none
  lasting : ∀ r, s.session.cache = some r → ∀ query, ∃ answer, r.Tells a.ops query answer ∧
    ∀ later, (∀ e ∈ later, e.keeps = true) → ∀ meanwhile,
      ((s.performAll later).ask query meanwhile).2 = .ok answer

theorem performAll_answers (g : Graph I) (a : Analysis I α ε) (events : List Event) :
    Answers g a events ((new g a).performAll events) := by
  have coherent := performAll_coherent g a events
  constructor
  · exact coherent.cached
  · intro query meanwhile answer answered
    rcases coherent.ask_cases query meanwhile with ⟨r, solved, remembered, told⟩ | ⟨_, _, _, refused⟩
    · cases told.symm.trans answered
      exact ⟨r, solved, r.answer_tells a.ops query, remembered⟩
    · cases refused.symm.trans answered
  · intro query meanwhile failure refused
    rcases coherent.ask_cases query meanwhile with ⟨_, _, _, told⟩ | ⟨_, failed, empty, told⟩
    · cases told.symm.trans refused
    · cases told.symm.trans refused
      exact ⟨failed, empty⟩
  · intro r remembered query
    refine ⟨_, r.answer_tells a.ops query, fun later keeps meanwhile => ?_⟩
    have told := (ask_remembered (performAll_keeps _ remembered keeps) query meanwhile).2
    -- The two histories make one, along which the analysis stays the same.
    have joined : ((new g a).performAll events).performAll later = (new g a).performAll (events ++ later) :=
      List.foldl_append.symm
    rwa [joined, (performAll_coherent g a (events ++ later)).analysis, ← joined] at told

/-- A token stops the run of the first question; the run of the second goes through under another token. -/
def interrupted : List Event :=
  [.configure ⟨5, .fifo⟩, .attach ⟨0⟩, .ask .atStart [(2, ⟨0⟩)], .attach ⟨1⟩, .ask (.before ⟨3⟩) []]

theorem performAll_answers_interrupted :
    Liveness.analysis.solve .countingLoop ⟨5, .fifo⟩ (heardAfter (interrupted.take 2) [(2, ⟨0⟩)]) =
        .error (.cancelled 2) ∧
      ∃ r answer, Liveness.analysis.solve .countingLoop ⟨5, .fifo⟩ .never = .ok r ∧
        r.Tells Liveness.analysis.ops .atStart answer ∧
        (((new Graph.countingLoop Liveness.analysis).performAll (interrupted ++ [.trip ⟨1⟩])).ask
          .atStart []).2 = .ok answer := by
  have first := performAll_answers Graph.countingLoop Liveness.analysis (interrupted.take 2)
  have second := performAll_answers Graph.countingLoop Liveness.analysis interrupted
  have stopped := first.refused .atStart [(2, ⟨0⟩)] (.cancelled 2) rfl
  have solved : ((new Graph.countingLoop Liveness.analysis).performAll interrupted).session.cache.isSome :=
    by decide +kernel
  obtain ⟨r, remembered⟩ := Option.isSome_iff_exists.mp solved
  obtain ⟨answer, tells, told⟩ := second.lasting r remembered .atStart
  exact ⟨stopped.1, r, answer, second.cached r remembered, tells,
    told [.trip ⟨1⟩] (by simp [Event.keeps]) []⟩

end Scene

end Dataflow
