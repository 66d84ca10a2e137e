import Dataflow.Solver

/-!
Sessions: one graph under one analysis, solved when first asked and remembered until the configuration
changes or the solution is dropped. A failing run leaves nothing behind. The flag of a cancellation token
matters only while the token is attached and only to a run. A scene is a session among the tokens that
may be attached to it.
-/

namespace Dataflow

/-- A cancellation token. All copies of a token share one flag, so a token is its identity. -/
structure Token where
  id : Nat
  deriving DecidableEq, Repr

structure Session (I α ε : Type) where
  graph : Graph I
  analysis : Analysis I α ε
  config : SolverConfig
  token : Option Token
  cache : Option (Solution α)

/-- The outcome of something done in a session, with the session that it leaves behind. -/
abbrev Reply (I α ε β : Type) := Session I α ε × Except (Failure ε) β

namespace Reply

variable {I α ε β γ : Type}

def map (f : β → γ) (reply : Reply I α ε β) : Reply I α ε γ := (reply.1, reply.2.map f)

/-- Goes on in the session with the outcome, unless that is a failure. -/
def andThen (reply : Reply I α ε β) (next : β → Session I α ε → Reply I α ε γ) : Reply I α ε γ :=
  match reply with
  | (s, .ok value) => next value s
  | (s, .error failure) => (s, .error failure)

@[simp] theorem map_ok (f : β → γ) (s : Session I α ε) (value : β) :
    map f (s, .ok value) = (s, .ok (f value)) := rfl

@[simp] theorem map_error (f : β → γ) (s : Session I α ε) (failure : Failure ε) :
    map f (s, .error failure) = (s, .error failure) := rfl

theorem map_map {δ : Type} (f : β → γ) (g : γ → δ) (reply : Reply I α ε β) :
    (reply.map f).map g = reply.map fun value => g (f value) := by
  obtain ⟨s, _ | _⟩ := reply <;> rfl

@[simp] theorem andThen_ok (s : Session I α ε) (value : β) (next : β → Session I α ε → Reply I α ε γ) :
    andThen (s, .ok value) next = next value s := rfl

@[simp] theorem andThen_error (s : Session I α ε) (failure : Failure ε)
    (next : β → Session I α ε → Reply I α ε γ) : andThen (s, .error failure) next = (s, .error failure) := rfl

end Reply

/-- What a session can be asked. -/
inductive Query where
  | solution
  | labeledBefore (node : NodeId)
  | labeledAfter (node : NodeId)
  | before (node : NodeId)
  | after (node : NodeId)
  | atStart
  | atEnd
  deriving DecidableEq, Repr

inductive Answer (α : Type) where
  | solution (r : Solution α)
  | labeled (value : Option (Labeled α))
  | state (value : Option α)

def Query.answer {α : Type} (ops : LatticeOps α) (r : Solution α) : Query → Answer α
  | .solution => .solution r
  | .labeledBefore n => .labeled (r.labeledBefore ops n)
  | .labeledAfter n => .labeled (r.labeledAfter ops n)
  | .before n => .state (r.before ops n)
  | .after n => .state (r.after ops n)
  | .atStart => .state (r.atStart ops)
  | .atEnd => .state (r.atEnd ops)

namespace Session

variable {I α ε β γ : Type}

def new (graph : Graph I) (analysis : Analysis I α ε) : Session I α ε :=
  ⟨graph, analysis, .standard, none, none⟩

def withConfig (s : Session I α ε) (config : SolverConfig) : Session I α ε :=
  { s with config, cache := none }

/-- Attaches a token in place of the one before. -/
def attach (s : Session I α ε) (token : Token) : Session I α ε := { s with token := some token }

def invalidate (s : Session I α ε) : Session I α ε := { s with cache := none }

def isSolved (s : Session I α ε) : Bool := s.cache.isSome

/-- The answers that a run of this session hears, where every token answers as given. -/
def heard (s : Session I α ε) (signals : Token → Signal) : Signal := (s.token.map signals).getD .never

def solve (s : Session I α ε) (signals : Token → Signal) : Reply I α ε (Solution α) :=
  match s.cache with
  | some r => (s, .ok r)
  | none =>
    match s.analysis.solve s.graph s.config (s.heard signals) with
    | .ok r => ({ s with cache := some r }, .ok r)
    | .error failure => (s, .error failure)

/-- Answers a question from the solution, solving first if need be. -/
def ask (s : Session I α ε) (signals : Token → Signal) (query : Query) : Reply I α ε (Answer α) :=
  (s.solve signals).map (query.answer s.analysis.ops)

/-- The state before a node in program order; none at an unreachable node. -/
def before (s : Session I α ε) (signals : Token → Signal) (n : NodeId) : Reply I α ε (Option α) :=
  (s.solve signals).map fun r => r.before s.analysis.ops n

/-- The state after a node in program order; none at an unreachable node. -/
def after (s : Session I α ε) (signals : Token → Signal) (n : NodeId) : Reply I α ε (Option α) :=
  (s.solve signals).map fun r => r.after s.analysis.ops n

/-- Visits one item after the other in the session that the last visit left behind; a failure ends it. -/
def collect (visit : γ → Session I α ε → Reply I α ε β) : List γ → Session I α ε → Reply I α ε (List β)
  | [], s => (s, .ok [])
  | x :: rest, s =>
    (visit x s).andThen fun first s => (s.collect visit rest).map (first :: ·)

end Session

/-- What can happen to a session and to the tokens around it. A question may start a run; `meanwhile`
lists the tokens that are tripped during it, each with the number of the poll that first hears of it. -/
inductive Event where
  | configure (config : SolverConfig)
  | attach (token : Token)
  | invalidate
  | trip (token : Token)
  | ask (query : Query) (meanwhile : List (Nat × Token))
  deriving DecidableEq, Repr

/-- A session and the tokens that have been tripped. -/
structure Scene (I α ε : Type) where
  session : Session I α ε
  tripped : List Token

namespace Scene

variable {I α ε : Type}

def new (graph : Graph I) (analysis : Analysis I α ε) : Scene I α ε := ⟨.new graph analysis, []⟩

/-- The answers of a token to the polls of a run. -/
def signals (s : Scene I α ε) (meanwhile : List (Nat × Token)) (token : Token) : Signal := fun poll =>
  s.tripped.contains token || meanwhile.any fun trip => decide (trip.2 = token) && decide (trip.1 ≤ poll)

def ask (s : Scene I α ε) (query : Query) (meanwhile : List (Nat × Token)) :
    Scene I α ε × Except (Failure ε) (Answer α) :=
  let (session, answer) := s.session.ask (s.signals meanwhile) query
  (⟨session, meanwhile.map Prod.snd ++ s.tripped⟩, answer)

/-- The scene after an event; what a question answers is left to `ask`. -/
def perform (s : Scene I α ε) : Event → Scene I α ε
  | .configure config => { s with session := s.session.withConfig config }
  | .attach token => { s with session := s.session.attach token }
  | .invalidate => { s with session := s.session.invalidate }
  | .trip token => { s with tripped := token :: s.tripped }
  | .ask query meanwhile => (s.ask query meanwhile).1

def performAll (s : Scene I α ε) (events : List Event) : Scene I α ε := events.foldl perform s

end Scene

/-- Solves each graph in a session of its own, in order; a token, if given, is attached to each. -/
def solveUnits {I α ε : Type} (graphs : List (Graph I)) (analysis : Graph I → Analysis I α ε)
    (config : SolverConfig) (token : Option Token) (signals : Token → Signal) :
    List (Except (Failure ε) (Session I α ε)) :=
  graphs.map fun g =>
    let session := (Session.new g (analysis g)).withConfig config
    let session := (token.map session.attach).getD session
    match session.solve signals with
    | (solved, .ok _) => .ok solved
    | (_, .error failure) => .error failure

end Dataflow
