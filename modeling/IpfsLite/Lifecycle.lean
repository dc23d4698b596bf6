import IpfsLite.Lib.Dict
import IpfsLite.Lib.Runs

/-!
`start` and `close` of a peer, called by any tasks at any time. Every awaited step ends as the event
says. Closing the exit stack exits its contexts from the innermost, and leaving a nursery waits for
its children.
-/

namespace IpfsLite.Lifecycle

open Runs

inductive PeerState
  | stopped
  | starting
  | running
  | stopping
deriving DecidableEq

structure Nursery where
  tasks : ℕ
  cancelled : Bool
  closed : Bool
deriving DecidableEq

namespace Nursery

def fresh : Nursery := ⟨0, false, false⟩

def startSoon (k : ℕ) (n : Nursery) : Nursery := { n with tasks := n.tasks + k }

def cancel (n : Nursery) : Nursery := { n with cancelled := true }

def close (n : Nursery) : Nursery := { n with closed := true }

def taskEnds (n : Nursery) : Nursery := { n with tasks := n.tasks - 1 }

end Nursery

inductive Context
  | host
  | nursery (n : ℕ)
deriving DecidableEq

structure Config where
  enableLibp2pMetrics : Bool
  streamMonitorEnabled : Bool
  enablePubsub : Bool
  routingHasStart : Bool

/-- A part of the `try` body of `start`: an awaited step, or the code up to the next one. -/
inductive StartStep
  | createHost
  | attachMetrics
  | createRouting
  | createServices
  | runHost
  | openNursery
  | spawnReprovider
  | startExchange
  | spawnLoops
  | initPubsub
deriving DecidableEq

def startBody (c : Config) : List StartStep :=
  [.createHost, .attachMetrics, .createRouting, .createServices, .runHost, .openNursery, .spawnReprovider,
    .startExchange, .spawnLoops] ++ if c.enablePubsub then [.initPubsub] else []

inductive StopStep
  | stopReprovider
  | stopExchange
  | closeRouting
deriving DecidableEq

inductive Phase
  | body (rest : List StartStep)
  | unwinding (isRunning : Bool)
  | exiting (isRunning : Bool) (n : ℕ)
  | stopping (rest : List StopStep)
deriving DecidableEq

def Phase.isBody : Phase → Bool
  | .body _ => true
  | _ => false

structure Sys where
  state : PeerState
  host : Bool
  libp2pMetrics : Bool
  routing : Bool
  nursery : Option ℕ
  exitStack : List Context
  nurseries : List Nursery
  calls : Dict ℕ Phase

def Sys.new (host routing : Bool) : Sys := ⟨.stopped, host, false, routing, none, [], [], .empty⟩

inductive Outcome
  | ok
  | raises
  | cancelled
deriving DecidableEq

namespace StartStep

def applies (c : Config) (s : Sys) : StartStep → Bool
  | createHost => !s.host
  | attachMetrics => !s.libp2pMetrics && c.enableLibp2pMetrics
  | createRouting => !s.routing
  | _ => true

def awaited : StartStep → Bool
  | createHost | createRouting | runHost | openNursery | startExchange | initPubsub => true
  | _ => false

def spawns : StartStep → Bool
  | spawnReprovider | spawnLoops => true
  | _ => false

/-- The outcomes a step can have: `start_soon` of a closed nursery raises, and only an awaited step
can be cancelled. -/
def allows (c : Config) (s : Sys) (step : StartStep) : Outcome → Bool
  | .ok => !step.spawns || s.nursery.any fun n => (s.nurseries[n]?).any (!·.closed)
  | .raises => step.applies c s
  | .cancelled => step.applies c s && step.awaited

end StartStep

namespace Sys

def modifyNursery (s : Sys) (n : ℕ) (f : Nursery → Nursery) : Sys :=
  { s with nurseries := s.nurseries.modify n f }

def modifyOwnNursery (s : Sys) (f : Nursery → Nursery) : Sys :=
  match s.nursery with
  | none => s
  | some n => s.modifyNursery n f

def setCall (s : Sys) (id : ℕ) (p : Phase) : Sys := { s with calls := s.calls.set id p }

def endCall (s : Sys) (id : ℕ) : Sys := { s with calls := s.calls.erase id }

def perform (c : Config) (s : Sys) : StartStep → Sys
  | .createHost => { s with host := true }
  | .attachMetrics => { s with libp2pMetrics := s.libp2pMetrics || c.enableLibp2pMetrics }
  | .createRouting => { s with routing := true }
  | .runHost => { s with exitStack := .host :: s.exitStack }
  | .openNursery =>
    { s with
      exitStack := .nursery s.nurseries.length :: s.exitStack
      nursery := some s.nurseries.length
      nurseries := s.nurseries ++ [.fresh] }
  | .spawnReprovider => s.modifyOwnNursery (·.startSoon 1)
  | .spawnLoops =>
    -- the routing, the routing table, the keep-alive pings, the stream monitor
    s.modifyOwnNursery (·.startSoon
      ((if c.routingHasStart then 1 else 0) + 2 + if c.streamMonitorEnabled then 1 else 0))
  | .createServices | .startExchange | .initPubsub => s

def enterClose (s : Sys) (id : ℕ) : Sys :=
  if s.state = .stopped ∨ s.state = .stopping then s.endCall id
  else { s with state := .stopping }.setCall id (.unwinding (s.state = PeerState.running))

def finishClose (s : Sys) (id : ℕ) : Sys := { s with state := .stopped }.endCall id

def bodyStep (c : Config) (s : Sys) (id : ℕ) : List StartStep → Outcome → Option Sys
  | [], .ok => some ({ s with state := .running }.endCall id)
  | [], _ => none
  | step :: rest, o =>
    if step.allows c s o then
      match o with
      | .ok => some ((s.perform c step).setCall id (.body rest))
      | .raises => some (s.enterClose id)
      | .cancelled => some (s.endCall id)
    else none

/-- `AsyncExitStack` pops its innermost context. A nursery without children is left at once. -/
def exitContext (s : Sys) (id : ℕ) (isRunning : Bool) : Option Sys :=
  match s.exitStack with
  | [] => none
  | .host :: rest => some { s with exitStack := rest }
  | .nursery n :: rest =>
    match s.nurseries[n]? with
    | none => none
    | some nursery =>
      let s := { s with exitStack := rest }
      if nursery.tasks = 0 then some (s.modifyNursery n (·.close))
      else some (s.setCall id (.exiting isRunning n))

def unwound (s : Sys) (id : ℕ) (isRunning : Bool) (o : Outcome) : Option Sys :=
  if s.exitStack = [] then
    if o = .cancelled then some (s.finishClose id)
    else
      let s := s.modifyOwnNursery (·.cancel)
      if isRunning then some (s.setCall id (.stopping [.stopReprovider, .stopExchange, .closeRouting]))
      else some (s.finishClose id)
  else none

def stopStep (s : Sys) (id : ℕ) : List StopStep → Outcome → Sys
  | _ :: rest, .ok => s.setCall id (.stopping rest)
  | _, _ => s.finishClose id

end Sys

inductive Event
  | startCall (id : ℕ)
  | bodyStep (id : ℕ) (o : Outcome)
  | closeCall (id : ℕ)
  | exitContext (id : ℕ)
  | exitCancelled (id : ℕ)
  | exited (id : ℕ)
  | unwound (id : ℕ) (o : Outcome)
  | stopStep (id : ℕ) (o : Outcome)
  | spawn (n : ℕ)
  | taskEnds (n : ℕ)

def step (c : Config) (s : Sys) : Event → Option Sys
  | .startCall id =>
    if id ∈ s.calls.keys then none
    else if s.state = .running ∨ s.state = .starting then some s
    else some ({ s with state := .starting }.setCall id (.body (startBody c)))
  | .bodyStep id o =>
    match s.calls.get? id with
    | some (.body rest) => s.bodyStep c id rest o
    | _ => none
  | .closeCall id => if id ∈ s.calls.keys then none else some (s.enterClose id)
  | .exitContext id =>
    match s.calls.get? id with
    | some (.unwinding isRunning) => s.exitContext id isRunning
    | _ => none
  | .exitCancelled id =>
    match s.calls.get? id with
    | some (.exiting _ n) => some (s.modifyNursery n (·.cancel))
    | _ => none
  | .exited id =>
    match s.calls.get? id with
    | some (.exiting isRunning n) =>
      if (s.nurseries[n]?).any (·.tasks = 0) then
        some ((s.modifyNursery n (·.close)).setCall id (.unwinding isRunning))
      else none
    | _ => none
  | .unwound id o =>
    match s.calls.get? id with
    | some (.unwinding isRunning) => s.unwound id isRunning o
    | _ => none
  | .stopStep id o =>
    match s.calls.get? id with
    | some (.stopping rest) => some (s.stopStep id rest o)
    | _ => none
  | .spawn n =>
    if (s.nurseries[n]?).any (!·.closed) then some (s.modifyNursery n (·.startSoon 1)) else none
  | .taskEnds n =>
    if (s.nurseries[n]?).any (0 < ·.tasks) then some (s.modifyNursery n (·.taskEnds)) else none

end IpfsLite.Lifecycle
