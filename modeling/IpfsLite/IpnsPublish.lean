import IpfsLite.Ipns
import IpfsLite.Lib.Dict
import IpfsLite.Lib.Runs
import IpfsLite.PyInt

/-!
`publish_name` of a peer, called by any tasks at any time, in a process that may be started anew.
Every awaited step ends as the event says. `after` lists the calls that had returned when a call
started.
-/

namespace IpfsLite.Naming

open Ipns PyInt

structure NamingLib extends IpnsLib where
  toBase58 : PeerId → String
  /-- Digits and blanks of Unicode as those of ASCII, the way `int` reads them. -/
  toAscii : Char → Char
  toAscii_of_lt : ∀ c, c.toNat < 127 → toAscii c = c

inductive Phase
  | reading
  | resolving (lastSequence : ℤ)
  | writing (sequence : ℤ) (stored : Bool)
  | publishing
deriving DecidableEq

structure Call where
  value : String
  lifetimeHours : ℤ
  timeout : ℚ
  after : List ℕ
  phase : Phase
deriving DecidableEq

structure Record where
  call : ℕ
  after : List ℕ
  sequence : ℤ
  bytes : Bytes
deriving DecidableEq

structure Peer (lib : NamingLib) where
  privateKey : lib.PrivKey
  id : PeerId
  routing : Bool

/-- `datastore` is `none` without a datastore, and else what it holds under the peer's key. -/
structure Sys where
  datastore : Option (Option Bytes)
  calls : Dict ℕ Call
  nextCall : ℕ
  records : List Record
  returned : List (ℕ × Except PyError String)

inductive Outcome
  | ok
  | timedOut
  | raises (e : PyError)

inductive CallEvent
  | got (ok : Bool)
  | resolved (reply : Except PyError (Option Bytes)) (validatedAt time now : ℤ)
  | stored
  | wrote (ok : Bool) (now : ℤ)
  | published (outcome : Outcome)
  | cancelled

inductive Event
  | call (value : String) (lifetimeHours : ℤ) (timeout : ℚ)
  | step (c : ℕ) (e : CallEvent)
  | restart

variable (lib : NamingLib) (peer : Peer lib)

def lastSequence (seqBytes : Except PyError (Option Bytes)) : ℤ :=
  match seqBytes with
  | .ok (some (b :: bs)) =>
    match (decodeUtf8 (b :: bs)).bind (int lib.toAscii) with
    | .ok n => n
    | .error _ => 0
  | _ => 0

def resolveEntry (now : ℤ) (reply : Except PyError (Option Bytes)) : Except PyError IpnsEntry := do
  match ← reply with
  | some (b :: bs) => validateIpnsRecord lib.toIpnsLib now (b :: bs) peer.id
  | _ => .error ⟨.routingError, s!"Could not resolve name: {lib.toBase58 peer.id}"⟩

def remoteSequence (now : ℤ) (reply : Except PyError (Option Bytes)) : ℤ :=
  match resolveEntry lib peer now reply with
  | .ok entry => entry.sequence.toNat
  | .error _ => 0

def nextSequence (lastSequence remoteSequence time : ℤ) : ℤ :=
  max (max lastSequence remoteSequence) time + 1

namespace Sys

def returnedIds (s : Sys) : List ℕ := s.returned.map Prod.fst

def setPhase (s : Sys) (c : ℕ) (call : Call) (phase : Phase) : Sys :=
  { s with calls := s.calls.set c { call with phase := phase } }

def finish (s : Sys) (c : ℕ) (result : Except PyError String) : Sys :=
  { s with calls := s.calls.erase c, returned := s.returned ++ [(c, result)] }

def drop (s : Sys) (c : ℕ) : Sys := { s with calls := s.calls.erase c }

end Sys

def offline : PyError := ⟨.routingError, "IPNS requires network routing; this peer is offline"⟩

def failed (e : PyError) : PyError :=
  ⟨.routingError, s!"Failed to publish IPNS record: {e.message}"⟩

def timedOut (publishTimeout : ℚ) : PyError :=
  ⟨.routingError, s!"Failed to publish IPNS record: timed out after {fixed publishTimeout}s " ++
    "(local record is stored; retry or use a longer timeout)"⟩

def begin (s : Sys) (value : String) (lifetimeHours : ℤ) (timeout : ℚ) : Sys :=
  if peer.routing then
    { s with
      calls := s.calls.set s.nextCall ⟨value, lifetimeHours, timeout, s.returnedIds,
        if s.datastore.isSome then .reading else .resolving 0⟩
      nextCall := s.nextCall + 1 }
  else
    { s with returned := s.returned ++ [(s.nextCall, .error offline)], nextCall := s.nextCall + 1 }

def publish (s : Sys) (c : ℕ) (call : Call) (sequence now : ℤ) : Sys :=
  match createIpnsRecord lib.toIpnsLib now peer.privateKey call.value sequence call.lifetimeHours with
  | .ok bytes =>
    { s.setPhase c call .publishing with
      records := s.records ++ [⟨c, call.after, sequence, bytes⟩] }
  | .error e => s.finish c (.error (failed e))

def choose (s : Sys) (c : ℕ) (call : Call) (sequence now : ℤ) : Sys :=
  match s.datastore, str sequence with
  | some _, .ok _ => s.setPhase c call (.writing sequence false)
  | _, _ => publish lib peer s c call sequence now

def result (call : Call) : Outcome → Except PyError String
  | .ok => .ok (lib.toBase58 peer.id)
  | .timedOut => .error (timedOut (max call.timeout 90))
  | .raises e => .error (failed e)

def stepCall (s : Sys) (c : ℕ) (call : Call) : CallEvent → Option Sys
  | .got ok =>
    match call.phase with
    | .reading =>
      let seqBytes := if ok then .ok s.datastore.join else .error ⟨.osError, "datastore"⟩
      some (s.setPhase c call (.resolving (lastSequence lib seqBytes)))
    | _ => none
  | .resolved reply validatedAt time now =>
    match call.phase with
    | .resolving last =>
      let remote := remoteSequence lib peer validatedAt reply
      some (choose lib peer s c call (nextSequence last remote time) now)
    | _ => none
  | .stored =>
    match call.phase with
    | .writing sequence false =>
      some { s.setPhase c call (.writing sequence true) with
        datastore := some (some (encodeUtf8 (toString sequence))) }
    | _ => none
  | .wrote ok now =>
    match call.phase with
    -- a `put` that fails may have stored the number or not
    | .writing sequence stored =>
      if ok = true ∧ stored = false then none else some (publish lib peer s c call sequence now)
    | _ => none
  | .published outcome =>
    match call.phase with
    | .publishing => some (s.finish c (result lib peer call outcome))
    | _ => none
  | .cancelled => some (s.drop c)

def step (s : Sys) : Event → Option Sys
  | .call value lifetimeHours timeout => some (begin lib peer s value lifetimeHours timeout)
  | .step c e => (s.calls.get? c).bind fun call => stepCall lib peer s c call e
  | .restart => some { s with calls := .empty }

end IpfsLite.Naming
