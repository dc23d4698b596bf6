import IpfsLite.Lib.Runs
import IpfsLite.Lib.Trio
import Mathlib.Data.Finset.Card
import Mathlib.Logic.Function.Basic

/-!
`RWLock` of `peer/ipld.py`, one atomic segment of `read_lock` and `write_lock` between two awaits
at a time. A task stands for one use of one of the two context managers; its `Pc` is the await it
is suspended at, or the body it is in. A parked task resumes once the lock or the permit has been
handed to it, that is when it has left the queue. `Cancelled` is raised by the checkpoint on the way
into an `acquire` (`cancelCall`) or while the task is parked in it (`cancelParked`).
-/

namespace IpfsLite

open Trio

variable {τ : Type*}

structure RWLock (τ : Type*) where
  writeLock : Semaphore τ
  readCount : ℤ
  readCountLock : Lock τ

namespace RWLock

def initial : RWLock τ := ⟨.initial 1, 0, .unlocked⟩

inductive Pc
  | outside
  | entryLock
  | entrySemaphore
  | reading
  | exitLock
  | writeSemaphore
  | writing
  deriving DecidableEq

structure State (τ : Type*) where
  lock : RWLock τ
  pc : τ → Pc

def State.initial : State τ := ⟨.initial, fun _ => .outside⟩

variable [DecidableEq τ]

def State.goto (s : State τ) (t : τ) (p : Pc) (l : RWLock τ) : State τ :=
  ⟨l, Function.update s.pc t p⟩

inductive Await
  | entryLock
  | entrySemaphore
  | exitLock
  | writeSemaphore
  deriving DecidableEq

inductive Act
  | enterRead
  | enterWrite
  | resume
  | leave
  | cancelCall (w : Await)
  | cancelParked (w : Await)
  deriving DecidableEq

def countReader (l : RWLock τ) : RWLock τ := { l with readCount := l.readCount + 1 }

def releaseCountLock (l : RWLock τ) : RWLock τ := { l with readCountLock := l.readCountLock.release }

def enterRead (s : State τ) (t : τ) : State τ :=
  s.goto t .entryLock { s.lock with readCountLock := s.lock.readCountLock.acquire t }

def awaitSemaphore (s : State τ) (t : τ) : State τ :=
  let l := countReader s.lock
  s.goto t .entrySemaphore { l with writeLock := l.writeLock.acquire t }

def joinReaders (s : State τ) (t : τ) : State τ :=
  s.goto t .reading (releaseCountLock (countReader s.lock))

def startReading (s : State τ) (t : τ) : State τ := s.goto t .reading (releaseCountLock s.lock)

def refuseSemaphore (s : State τ) (t : τ) : State τ :=
  s.goto t .outside (releaseCountLock (countReader s.lock))

def abandonSemaphore (s : State τ) (t : τ) : State τ :=
  s.goto t .outside (releaseCountLock { s.lock with writeLock := s.lock.writeLock.abandon t })

def leaveBody (s : State τ) (t : τ) : State τ :=
  s.goto t .exitLock { s.lock with readCountLock := s.lock.readCountLock.acquire t }

def finishRead (s : State τ) (t : τ) : State τ :=
  let n := s.lock.readCount - 1
  let w := if n = 0 then s.lock.writeLock.release else s.lock.writeLock
  s.goto t .outside (releaseCountLock { s.lock with readCount := n, writeLock := w })

def abandonCountLock (s : State τ) (t : τ) : State τ :=
  s.goto t .outside { s.lock with readCountLock := s.lock.readCountLock.abandon t }

def enterWrite (s : State τ) (t : τ) : State τ :=
  s.goto t .writeSemaphore { s.lock with writeLock := s.lock.writeLock.acquire t }

def startWriting (s : State τ) (t : τ) : State τ := s.goto t .writing s.lock

def abandonWrite (s : State τ) (t : τ) : State τ :=
  s.goto t .outside { s.lock with writeLock := s.lock.writeLock.abandon t }

def finishWrite (s : State τ) (t : τ) : State τ :=
  s.goto t .outside { s.lock with writeLock := s.lock.writeLock.release }

def step (s : State τ) (t : τ) : Act → Option (State τ)
  | .enterRead => if s.pc t = .outside then some (enterRead s t) else none
  | .enterWrite => if s.pc t = .outside then some (enterWrite s t) else none
  | .resume =>
    match s.pc t with
    | .entryLock =>
      if t ∈ s.lock.readCountLock.waiters then none
      else if s.lock.readCount + 1 = 1 then some (awaitSemaphore s t)
      else some (joinReaders s t)
    | .entrySemaphore => if t ∈ s.lock.writeLock.waiters then none else some (startReading s t)
    | .exitLock => if t ∈ s.lock.readCountLock.waiters then none else some (finishRead s t)
    | .writeSemaphore => if t ∈ s.lock.writeLock.waiters then none else some (startWriting s t)
    | _ => none
  | .leave =>
    match s.pc t with
    | .reading => some (leaveBody s t)
    | .writing => some (finishWrite s t)
    | _ => none
  | .cancelCall .entryLock | .cancelCall .writeSemaphore =>
    if s.pc t = .outside then some s else none
  | .cancelCall .entrySemaphore =>
    if s.pc t = .entryLock ∧ t ∉ s.lock.readCountLock.waiters ∧ s.lock.readCount + 1 = 1 then
      some (refuseSemaphore s t)
    else none
  | .cancelCall .exitLock => if s.pc t = .reading then some (s.goto t .outside s.lock) else none
  | .cancelParked .entryLock =>
    if s.pc t = .entryLock ∧ t ∈ s.lock.readCountLock.waiters then some (abandonCountLock s t) else none
  | .cancelParked .entrySemaphore =>
    if s.pc t = .entrySemaphore ∧ t ∈ s.lock.writeLock.waiters then some (abandonSemaphore s t) else none
  | .cancelParked .exitLock =>
    if s.pc t = .exitLock ∧ t ∈ s.lock.readCountLock.waiters then some (abandonCountLock s t) else none
  | .cancelParked .writeSemaphore =>
    if s.pc t = .writeSemaphore ∧ t ∈ s.lock.writeLock.waiters then some (abandonWrite s t) else none

def Step (s : State τ) (e : τ × Act) (s' : State τ) : Prop := step s e.1 e.2 = some s'

def CancelsEntry (a : Act) : Prop := a = .cancelCall .entrySemaphore ∨ a = .cancelParked .entrySemaphore

def CancelsExit (a : Act) : Prop := a = .cancelCall .exitLock ∨ a = .cancelParked .exitLock

instance (a : Act) : Decidable (CancelsEntry a) := inferInstanceAs (Decidable (_ ∨ _))

instance (a : Act) : Decidable (CancelsExit a) := inferInstanceAs (Decidable (_ ∨ _))

end RWLock

end IpfsLite
