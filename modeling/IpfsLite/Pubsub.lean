import IpfsLite.Cid
import IpfsLite.Lib.Dict
import IpfsLite.Lib.Runs

/-!
The message buffers of the pubsub topics and `GET /api/v0/pubsub/sub`. Calls come one after
another; messages arrive between any two polls. `toBase58` is `ID(from_id).to_base58()` of libp2p.
-/

namespace IpfsLite.Pubsub

open Runs

inductive FromId
  | none
  | peerId (toBase58 : Except PyError String)
  | bytes (raw : Bytes)
  | other (str : Except PyError String)

structure Message where
  fromId : FromId
  data : Option Bytes

structure Entry where
  topic : String
  fromPeer : String
  data : String
  size : ℕ
  receivedAt : ℚ
deriving DecidableEq

variable (toBase58 : Bytes → Except PyError String)

def fromPeer (id : FromId) : String :=
  let r := match id with
    | .peerId base58 => base58
    | .bytes raw => toBase58 raw
    | .none => .ok "None"
    | .other str => str
  match r with
  | .ok s => s
  | .error _ => "unknown"

def base64Char (n : ℕ) : Char :=
  if n < 26 then Char.ofNat (65 + n)
  else if n < 52 then Char.ofNat (71 + n)
  else if n < 62 then Char.ofNat (n - 4)
  else if n = 62 then '+' else '/'

def b64encode : Bytes → List Char
  | [] => []
  | [a] => [base64Char (a.toNat / 4), base64Char (a.toNat % 4 * 16), '=', '=']
  | [a, b] =>
    [base64Char (a.toNat / 4), base64Char (a.toNat % 4 * 16 + b.toNat / 16),
      base64Char (b.toNat % 16 * 4), '=']
  | a :: b :: c :: rest =>
    base64Char (a.toNat / 4) :: base64Char (a.toNat % 4 * 16 + b.toNat / 16) ::
      base64Char (b.toNat % 16 * 4 + c.toNat / 64) :: base64Char (c.toNat % 64) :: b64encode rest

example : String.ofList (b64encode [105, 112, 102, 115]) = "aXBmcw==" := by decide

def entry (topic : String) (msg : Message) (now : ℚ) : Entry where
  topic := topic
  fromPeer := fromPeer toBase58 msg.fromId
  data := String.ofList (b64encode (msg.data.getD []))
  size := (msg.data.getD []).length
  receivedAt := now

def maxlen : ℕ := 100

/-- `append` of a `deque(maxlen=100)`, which drops from the left. -/
def append (buffer : List Entry) (e : Entry) : List Entry :=
  if buffer.length < maxlen then buffer ++ [e] else buffer.tail ++ [e]

abbrev Buffers := Dict String (List Entry)

def setdefault (buffers : Buffers) (topic : String) : Buffers :=
  match buffers.get? topic with
  | some _ => buffers
  | none => buffers.set topic []

def getPubsubMessages (buffers : Buffers) (topic : String) : List Entry × Buffers :=
  match buffers.get? topic with
  | none | some [] => ([], buffers)
  | some messages => (messages, buffers.set topic [])

structure Polling where
  arg : String
  count : ℕ
  deadline : ℚ

structure Response where
  topic : String
  messages : List Entry
deriving DecidableEq

structure Api where
  buffers : Buffers
  call : Option Polling
  responses : List Response

def Api.start : Api := ⟨.empty, none, []⟩

/-- One turn of the `while True` of `pubsub_sub`. -/
def poll (s : Api) (c : Polling) (now : ℚ) : Api :=
  let r := getPubsubMessages s.buffers c.arg
  if (r.1 ≠ [] ∧ (c.count = 0 ∨ c.count ≤ r.1.length)) ∨ c.deadline ≤ now then
    { buffers := r.2
      call := none
      responses := s.responses ++ [⟨c.arg, if 0 < c.count then r.1.take c.count else r.1⟩] }
  else
    { s with buffers := r.2 }

inductive Event
  | loopStarts (topic : String)
  | received (topic : String) (msg : Message) (now : ℚ)
  | pubsubSub (arg : String) (count : ℕ) (timeout now : ℚ)
  | poll (now : ℚ)

def step (s : Api) : Event → Option Api
  | .loopStarts topic => some { s with buffers := setdefault s.buffers topic }
  | .received topic msg now =>
    (s.buffers.get? topic).map fun buffer =>
      { s with buffers := s.buffers.set topic (append buffer (entry toBase58 topic msg now)) }
  | .pubsubSub arg count timeout now =>
    if s.call = none ∧ 0 < timeout ∧ timeout ≤ 120 then
      some { s with call := some ⟨arg, count, now + timeout⟩ }
    else none
  | .poll now => s.call.map fun c => poll s c now

end IpfsLite.Pubsub
