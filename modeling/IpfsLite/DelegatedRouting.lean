import IpfsLite.PyJson
import IpfsLite.PyValue
import IpfsLite.Routing

/-!
`DelegatedHTTPRouting`, alone and as one of the routers of a `TieredRouting`. `httpx`, `Multiaddr` and
`ID.from_base58` are parameters; an address is its text.
-/

namespace IpfsLite.Routing

open PyJson

section Strings

def isSpace (c : Char) : Bool :=
  c.toNat ∈ [0x09, 0x0A, 0x0B, 0x0C, 0x0D, 0x1C, 0x1D, 0x1E, 0x1F, 0x20, 0x85, 0xA0, 0x1680, 0x2028, 0x2029,
    0x202F, 0x205F, 0x3000] || (0x2000 ≤ c.toNat && c.toNat ≤ 0x200A)

def strip (cs : List Char) : List Char := ((cs.dropWhile isSpace).reverse.dropWhile isSpace).reverse

def base64Value (c : Char) : Option ℕ :=
  if 'A' ≤ c ∧ c ≤ 'Z' then some (c.toNat - 65)
  else if 'a' ≤ c ∧ c ≤ 'z' then some (c.toNat - 71)
  else if '0' ≤ c ∧ c ≤ '9' then some (c.toNat + 4)
  else if c = '+' then some 62
  else if c = '/' then some 63
  else none

/-- `binascii.a2b_base64`: what is no digit is passed over, and a complete padding ends the text. -/
def a2bBase64 : (pads quadPos leftChar : ℕ) → List Char → Option (List UInt8)
  | _, quadPos, _, [] => if quadPos = 0 then some [] else none
  | pads, quadPos, leftChar, c :: cs =>
    if c = '=' then
      if quadPos < 2 then a2bBase64 pads quadPos leftChar cs
      else if 4 ≤ quadPos + (pads + 1) then some []
      else a2bBase64 (pads + 1) quadPos leftChar cs
    else
      match base64Value c with
      | none => a2bBase64 pads quadPos leftChar cs
      | some n =>
        if quadPos = 0 then a2bBase64 0 1 n cs
        else if quadPos = 1 then (a2bBase64 0 2 (n % 16) cs).map (UInt8.ofNat (leftChar * 4 + n / 16) :: ·)
        else if quadPos = 2 then (a2bBase64 0 3 (n % 4) cs).map (UInt8.ofNat (leftChar * 16 + n / 4) :: ·)
        else (a2bBase64 0 0 0 cs).map (UInt8.ofNat (leftChar * 64 + n) :: ·)

def b64decode : PyValue → Option (List UInt8)
  | .str (.text s) => if s.toList.all (·.toNat < 128) then a2bBase64 0 0 0 s.toList else none
  | _ => none

end Strings

def truthy : PyValue → Bool
  | .none => false
  | .bool b => b
  | .int i => i ≠ 0
  | .float bits => PyValue.floatNumber bits ≠ some 0
  | .number q => q ≠ 0
  | .str s => s ≠ ""
  | .bytes b => b ≠ []
  | .list items | .tuple items | .set items => ¬items.isEmpty
  | .dict items => ¬items.isEmpty
  | .cborTag .. | .ipldNode _ | .object _ => true

structure HttpLib where
  parseFloat : List Char → BitVec 64
  multiaddr : PyValue → Option String
  fromBase58 : PyValue → Option String

structure Response where
  statusCode : ℤ
  text : String
  json : Except PyError PyValue

structure Client where
  get : String → Except PyError Response
  put : String → PyValue → Except PyError Response

section Find

variable (lib : HttpLib) (count : ℤ)

/-- A provider that the body of a loop has come to, if it has an `ID`, and if that can be read. -/
abbrev Entry := Option (Option PeerInfo)

def readEntry (readAddr : PyValue → Option String) (provider : PyValue) : Except PyError Entry := do
  let peerIdStr := (← provider.get .builtins "ID").getD .none
  if ¬truthy peerIdStr then .ok none
  else do
    let addrs ← ((← provider.get .builtins "Addrs").getD (.list [])).iter .builtins
    .ok (some ((lib.fromBase58 peerIdStr).map fun peerId => ⟨peerId, addrs.filterMap readAddr⟩))

def nativeAddr (a : PyValue) : Option String :=
  ((b64decode a).bind fun decoded => lib.multiaddr (.bytes decoded)).or (lib.multiaddr a)

def ndjsonLoop : List (List Char) → List PeerInfo → List PeerInfo
  | [], providers => providers
  | line :: lines, providers =>
    if line = [] then ndjsonLoop lines providers
    else
      match (jsonLoads lib.parseFloat (String.ofList line)).bind (readEntry lib lib.multiaddr) with
      | .error _ | .ok none => ndjsonLoop lines providers
      | .ok (some found) =>
        let providers := providers ++ found.toList
        if count ≤ providers.length then providers else ndjsonLoop lines providers

def nativeEntry (prov : PyValue) : Except PyError Entry :=
  (prov.get .builtins "Provider").bind fun info => readEntry lib (nativeAddr lib) (info.getD (.dict []))

/-- An error is the end of the method, with the providers up to there: it returns them after a log of the
exception, and when there are enough. -/
def providerLoop : List PyValue → List PeerInfo → Except (List PeerInfo) (List PeerInfo)
  | [], providers => .ok providers
  | prov :: rest, providers =>
    match nativeEntry lib prov with
    | .error _ => .error providers
    | .ok none => providerLoop rest providers
    | .ok (some found) =>
      let providers := providers ++ found.toList
      if count ≤ providers.length then .error providers else providerLoop rest providers

def providerResults (res : PyValue) : Except PyError (List PyValue) :=
  (res.get .builtins "ProviderResults").bind fun provs => (provs.getD (.list [])).iter .builtins

def resultLoop : List PyValue → List PeerInfo → Except (List PeerInfo) (List PeerInfo)
  | [], providers => .ok providers
  | res :: rest, providers =>
    match providerResults res with
    | .error _ => .error providers
    | .ok provs => (providerLoop lib count provs providers).bind (resultLoop rest)

def multihashResults (response : Response) : Except PyError (List PyValue) :=
  response.json.bind fun data =>
    (data.get .builtins "MultihashResults").bind fun results => (results.getD (.list [])).iter .builtins

def fromNative (response : Response) : List PeerInfo :=
  match multihashResults response with
  | .error _ => []
  | .ok results =>
    match resultLoop lib count results [] with
    | .ok providers | .error providers => providers

def textLines (text : String) : List (List Char) := (strip text.toList).splitOn '\n'

def findProviders (client : Client) (key : String) : List PeerInfo :=
  match client.get s!"/routing/v1/providers/{key}" with
  | .error _ => []
  | .ok response =>
    if response.statusCode = 200 then ndjsonLoop lib count (textLines response.text) []
    else
      match client.get s!"/cid/{key}" with
      | .error _ => []
      | .ok response => if response.statusCode ≠ 200 then [] else fromNative lib count response

end Find

def payload (host : PeerInfo) : PyValue :=
  .dict [(.str "Schema", .str "peer"), (.str "ID", .str host.peerId), (.str "Addrs", .list (host.addrs.map fun a => .str (.text a)))]

def provide (client : Client) (host : Option PeerInfo) (key : String) : Bool :=
  match host with
  | none => false
  | some host =>
    match client.put s!"/routing/v1/providers/{key}" (payload host) with
    | .ok resp => resp.statusCode = 200 ∨ resp.statusCode = 202 ∨ resp.statusCode = 204
    | .error _ => false

def delegated (lib : HttpLib) (client : Client) (host : Option PeerInfo) : Router where
  findProviders key count := .ok (findProviders lib count client key)
  provide key := .ok (provide client host key)
  getValue _ := .ok none
  putValue _ _ := .error ⟨.runtimeError, "DelegatedHTTPRouting does not support put_value"⟩

section Answered

variable (lib : HttpLib)

def lineEntry (line : List Char) : Entry :=
  if line = [] then none
  else ((jsonLoads lib.parseFloat (String.ofList line)).bind (readEntry lib lib.multiaddr)).toOption.join

def nativeEntries (results : List PyValue) : List (Except PyError Entry) :=
  results.flatMap fun res =>
    match providerResults res with
    | .error e => [.error e]
    | .ok provs => provs.map (nativeEntry lib)

def beforeError : List (Except PyError Entry) → List PeerInfo
  | [] => []
  | .error _ :: _ => []
  | .ok entry :: rest => entry.join.toList ++ beforeError rest

def answered (client : Client) (key : String) : List PeerInfo :=
  match client.get s!"/routing/v1/providers/{key}" with
  | .error _ => []
  | .ok response =>
    if response.statusCode = 200 then (textLines response.text).filterMap fun line => (lineEntry lib line).join
    else
      match client.get s!"/cid/{key}" with
      | .error _ => []
      | .ok response =>
        if response.statusCode ≠ 200 then []
        else beforeError (nativeEntries lib ((multihashResults response).toOption.getD []))

end Answered

section Loops

variable {lib : HttpLib} {count : ℤ}

def collect (count : ℤ) : List (Except PyError Entry) → List PeerInfo → Except (List PeerInfo) (List PeerInfo)
  | [], providers => .ok providers
  | .error _ :: _, providers => .error providers
  | .ok none :: rest, providers => collect count rest providers
  | .ok (some found) :: rest, providers =>
    let providers := providers ++ found.toList
    if count ≤ providers.length then .error providers else collect count rest providers

def returned : Except (List PeerInfo) (List PeerInfo) → List PeerInfo
  | .ok providers | .error providers => providers

theorem collect_append (as bs : List (Except PyError Entry)) (providers : List PeerInfo) :
    collect count (as ++ bs) providers = (collect count as providers).bind (collect count bs) := by
  induction as generalizing providers with
  | nil => rfl
  | cons a as ih =>
    match a with
    | .error e => rfl
    | .ok none => exact ih providers
    | .ok (some found) =>
      simp only [List.cons_append, collect]
      split_ifs with henough
      · rfl
      · exact ih _

theorem returned_collect (steps : List (Except PyError Entry)) {providers : List PeerInfo}
    (h : (providers.length : ℤ) < count) :
    returned (collect count steps providers) = (providers ++ beforeError steps).take count.toNat := by
  induction steps generalizing providers with
  | nil =>
    rw [collect, beforeError, List.append_nil, List.take_of_length_le (by omega)]
    rfl
  | cons step steps ih =>
    match step with
    | .error e =>
      rw [collect, beforeError, List.append_nil, List.take_of_length_le (by omega)]
      rfl
    | .ok none => exact ih h
    | .ok (some found) =>
      have hrest : beforeError (.ok (some found) :: steps) = found.toList ++ beforeError steps := rfl
      rw [collect, hrest, ← List.append_assoc]
      split_ifs with henough
      · -- at most one entry more than before: exactly enough
        have hone : found.toList.length ≤ 1 := by cases found <;> simp
        have hlength : (providers ++ found.toList).length = count.toNat := by
          rw [List.length_append] at henough ⊢
          omega
        rw [List.take_append_of_le_length hlength.ge, List.take_of_length_le hlength.le]
        rfl
      · exact ih (not_le.mp henough)

theorem beforeError_ok (entries : List Entry) :
    beforeError (entries.map .ok) = entries.filterMap Option.join := by
  induction entries with
  | nil => rfl
  | cons entry entries ih =>
    rw [List.map_cons, beforeError, ih, List.filterMap_cons]
    cases entry.join <;> rfl

theorem ndjsonLoop_eq (lines : List (List Char)) (providers : List PeerInfo) :
    ndjsonLoop lib count lines providers =
      returned (collect count ((lines.map (lineEntry lib)).map .ok) providers) := by
  induction lines generalizing providers with
  | nil => rfl
  | cons line lines ih =>
    rw [ndjsonLoop, List.map_cons, List.map_cons, lineEntry]
    by_cases hline : line = []
    · rw [if_pos hline, if_pos hline]
      exact ih providers
    · rw [if_neg hline, if_neg hline]
      cases (jsonLoads lib.parseFloat (String.ofList line)).bind (readEntry lib lib.multiaddr) with
      | error e => exact ih providers
      | ok entry =>
        cases entry with
        | none => exact ih providers
        | some found =>
          simp only [Except.toOption, Option.join_some, collect]
          split_ifs with henough
          · rfl
          · exact ih _

theorem providerLoop_eq (provs : List PyValue) (providers : List PeerInfo) :
    providerLoop lib count provs providers = collect count (provs.map (nativeEntry lib)) providers := by
  induction provs generalizing providers with
  | nil => rfl
  | cons prov provs ih =>
    rw [providerLoop, List.map_cons]
    cases nativeEntry lib prov with
    | error e => rfl
    | ok entry =>
      cases entry with
      | none => exact ih providers
      | some found =>
        simp only [collect]
        split_ifs with henough
        · rfl
        · exact ih _

theorem resultLoop_eq (results : List PyValue) (providers : List PeerInfo) :
    resultLoop lib count results providers = collect count (nativeEntries lib results) providers := by
  induction results generalizing providers with
  | nil => rfl
  | cons res results ih =>
    rw [resultLoop, nativeEntries, List.flatMap_cons, collect_append]
    cases providerResults res with
    | error e => rfl
    | ok provs =>
      dsimp only
      rw [providerLoop_eq]
      cases collect count (provs.map (nativeEntry lib)) providers with
      | error enough => rfl
      | ok found => exact ih found

theorem fromNative_eq (hcount : 1 ≤ count) (response : Response) :
    fromNative lib count response =
      (beforeError (nativeEntries lib ((multihashResults response).toOption.getD []))).take count.toNat := by
  unfold fromNative
  cases multihashResults response with
  | error e => exact List.take_nil.symm
  | ok results =>
    have hnone : (([] : List PeerInfo).length : ℤ) < count := by
      rw [List.length_nil]
      omega
    have hreturned := returned_collect (nativeEntries lib results) hnone
    rw [← resultLoop_eq] at hreturned
    exact hreturned

theorem findProviders_take (hcount : 1 ≤ count) (client : Client) (key : String) :
    findProviders lib count client key = (answered lib client key).take count.toNat := by
  unfold findProviders answered
  cases client.get s!"/routing/v1/providers/{key}" with
  | error e => exact List.take_nil.symm
  | ok response =>
    dsimp only
    split_ifs with hstatus
    · have hnone : (([] : List PeerInfo).length : ℤ) < count := by
        rw [List.length_nil]
        omega
      rw [ndjsonLoop_eq, returned_collect _ hnone, List.nil_append, beforeError_ok, List.filterMap_map]
      rfl
    · cases client.get s!"/cid/{key}" with
      | error e => exact List.take_nil.symm
      | ok response =>
        dsimp only
        split_ifs
        · exact List.take_nil.symm
        · exact fromNative_eq hcount response

end Loops

section Announced

structure Readable (lib : HttpLib) (host : PeerInfo) : Prop where
  nonempty : host.peerId ≠ ""
  peerId : lib.fromBase58 (.str host.peerId) = some host.peerId
  addrs : ∀ a ∈ host.addrs, lib.multiaddr (.str a) = some a

inductive Announces (lib : HttpLib) : List (List Char) → List PeerInfo → Prop
  | nil : Announces lib [] []
  | unread {line : List Char} {lines : List (List Char)} {hosts : List PeerInfo} {e : PyError}
    (herror : (jsonLoads lib.parseFloat (String.ofList line)).bind (readEntry lib lib.multiaddr) = .error e)
    (hrest : Announces lib lines hosts) : Announces lib (line :: lines) hosts
  | host {line : List Char} {lines : List (List Char)} {host : PeerInfo} {hosts : List PeerInfo}
    (hline : line ≠ []) (hloads : jsonLoads lib.parseFloat (String.ofList line) = .ok (payload host))
    (hreadable : Readable lib host) (hrest : Announces lib lines hosts) :
    Announces lib (line :: lines) (host :: hosts)

variable {lib : HttpLib}

theorem readEntry_payload {host : PeerInfo} (h : Readable lib host) :
    readEntry lib lib.multiaddr (payload host) = .ok (some (some host)) := by
  have hid : (payload host).get .builtins "ID" = .ok (some (.str host.peerId)) := by
    simp [payload, PyValue.get, PyValue.lookup, PyValue.isStr]
  have haddrs : (payload host).get .builtins "Addrs" = .ok (some (.list (host.addrs.map fun a => .str (.text a)))) := by
    simp [payload, PyValue.get, PyValue.lookup, PyValue.isStr]
  have hread : (host.addrs.map fun a => PyValue.str (.text a)).filterMap lib.multiaddr = host.addrs := by
    rw [List.filterMap_map]
    exact (List.filterMap_congr h.addrs).trans List.filterMap_some
  simp [readEntry, hid, haddrs, bind, Except.bind, truthy, h.nonempty, PyValue.iter, h.peerId, hread]

theorem announces_answered {lines : List (List Char)} {hosts : List PeerInfo} (h : Announces lib lines hosts) :
    (lines.filterMap fun line => (lineEntry lib line).join) = hosts := by
  induction h with
  | nil => rfl
  | @unread line lines hosts e herror hrest ih =>
    have hnone : (lineEntry lib line).join = none := by
      unfold lineEntry
      split_ifs
      · rfl
      · rw [herror]
        rfl
    rw [List.filterMap_cons, hnone]
    exact ih
  | @host line lines host hosts hline hloads hreadable hrest ih =>
    have hsome : (lineEntry lib line).join = some host := by
      rw [lineEntry, if_neg hline, hloads, Except.bind, readEntry_payload hreadable]
      rfl
    rw [List.filterMap_cons, hsome]
    exact congrArg (host :: ·) ih

end Announced

theorem findProviders_delegated (lib : HttpLib) (client : Client) (host : Option PeerInfo)
    (before after : TieredRouting) (key : String) (count : ℤ) (hcount : 1 ≤ count) :
    (before ++ delegated lib client host :: after).findProviders key count =
        (firsts PeerInfo.peerId ((before.flatMap fun r => r.providers key count) ++
          ((answered lib client key).take count.toNat ++ after.flatMap fun r => r.providers key count))).take
          count.toNat ∧
      ∀ response hosts, client.get s!"/routing/v1/providers/{key}" = .ok response → response.statusCode = 200 →
        Announces lib (textLines response.text) hosts → answered lib client key = hosts := by
  constructor
  · have hempty : Holds {} [] := ⟨rfl, fun _ => Iff.rfl⟩
    have hsearch := search_holds (before ++ delegated lib client host :: after) key hcount hempty
    have hdelegated : (delegated lib client host).providers key count =
        (answered lib client key).take count.toNat := findProviders_take hcount client key
    rw [List.flatMap_append, List.flatMap_cons, hdelegated, List.nil_append] at hsearch
    rw [TieredRouting.findProviders, upTo, if_pos (by omega), hsearch]
  · intro response hosts hget hstatus hannounces
    unfold answered
    rw [hget]
    dsimp only
    rw [if_pos hstatus]
    exact announces_answered hannounces

def base58Alphabet : List Char := "123456789ABCDEFGHJKLMNPQRSTUVWXYZabcdefghijkmnopqrstuvwxyz".toList

def sampleHttpLib : HttpLib where
  parseFloat _ := 0
  multiaddr
    | .str (.text s) => if s.toList.take 5 = "/ip4/".toList then some s else none
    | _ => none
  fromBase58
    | .str (.text s) => if s.toList.all (· ∈ base58Alphabet) then some s else none
    | _ => none

def ndjsonText : String :=
  "\x7b\"Schema\":\"peer\",\"ID\":\"QmA\",\"Addrs\":[\"/ip4/1.2.3.4\",\"dns\"]\x7d\n\x7b\"Schema\":\"peer\",\"ID\"\n" ++
    "\x7b\"ID\":\"Qm0\"\x7d\r\n\x7b\"ID\":\"QmB\"\x7d\n"

def ndjsonClient : Client where
  get path :=
    if path = "/routing/v1/providers/bafy" then .ok ⟨200, ndjsonText, .error ⟨.valueError, "Extra data"⟩⟩
    else .error ⟨.osError, "no route"⟩
  put _ _ := .error ⟨.osError, "no route"⟩

def unreachable : Router := answering (.error ⟨.runtimeError, "down"⟩)

theorem findProviders_delegated_junk :
    let routers := [unreachable] ++ delegated sampleHttpLib ndjsonClient none :: []
    TieredRouting.findProviders routers "bafy" 20 = [⟨"QmA", ["/ip4/1.2.3.4"]⟩, ⟨"QmB", []⟩] ∧
      TieredRouting.findProviders routers "bafy" 20 =
        (firsts PeerInfo.peerId (([unreachable].flatMap fun r => r.providers "bafy" 20) ++
          ((answered sampleHttpLib ndjsonClient "bafy").take 20 ++ []))).take 20 := by
  refine ⟨by decide +kernel, ?_⟩
  exact (findProviders_delegated sampleHttpLib ndjsonClient none [unreachable] [] "bafy" 20 (by decide)).1

end IpfsLite.Routing
