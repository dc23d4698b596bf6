import IpfsLite.TrackerSweep

namespace IpfsLite.Tracker

open Runs

def Returns (t : Tracker) : Call → Prop
  | .openedStream now ref stream => (t.openedStream now ref stream).2 = .ok ()
  | .closedStream now heap stream => (t.closedStream now heap stream).2 = .ok ()
  | .connected now nowTs conn => (t.connected now nowTs conn).2 = .ok ()
  | .disconnected now nowTs heap conn => (t.disconnected now nowTs heap conn).2 = .ok ()
  | .checkForLeaks now threshold heap live =>
    ∃ leaked, (t.checkForLeaks now threshold heap live).2 = .ok leaked
  | .streamStatsSnapshot _ => True

/-- The reads outside every `try` give a value, and a stream that is closed was opened before, at a
positive time, or is a duplicate. -/
def Anticipated (t : Tracker) : Call → Prop
  | .openedStream _ _ stream => ∃ c, stream.muxedConn = .ok c
  | .closedStream _ _ stream =>
    (∃ r, t.streams.get? (streamKey stream) = some r ∧ 0 < r.openedAt ∧
      ∃ reset, readReset (some stream) = .ok reset) ∨
    (streamKey stream ∉ t.streams.keys ∧ streamKey stream ∈ t.finalizedKeys.keys)
  | .connected _ _ conn => ∃ pid m, conn.peerId = .ok pid ∧ conn.muxedConn = .ok m
  | .disconnected _ _ heap conn => ∃ pid m, conn.peerId = .ok pid ∧ conn.muxedConn = .ok m ∧
      ∀ e ∈ t.streams.entries, recordOnConn (e.2.obj heap) conn.id m = true → Readable heap e.2
  | .checkForLeaks _ _ heap live =>
    ∀ e ∈ t.streams.entries, Finalizes heap live t.hasNetwork e.2 → Readable heap e.2
  | .streamStatsSnapshot _ => True

variable {t : Tracker} {heap : Heap} {now : ℚ}

theorem openedStream_returns_iff (t : Tracker) (now : ℚ) (ref : StreamRef) (stream : StreamObj) :
    (t.openedStream now ref stream).2 = .ok () ↔ ∃ c, stream.muxedConn = .ok c := by
  unfold openedStream
  dsimp only
  split
  · next e he => simp [he]
  · next hc => exact iff_of_true rfl ⟨_, hc⟩
  · next c hc => exact iff_of_true rfl ⟨_, hc⟩

theorem connected_returns_iff (t : Tracker) (now : ℚ) (nowTs : String) (conn : ConnObj) :
    (t.connected now nowTs conn).2 = .ok () ↔ ∃ pid m, conn.peerId = .ok pid ∧ conn.muxedConn = .ok m := by
  unfold connected
  dsimp only
  split
  · next e he => simp [he]
  · next pid hp =>
    split
    · next e he => simp [he]
    · next m hm => exact iff_of_true rfl ⟨pid, m, hp, hm⟩

/-- The message at the end formats the duration, which is `None` unless the record has a start. -/
theorem closeRecord_returns_iff (t : Tracker) (now : ℚ) (stream : StreamObj) (r : StreamRecord) :
    (t.closeRecord now stream r).2 = .ok () ↔
      0 < r.openedAt ∧ ∃ reset, readReset (some stream) = .ok reset := by
  unfold closeRecord
  dsimp only
  split
  · next e he => simp [he]
  · next reset hr =>
    by_cases hopen : 0 < r.openedAt
    · simp [hopen, hr]
    · simp [hopen]

theorem closedStream_returns_iff (stream : StreamObj) :
    (t.closedStream now heap stream).2 = .ok () ↔ Anticipated t (.closedStream now heap stream) := by
  have hstreams : t.seen.streams = t.streams := rfl
  have hfinalized : t.seen.finalizedKeys = t.finalizedKeys := rfl
  unfold closedStream Anticipated
  dsimp only
  rw [hstreams, hfinalized]
  cases hget : t.streams.get? (streamKey stream) with
  | some r =>
    have hmem : streamKey stream ∈ t.streams.keys := Dict.mem_keys.mpr ⟨r, hget⟩
    have hopened := (refreshRecordMetadata_frame
      { t.seen with streams := t.streams.erase (streamKey stream) } heap r).2.2.2.1
    have htake : t.seen.takeRecord heap stream =
        { t.seen with streams := t.streams.erase (streamKey stream) }.refreshRecordMetadata heap r := by
      simp only [takeRecord, hstreams, hget]
    rw [if_neg (by simp), closeRecord_returns_iff, htake, hopened]
    simp [hmem]
  | none =>
    have hnot : streamKey stream ∉ t.streams.keys := Dict.get?_eq_none.mp hget
    cases hfin : t.finalizedKeys.get? (streamKey stream) with
    | some at' =>
      have hmem : streamKey stream ∈ t.finalizedKeys.keys := Dict.mem_keys.mpr ⟨at', hfin⟩
      rw [if_pos (by simp)]
      exact iff_of_true rfl (.inr ⟨hnot, hmem⟩)
    | none =>
      have hnew : streamKey stream ∉ t.finalizedKeys.keys := Dict.get?_eq_none.mp hfin
      have htake : (t.seen.takeRecord heap stream).2.openedAt = 0 := by
        simp [takeRecord, hstreams, hget]
      rw [if_neg (by simp), closeRecord_returns_iff, htake]
      simp [hnew]

theorem pruneStreams_returns_iff (t : Tracker) (now : ℚ) (heap : Heap) (connId : ObjId) (muxedId : Option ObjId) :
    (t.pruneStreams now heap connId muxedId).2 = .ok () ↔
      ∀ e ∈ t.streams.entries, recordOnConn (e.2.obj heap) connId muxedId = true → Readable heap e.2 := by
  have hok : (pruneLoop heap now connId muxedId t.streams.entries t).2 = .ok () ↔
      ∀ e ∈ t.streams.entries, recordOnConn (e.2.obj heap) connId muxedId = true → Readable heap e.2 :=
    pruneLoop_ok_iff heap now connId muxedId t.streams.entries t
  rw [← hok]
  unfold pruneStreams
  split
  · next u e hres => simp [hres]
  · next u x hres => simp [hres]

theorem disconnected_returns_iff (t : Tracker) (now : ℚ) (nowTs : String) (heap : Heap) (conn : ConnObj) :
    (t.disconnected now nowTs heap conn).2 = .ok () ↔ Anticipated t (.disconnected now nowTs heap conn) := by
  unfold disconnected Anticipated
  dsimp only
  split
  · next e he => simp [he]
  · next pid e hp he => simp [he]
  · next pid m hp hm =>
    have hstreams := (dropConnection_frame t.seen nowTs (orUnknown pid) conn.id m).streams
    have hseen : t.seen.streams = t.streams := rfl
    rw [pruneStreams_returns_iff, hstreams, hseen, hp, hm]
    constructor
    · exact fun h => ⟨pid, m, rfl, rfl, h⟩
    · rintro ⟨_, _, _, hm', h⟩
      rwa [← Except.ok.inj hm'] at h

theorem checkForLeaks_returns_iff (t : Tracker) (now threshold : ℚ) (heap : Heap) (live : LiveTable) :
    (∃ leaked, (t.checkForLeaks now threshold heap live).2 = .ok leaked) ↔
      ∀ e ∈ t.streams.entries, Finalizes heap live t.hasNetwork e.2 → Readable heap e.2 := by
  rw [checkForLeaks, leakLoop_ok_iff]
  cases hn : t.hasNetwork
  · rfl
  · rfl

theorem returns_iff (t : Tracker) (call : Call) : Returns t call ↔ Anticipated t call := by
  cases call with
  | openedStream now ref stream => exact openedStream_returns_iff t now ref stream
  | closedStream now heap stream => exact closedStream_returns_iff stream
  | connected now nowTs conn => exact connected_returns_iff t now nowTs conn
  | disconnected now nowTs heap conn => exact disconnected_returns_iff t now nowTs heap conn
  | checkForLeaks now threshold heap live => exact checkForLeaks_returns_iff t now threshold heap live
  | streamStatsSnapshot heap => exact Iff.rfl

theorem callbacks_return_iff (calls : List Call) (t : Tracker) :
    Run (fun t call u => u = t.exec call ∧ Returns t call) init calls t ↔
      Run (fun t call u => u = t.exec call ∧ Anticipated t call) init calls t := by
  have hiff (t : Tracker) (call : Call) (u : Tracker) :
      (u = t.exec call ∧ Returns t call) ↔ (u = t.exec call ∧ Anticipated t call) :=
    and_congr_right fun _ => returns_iff t call
  exact ⟨Run.mono fun t call u => (hiff t call u).mp, Run.mono fun t call u => (hiff t call u).mpr⟩

/-- A stream that this tracker never saw open: its record has no duration to format. -/
theorem callbacks_return_fails :
    ¬∀ (calls : List Call) (t : Tracker), Run (fun t call u => u = t.exec call) init calls t →
      ∀ call, Returns t call := by
  intro h
  have hreturns := h [] init .refl (.closedStream 2 (fun _ => none) (sampleStream 20))
  have hraises : (init.closedStream 2 (fun _ => none) (sampleStream 20)).2 ≠ .ok () := by decide +kernel
  exact hraises hreturns

end IpfsLite.Tracker
