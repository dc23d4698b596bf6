import IpfsLite.TrackerTotals

namespace IpfsLite.Tracker

variable {t u : Tracker} {heap : Heap} {now threshold : ℚ} {live : LiveTable} {key : String} {r : StreamRecord}
  {rest : List (String × StreamRecord)} {leaked : List StreamRecord}

def Readable (heap : Heap) (r : StreamRecord) : Prop := ∃ reset, readReset (r.obj heap) = .ok reset

theorem not_readable_iff : ¬Readable heap r ↔ ∃ e, readReset (r.obj heap) = .error e := by
  unfold Readable
  cases readReset (r.obj heap) <;> simp

def refreshed (t : Tracker) (heap : Heap) (key : String) (r : StreamRecord) : Tracker :=
  (t.refreshAt heap key r).1

def reconciled (t : Tracker) (heap : Heap) (now : ℚ) (key : String) (r : StreamRecord) : Tracker :=
  ((t.refreshAt heap key r).1.finalizeRecord heap key (t.refreshAt heap key r).2 now).1

def flagged (t : Tracker) (heap : Heap) (key : String) (r : StreamRecord) : Tracker × StreamRecord :=
  (t.refreshAt heap key r).1.flagLeak key (t.refreshAt heap key r).2

def Suspect (now threshold : ℚ) (r : StreamRecord) : Prop :=
  r.suspectedLeak = false ∧ threshold < now - r.openedAt

theorem refreshAt_same (t : Tracker) (heap : Heap) (key : String) (r : StreamRecord) :
    SameStream r (t.refreshAt heap key r).2 ∧ (t.refreshAt heap key r).2.obj heap = r.obj heap ∧
      (t.refreshAt heap key r).2.suspectedLeak = r.suspectedLeak ∧
      (t.refreshed heap key r).hasNetwork = t.hasNetwork := by
  have hsame := (refreshRecordMetadata_frame t heap r).2
  have href := refreshRecordMetadata_refreshes t heap r
  refine ⟨hsame, ?_, href.suspected, href.network⟩
  change (t.refreshRecordMetadata heap r).2.streamRef.bind heap = r.streamRef.bind heap
  rw [hsame.2.2.2]

theorem refreshAt_finalizes (t : Tracker) (heap : Heap) (live : LiveTable) (key : String) (r : StreamRecord) :
    (recordStreamDead ((t.refreshAt heap key r).2.obj heap) ||
      ((t.refreshAt heap key r).1.hasNetwork && recordConnectionGone (t.refreshAt heap key r).2.peerId
        ((t.refreshAt heap key r).2.obj heap) live.ids live.peers)) =
      Finalizes heap live t.hasNetwork r := by
  obtain ⟨hsame, hobj, -, hnet⟩ := refreshAt_same t heap key r
  have hnet : (t.refreshAt heap key r).1.hasNetwork = t.hasNetwork := hnet
  rw [hobj, hsame.2.1, hnet]
  rfl

theorem refreshAt_suspect (t : Tracker) (heap : Heap) (now threshold : ℚ) (key : String) (r : StreamRecord) :
    ((t.refreshAt heap key r).2.suspectedLeak = false ∧ threshold < now - (t.refreshAt heap key r).2.openedAt) ↔
      Suspect now threshold r := by
  obtain ⟨hsame, -, hsusp, -⟩ := refreshAt_same t heap key r
  rw [hsusp, hsame.2.2.1]
  rfl

section Turns

variable (threshold rest leaked)

theorem leakLoop_reconciles (hfin : Finalizes heap live t.hasNetwork r) (hread : Readable heap r) :
    leakLoop heap now threshold live ((key, r) :: rest) t leaked =
      leakLoop heap now threshold live rest (t.reconciled heap now key r) leaked := by
  have hok := finalizeRecord_ok_iff heap now (t.refreshAt heap key r).1 key (t.refreshAt heap key r).2
  rw [(refreshAt_same t heap key r).2.1] at hok
  rw [leakLoop]
  dsimp only
  rw [refreshAt_finalizes, if_pos hfin]
  split
  · next v _ hres => rw [reconciled, hres]
  · next v e hres =>
    have hread := hok.mpr hread
    rw [hres] at hread
    contradiction

theorem leakLoop_unreadable {e : PyError} (hfin : Finalizes heap live t.hasNetwork r)
    (he : readReset (r.obj heap) = .error e) :
    leakLoop heap now threshold live ((key, r) :: rest) t leaked = (t.refreshed heap key r, .error e) := by
  have he' : readReset ((t.refreshAt heap key r).2.obj heap) = .error e := by
    rw [(refreshAt_same t heap key r).2.1, he]
  rw [leakLoop]
  dsimp only
  rw [refreshAt_finalizes, if_pos hfin]
  simp only [finalizeRecord, he']
  rfl

theorem leakLoop_flags (hfin : ¬Finalizes heap live t.hasNetwork r) (hage : Suspect now threshold r) :
    leakLoop heap now threshold live ((key, r) :: rest) t leaked =
      leakLoop heap now threshold live rest (t.flagged heap key r).1
        (leaked ++ [(t.flagged heap key r).2]) := by
  rw [leakLoop]
  dsimp only
  rw [refreshAt_finalizes, if_neg hfin, if_pos ((refreshAt_suspect ..).mpr hage)]
  rfl

theorem leakLoop_keeps (hfin : ¬Finalizes heap live t.hasNetwork r) (hage : ¬Suspect now threshold r) :
    leakLoop heap now threshold live ((key, r) :: rest) t leaked =
      leakLoop heap now threshold live rest (t.refreshed heap key r) leaked := by
  rw [leakLoop]
  dsimp only
  rw [refreshAt_finalizes, if_neg hfin, if_neg fun h => hage ((refreshAt_suspect ..).mp h)]
  rfl

end Turns

theorem leakLoop_induction (heap : Heap) (now threshold : ℚ) (live : LiveTable)
    {motive : Tracker → List (String × StreamRecord) → List StreamRecord →
      Tracker × Except PyError (List StreamRecord) → Prop}
    (done : ∀ t leaked, motive t [] leaked (t, .ok leaked))
    (reconciles : ∀ t key r rest leaked result, Finalizes heap live t.hasNetwork r → Readable heap r →
      motive (t.reconciled heap now key r) rest leaked result → motive t ((key, r) :: rest) leaked result)
    (unreadable : ∀ t key r rest leaked e, Finalizes heap live t.hasNetwork r →
      readReset (r.obj heap) = .error e →
      motive t ((key, r) :: rest) leaked (t.refreshed heap key r, .error e))
    (flags : ∀ t key r rest leaked result, ¬Finalizes heap live t.hasNetwork r → Suspect now threshold r →
      motive (t.flagged heap key r).1 rest (leaked ++ [(t.flagged heap key r).2]) result →
      motive t ((key, r) :: rest) leaked result)
    (keeps : ∀ t key r rest leaked result, ¬Finalizes heap live t.hasNetwork r → ¬Suspect now threshold r →
      motive (t.refreshed heap key r) rest leaked result → motive t ((key, r) :: rest) leaked result)
    (t : Tracker) (rest : List (String × StreamRecord)) (leaked : List StreamRecord) :
    motive t rest leaked (leakLoop heap now threshold live rest t leaked) := by
  induction rest generalizing t leaked with
  | nil => exact done t leaked
  | cons e rest ih =>
    obtain ⟨key, r⟩ := e
    by_cases hfin : Finalizes heap live t.hasNetwork r
    · cases hread : readReset (r.obj heap) with
      | ok reset =>
        rw [leakLoop_reconciles threshold rest leaked hfin ⟨reset, hread⟩]
        exact reconciles t key r rest leaked _ hfin ⟨reset, hread⟩ (ih _ leaked)
      | error e =>
        rw [leakLoop_unreadable threshold rest leaked hfin hread]
        exact unreadable t key r rest leaked e hfin hread
    · by_cases hage : Suspect now threshold r
      · rw [leakLoop_flags threshold rest leaked hfin hage]
        exact flags t key r rest leaked _ hfin hage (ih _ _)
      · rw [leakLoop_keeps threshold rest leaked hfin hage]
        exact keeps t key r rest leaked _ hfin hage (ih _ leaked)

/-! What a turn does to the table -/

theorem refreshed_get? (t : Tracker) (heap : Heap) (key : String) (r : StreamRecord) (k : String) :
    (t.refreshed heap key r).streams.get? k =
      if k = key then some (t.refreshAt heap key r).2 else t.streams.get? k := by
  have hframe := (refreshRecordMetadata_frame t heap r).1.streams
  rw [refreshed, refreshAt]
  dsimp only
  rw [Dict.get?_set, hframe]

theorem reconciled_get? (hread : Readable heap r) (t : Tracker) (now : ℚ) (key k : String) :
    (t.reconciled heap now key r).streams.get? k = if k = key then none else t.streams.get? k := by
  have hok := (finalizeRecord_ok_iff heap now (t.refreshAt heap key r).1 key (t.refreshAt heap key r).2).mpr
    (by rwa [(refreshAt_same t heap key r).2.1])
  rw [reconciled, finalizeRecord_streams hok, Dict.get?_erase]
  split_ifs with hk
  · rfl
  · exact (refreshed_get? t heap key r k).trans (if_neg hk)

theorem flagged_get? (t : Tracker) (heap : Heap) (key : String) (r : StreamRecord) (k : String) :
    (t.flagged heap key r).1.streams.get? k =
      if k = key then some (t.flagged heap key r).2 else t.streams.get? k := by
  have hset : (t.flagged heap key r).1.streams = (t.refreshed heap key r).streams.set key (t.flagged heap key r).2 :=
    rfl
  rw [hset, Dict.get?_set]
  split_ifs with hk
  · rfl
  · exact (refreshed_get? t heap key r k).trans (if_neg hk)

theorem refreshed_network (t : Tracker) (heap : Heap) (key : String) (r : StreamRecord) :
    (t.refreshed heap key r).hasNetwork = t.hasNetwork := (refreshAt_same t heap key r).2.2.2

theorem reconciled_network (t : Tracker) (heap : Heap) (now : ℚ) (key : String) (r : StreamRecord) :
    (t.reconciled heap now key r).hasNetwork = t.hasNetwork := by
  rw [reconciled, finalizeRecord_network]
  exact refreshed_network t heap key r

theorem flagged_network (t : Tracker) (heap : Heap) (key : String) (r : StreamRecord) :
    (t.flagged heap key r).1.hasNetwork = t.hasNetwork := refreshed_network t heap key r

/-! What a sweep does to the table -/

theorem leakLoop_others (hkey : key ∉ rest.map Prod.fst) :
    (leakLoop heap now threshold live rest t leaked).1.streams.get? key = t.streams.get? key := by
  revert hkey
  apply leakLoop_induction heap now threshold live (motive := fun t rest _ result =>
    key ∉ rest.map Prod.fst → result.1.streams.get? key = t.streams.get? key)
  · exact fun t leaked _ => rfl
  · intro t k r rest leaked result _ hread ih hkey
    rw [List.map_cons, List.mem_cons, not_or] at hkey
    rw [ih hkey.2, reconciled_get? hread, if_neg hkey.1]
  · intro t k r rest leaked e _ _ hkey
    rw [List.map_cons, List.mem_cons, not_or] at hkey
    exact (refreshed_get? t heap k r key).trans (if_neg hkey.1)
  · intro t k r rest leaked result _ _ ih hkey
    rw [List.map_cons, List.mem_cons, not_or] at hkey
    rw [ih hkey.2, flagged_get?, if_neg hkey.1]
  · intro t k r rest leaked result _ _ ih hkey
    rw [List.map_cons, List.mem_cons, not_or] at hkey
    rw [ih hkey.2, refreshed_get?, if_neg hkey.1]

theorem leakLoop_ok_iff (t : Tracker) (heap : Heap) (now threshold : ℚ) (live : LiveTable)
    (rest : List (String × StreamRecord)) (leaked : List StreamRecord) :
    (∃ flagged, (leakLoop heap now threshold live rest t leaked).2 = .ok flagged) ↔
      ∀ e ∈ rest, Finalizes heap live t.hasNetwork e.2 → Readable heap e.2 := by
  apply leakLoop_induction heap now threshold live (motive := fun t rest _ result =>
    (∃ flagged, result.2 = .ok flagged) ↔
      ∀ e ∈ rest, Finalizes heap live t.hasNetwork e.2 → Readable heap e.2)
  · intro t leaked
    exact iff_of_true ⟨leaked, rfl⟩ fun e he => absurd he List.not_mem_nil
  · intro t key r rest leaked result _ hread ih
    rw [ih, reconciled_network, List.forall_mem_cons]
    exact (and_iff_right fun _ => hread).symm
  · intro t key r rest leaked e hfin he
    refine iff_of_false (by simp) fun h => ?_
    exact not_readable_iff.mpr ⟨e, he⟩ (h _ List.mem_cons_self hfin)
  · intro t key r rest leaked result hfin _ ih
    rw [ih, flagged_network, List.forall_mem_cons]
    exact (and_iff_right fun h => absurd h hfin).symm
  · intro t key r rest leaked result hfin _ ih
    rw [ih, refreshed_network, List.forall_mem_cons]
    exact (and_iff_right fun h => absurd h hfin).symm

end IpfsLite.Tracker
