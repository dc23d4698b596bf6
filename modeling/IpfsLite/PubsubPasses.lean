import IpfsLite.PubsubHistory

namespace IpfsLite.PubsubAutoJoin

open Runs

def joins (cfg : Config) (s : Sys) : Event → Option String
  | .next _ =>
    match s.queue with
    | .join topic :: _ =>
      if s.baseCount cfg + cfg.maxExtra ≤ s.subscriptions.entries.length then none else some topic
    | _ => none
  | .initPubsub .. | .discoveryPass .. | .subscribe .. | .unsubscribe _ => none

def Confirmed (cfg : Config) (w : Watched) (e : Event) : Prop :=
  ∀ topic ∈ joins cfg w.sys e,
    Recent (fun sc => cfg.autoJoinMinPeers ≤ announced sc.peerTopics topic) cfg.joinConf w.scans

def NoForgivenMiss (cfg : Config) (w : Watched) (e : Event) : Prop :=
  ∀ topic ∈ joins cfg w.sys e, ∀ sc ∈ w.scans.take cfg.joinConf, ¬sc.forgives cfg topic

variable {cfg : Config} {w w' : Watched} {e : Event} {topic : String}

theorem joins_queued {s : Sys} (h : topic ∈ joins cfg s e) : .join topic ∈ s.queue := by
  cases e with
  | next result =>
    simp only [joins] at h
    split at h
    · next t rest hq =>
      split_ifs at h
      · contradiction
      · obtain rfl := Option.some.inj h
        rw [hq]
        exact List.mem_cons_self
    · contradiction
  | initPubsub peerId persisted => contradiction
  | discoveryPass running peerTopics order => contradiction
  | subscribe topic result => contradiction
  | unsubscribe topic => contradiction

theorem hit_iff (hmin : 1 ≤ cfg.autoJoinMinPeers) (sc : Scan) :
    sc.hit cfg topic ↔ cfg.autoJoinMinPeers ≤ announced sc.peerTopics topic := by
  unfold Scan.hit Config.minPeers
  omega

theorem confirmed_iff (hmin : 1 ≤ cfg.autoJoinMinPeers) (hw : Counted cfg w) :
    Confirmed cfg w e ↔ NoForgivenMiss cfg w e := by
  refine forall₂_congr fun topic ht => ?_
  have hhits : Recent (fun sc => sc.hit cfg topic ∨ sc.forgives cfg topic) cfg.joinConf w.scans :=
    (hw.backed topic).hits.le (hw.queued topic (joins_queued ht))
  constructor
  · intro h sc hsc hforgiven
    have hhit := (hit_iff hmin sc).mpr (h.2 sc hsc)
    exact Nat.not_lt.mpr hhit hforgiven.1
  · intro h
    refine ⟨hhits.1, fun sc hsc => ?_⟩
    have hhit := (hhits.2 sc hsc).resolve_right (h sc hsc)
    exact (hit_iff hmin sc).mp hhit

theorem joins_confirmed_iff (hmin : 1 ≤ cfg.autoJoinMinPeers) (events : List Event) (w : Watched) :
    Run (fun w e w' => watch cfg w e = some w' ∧ Confirmed cfg w e) .init events w ↔
      Run (fun w e w' => watch cfg w e = some w' ∧ NoForgivenMiss cfg w e) .init events w := by
  apply Run.congr_of_invariant (P := Counted cfg)
  · exact fun _ _ _ h hs => watch_counted h hs.1
  · exact fun _ _ _ h => and_congr_right fun _ => confirmed_iff hmin h
  · exact init_counted

def gapPasses : List Event :=
  [.discoveryPass true (Dict.ofList [("news", 2)]) ["news"], .discoveryPass true .empty ["news"],
    .discoveryPass true (Dict.ofList [("news", 2)]) ["news"]]

theorem joins_confirmed_fails :
    ¬∀ (cfg : Config) (events : List Event) (w w' : Watched) (e : Event), 1 ≤ cfg.autoJoinMinPeers →
      Run (fun w e w' => watch cfg w e = some w') .init events w → watch cfg w e = some w' →
        Confirmed cfg w e := by
  intro h
  obtain ⟨w, hrun, hjoins⟩ := exists_run (watch {}) .init gapPasses
    (fun w => joins {} w.sys (.next (some 0)) = some "news" ∧ (watch {} w (.next (some 0))).isSome ∧
      ¬Recent (fun sc => 2 ≤ (announced sc.peerTopics "news" : ℤ)) 2 w.scans) (by decide +kernel)
  obtain ⟨hjoin, hstep, hgap⟩ := of_decide_eq_true hjoins
  obtain ⟨w', hw'⟩ := Option.isSome_iff_exists.mp hstep
  exact hgap (h {} gapPasses w w' (.next (some 0)) (by decide) hrun hw' "news" hjoin)

instance (cfg : Config) (topic : String) : DecidablePred fun sc : Scan => sc.forgives cfg topic :=
  fun _ => inferInstanceAs (Decidable (_ ∧ _))

instance (cfg : Config) (w : Watched) (e : Event) : Decidable (NoForgivenMiss cfg w e) :=
  inferInstanceAs (Decidable (∀ topic ∈ joins cfg w.sys e, ∀ sc ∈ w.scans.take cfg.joinConf, ¬sc.forgives cfg topic))

/-- A miss takes all hits, and the pass after the next two joins. -/
def joinAfterGap : List Event :=
  [.discoveryPass true (Dict.ofList [("news", 2)]) ["news"], .discoveryPass true .empty ["news"],
    .discoveryPass true (Dict.ofList [("news", 2)]) ["news"], .discoveryPass true (Dict.ofList [("news", 3)]) ["news"],
    .next (some 0)]

theorem joins_confirmed_iff_gap : ∃ w, "news" ∈ w.sys.autoJoined ∧ Run (fun w e w' =>
    watch { leaveMisses := 1 } w e = some w' ∧ Confirmed { leaveMisses := 1 } w e) .init joinAfterGap w := by
  obtain ⟨w, hrun, hjoined⟩ := exists_run (fun w e => if NoForgivenMiss { leaveMisses := 1 } w e then
    watch { leaveMisses := 1 } w e else none) .init joinAfterGap (fun w => "news" ∈ w.sys.autoJoined) (by decide +kernel)
  refine ⟨w, of_decide_eq_true hjoined, (joins_confirmed_iff (by decide) joinAfterGap w).mpr ?_⟩
  apply hrun.mono
  intro u e v h
  split at h
  · next hmiss => exact ⟨h, hmiss⟩
  · contradiction

/-! The leave rule -/

def AutoMade : Option Todo → Prop
  | some (.rejoin _) | some (.join _) => True
  | some (.configured _) | some (.ownIpns _) | none => False

def DropsAutoJoined (cfg : Config) (w : Watched) (e : Event) (w' : Watched) : Prop :=
  match e with
  | .discoveryPass .. => ∀ topic ∈ w.sys.subscriptions.keys, topic ∉ w'.sys.subscriptions.keys →
      AutoMade (w.origin topic) ∧
        Recent (fun sc => announced sc.peerTopics topic < cfg.minPeers) cfg.leaveAfter w'.scans
  | .initPubsub .. | .next _ | .subscribe .. | .unsubscribe _ => True

def SparesOthers (cfg : Config) (w : Watched) : Event → Prop
  | .discoveryPass true peerTopics _ => ∀ topic ∈ w.sys.subscriptions.keys, ¬AutoMade (w.origin topic) →
      topic ∈ w.sys.protectedTopics cfg ∨ cfg.minPeers ≤ announced peerTopics topic ∨
        (topic ∉ w.sys.topicStats.keys ∧ announced peerTopics topic = 0) ∨
        (statOf w.sys.topicStats topic).misses + 1 < cfg.leaveAfter
  | .discoveryPass false .. | .initPubsub .. | .next _ | .subscribe .. | .unsubscribe _ => True

theorem leaveAfter_pos (cfg : Config) : 1 ≤ cfg.leaveAfter := by
  unfold Config.leaveAfter
  omega

variable {peerTopics : Dict String ℕ} {order : List String}

theorem mem_stale_iff (hn : order.Nodup) (s : Sys)
    (hknown : ∀ t ∈ s.topicStats.keys, t ∈ order) :
    topic ∈ Sys.stale cfg s (Sys.score cfg peerTopics order s.topicStats) ↔
      topic ∈ s.subscriptions.keys ∧ topic ∉ s.protectedTopics cfg ∧ topic ∈ order ∧
        announced peerTopics topic < cfg.minPeers ∧
        cfg.leaveAfter ≤ (statOf s.topicStats topic).misses + 1 := by
  have hpos := leaveAfter_pos cfg
  rw [Sys.stale, List.mem_filter, decide_eq_true_eq, score_get? cfg peerTopics hn]
  apply and_congr_right
  intro _
  apply and_congr_right
  intro _
  split_ifs with ht
  · rw [Option.any_some, decide_eq_true_eq, and_iff_right ht, Sys.scoreTopic]
    split_ifs <;> dsimp only <;> omega
  · rw [Dict.get?_eq_none.mpr fun hmem => ht (hknown topic hmem)]
    simp [ht]

structure Scored (s : Sys) (peerTopics : Dict String ℕ) (order : List String) : Prop where
  nodup : order.Nodup
  mem_iff : ∀ t, t ∈ order ↔ t ∈ s.topicStats.keys ∨ 1 ≤ announced peerTopics t

theorem pass_scored {s s' : Sys} (h : step cfg s (.discoveryPass true peerTopics order) = some s') :
    Scored s peerTopics order ∧ s' = s.leavePass cfg peerTopics order := by
  rw [step, if_neg (by simp)] at h
  split_ifs at h with hok
  obtain ⟨-, hn, hsub, hknown, hannounced⟩ := hok
  refine ⟨⟨hn, fun t => ⟨hsub t, ?_⟩⟩, (Option.some.inj h).symm⟩
  rintro (ht | ht)
  · exact hknown t ht
  · unfold announced at ht
    cases hget : peerTopics.get? t with
    | none => simp [hget] at ht
    | some c =>
      rw [hget, Option.getD_some] at ht
      exact hannounced (t, c) (Dict.get?_eq_some.mp hget) ht

theorem dropped_missed (hw : Counted cfg w) (hs : Scored w.sys peerTopics order)
    (h : topic ∈ Sys.stale cfg w.sys (Sys.score cfg peerTopics order w.sys.topicStats)) :
    Recent (fun sc => announced sc.peerTopics topic < cfg.minPeers) cfg.leaveAfter
      (⟨peerTopics, w.sys.topicStats⟩ :: w.scans) := by
  have hknown : ∀ t ∈ w.sys.topicStats.keys, t ∈ order := fun t ht => (hs.mem_iff t).mpr (.inl ht)
  obtain ⟨-, -, hscored, hmiss, hmisses⟩ := (mem_stale_iff hs.nodup w.sys hknown).mp h
  have hbacked := score_backed cfg peerTopics hs.nodup hknown (hw.backed topic)
  refine (hbacked.misses.le ?_).mono fun sc hsc => Nat.lt_of_not_le hsc
  rw [statOf, score_get? cfg peerTopics hs.nodup, if_pos hscored, Option.getD_some, Sys.scoreTopic]
  split_ifs <;> dsimp only <;> omega

theorem dropsAutoJoined_iff (hw : Counted cfg w) (hs : watch cfg w e = some w') :
    DropsAutoJoined cfg w e w' ↔ SparesOthers cfg w e := by
  obtain ⟨hstep, hnext⟩ := watch_step hs
  cases e with
  | discoveryPass running peerTopics order =>
    cases running with
    | false =>
      have hsame : some w.sys = some w'.sys := hstep
      refine iff_of_true (fun topic ht hnot => absurd ht ?_) trivial
      rw [Option.some.inj hsame]
      exact hnot
    | true =>
      obtain ⟨hscored, hleave⟩ := pass_scored hstep
      have hknown : ∀ t ∈ w.sys.topicStats.keys, t ∈ order := fun t ht => (hscored.mem_iff t).mpr (.inl ht)
      have hdropped (topic : String) (ht : topic ∈ w.sys.subscriptions.keys) :
          topic ∉ w'.sys.subscriptions.keys ↔
            topic ∈ Sys.stale cfg w.sys (Sys.score cfg peerTopics order w.sys.topicStats) := by
        rw [hleave]
        change topic ∉ (Dict.eraseAll _ _).keys ↔ _
        rw [Dict.mem_keys_eraseAll, and_iff_left ht, not_not]
      refine forall₂_congr fun topic ht => ?_
      rw [hdropped topic ht]
      constructor
      · intro h hother
        by_contra hnot
        simp only [not_or, not_and, not_le, not_lt] at hnot
        obtain ⟨hfree, hmiss, hunknown, hmisses⟩ := hnot
        refine hother (h ?_).1
        refine (mem_stale_iff hscored.nodup w.sys hknown).mpr ⟨ht, hfree, ?_, hmiss, hmisses⟩
        refine (hscored.mem_iff topic).mpr (or_iff_not_imp_left.mpr fun hnew => ?_)
        exact Nat.one_le_iff_ne_zero.mpr (hunknown hnew)
      · intro h hstale
        obtain ⟨-, hfree, hmem, hmiss, hmisses⟩ := (mem_stale_iff hscored.nodup w.sys hknown).mp hstale
        constructor
        · by_contra hother
          rcases h hother with hprot | hhit | ⟨hnew, hzero⟩ | hleft
          · exact hfree hprot
          · omega
          · have hknown' := ((hscored.mem_iff topic).mp hmem).resolve_left hnew
            omega
          · omega
        · rw [hnext]
          exact dropped_missed hw hscored hstale
  | initPubsub peerId persisted => exact iff_of_true trivial trivial
  | next result => exact iff_of_true trivial trivial
  | subscribe topic result => exact iff_of_true trivial trivial
  | unsubscribe topic => exact iff_of_true trivial trivial

theorem drops_autoJoined_iff (cfg : Config) (events : List Event) (w : Watched) :
    Run (fun w e w' => watch cfg w e = some w' ∧ DropsAutoJoined cfg w e w') .init events w ↔
      Run (fun w e w' => watch cfg w e = some w' ∧ SparesOthers cfg w e) .init events w := by
  apply Run.congr_of_invariant (P := Counted cfg)
  · exact fun _ _ _ h hs => watch_counted h hs.1
  · exact fun _ _ _ h => and_congr_right fun hs => dropsAutoJoined_iff h hs
  · exact init_counted

def chatPasses : List Event :=
  .subscribe "chat" (some 0) ::
    List.replicate 3 (.discoveryPass true (Dict.ofList [("chat", 1)]) ["chat"])

theorem drops_autoJoined_fails :
    ¬∀ (cfg : Config) (events : List Event) (w w' : Watched) (e : Event),
      Run (fun w e w' => watch cfg w e = some w') .init events w → watch cfg w e = some w' →
        DropsAutoJoined cfg w e w' := by
  intro h
  let pass : Event := .discoveryPass true (Dict.ofList [("chat", 1)]) ["chat"]
  obtain ⟨w, hrun, hdrops⟩ := exists_run (watch {}) .init chatPasses
    (fun w => "chat" ∈ w.sys.subscriptions.keys ∧ w.origin "chat" = none ∧
      (watch {} w pass).any fun w' => "chat" ∉ w'.sys.subscriptions.keys) (by decide +kernel)
  obtain ⟨hmem, hcall, hgone⟩ := of_decide_eq_true hdrops
  obtain ⟨w', hw', hgone⟩ := (Option.any_eq_true _ _).mp hgone
  have hauto := (h {} chatPasses w w' pass hrun hw' "chat" hmem (of_decide_eq_true hgone)).1
  rw [hcall] at hauto
  exact hauto

end IpfsLite.PubsubAutoJoin
