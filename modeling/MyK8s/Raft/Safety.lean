import MyK8s.Raft.Leaders

/-!
# Safety of the cluster

The properties of Raft on the runs of the cluster, each read off the ledger: election safety, log
matching, leader completeness, state machine safety, and that the books of a leader are true.
-/

namespace MyK8s.Raft

open Consensus

/-! ## A run -/

/-- Three nodes. -/
def trio : Config where
  ids := {1, 2, 3}
  peers v := [1, 2, 3].filter (fun p => p ≠ v)
  nodup := by decide
  mem_peers v _ p := by
    simp only [List.mem_filter, Finset.mem_insert, Finset.mem_singleton, decide_eq_true_eq]
    simp

/-- Node 1 is elected in term 1 by node 2, replicates a command to node 2 and commits it. -/
def commitSchedule : List Move :=
  [.event 1 .tick 10, .exec 1, .exec 1, .exec 1,
    .event 2 (.message 1 (.requestVote ⟨1, 1, 0, 0⟩)) 10, .exec 2, .exec 2, .exec 2,
    .event 1 (.message 2 (.requestVoteResp ⟨1, true⟩)) 10, .exec 1, .exec 1,
    .event 1 (.propose [7]) 10, .exec 1, .exec 1, .exec 1,
    .event 2 (.message 1 (.appendEntries ⟨1, 1, 0, 0, [⟨1, 1, [7]⟩], 0⟩)) 10, .exec 2, .exec 2,
    .event 1 (.message 2 (.appendEntriesResp ⟨1, true, 1⟩)) 10, .exec 1]

/-- Then node 2 is elected in term 2 by node 3. -/
def takeoverSchedule : List Move :=
  [.event 2 .tick 10, .exec 2, .exec 2, .exec 2,
    .event 3 (.message 2 (.requestVote ⟨2, 2, 1, 1⟩)) 10, .exec 3, .exec 3, .exec 3,
    .event 2 (.message 3 (.requestVoteResp ⟨2, true⟩)) 10]

def trioStart : Cluster := Cluster.init trio (fun _ => 1)

def afterCommit : Cluster :=
  (trioStart.run trio commitSchedule).get (by decide +kernel)

def afterTakeover : Cluster :=
  (afterCommit.run trio takeoverSchedule).get (by decide +kernel)

theorem reachable_afterCommit : Cluster.Reachable trio afterCommit :=
  ⟨fun _ => 1, Cluster.reaches_run (Option.some_get _).symm⟩

theorem reaches_afterTakeover : Cluster.Reaches trio afterCommit afterTakeover :=
  Cluster.reaches_run (Option.some_get _).symm

/-! ## Two replicas at once -/

section Safety

variable {cfg : Config} {w w₁ w₂ : Cluster} {g : RaftLedger} {u v : NodeId}

/-- The invariant can be had for the nodes of two replicas as they stand. -/
theorem settle_two (hinv : Inv cfg w g) (hu : u ∈ cfg.ids) (hv : v ∈ cfg.ids) :
    ∃ w' g', Cluster.Reaches cfg w w' ∧ Inv cfg w' g' ∧ g.Le g' ∧
      Standing cfg g' u (w.replicas u).node ∧ Standing cfg g' v (w.replicas v).node := by
  obtain ⟨w₁, g₁, hreach₁, hinv₁, hle₁, _, _, hnode₁, hnil₁, hother₁⟩ := settle hinv hu
  obtain ⟨w₂, g₂, hreach₂, hinv₂, hle₂, hstand₂, _, hnode₂, hnil₂, hother₂⟩ := settle hinv₁ hv
  refine ⟨w₂, g₂, hreach₁.trans hreach₂, hinv₂, hle₁.trans hle₂, ?_, ?_⟩
  · by_cases huv : u = v
    · subst huv
      rwa [hnode₁] at hstand₂
    · have hs := (hinv₂.replicas u hu).synced_of_idle fun e he => by
        rw [hother₂ u huv, hnil₁] at he
        cases he
      have := hs.standing
      rwa [hother₂ u huv, hnode₁] at this
  · by_cases huv : v = u
    · subst huv
      rwa [hnode₁] at hstand₂
    · rwa [hother₁ v huv] at hstand₂

/-! ## Election safety -/

/-- **Election Safety.** Over the whole history, one node at most leads a term. -/
theorem election_safety (h : Cluster.Reachable cfg w₁) (h' : Cluster.Reaches cfg w₁ w₂)
    (hu : u ∈ cfg.ids) (hv : v ∈ cfg.ids) {t : ℕ} (hlu : w₁.LeaderOf u t)
    (hlv : w₂.LeaderOf v t) : u = v := by
  by_contra huv
  have hpu : cfg.peers u ≠ [] :=
    List.ne_nil_of_mem ((cfg.mem_peers u hu v).mpr ⟨hv, Ne.symm huv⟩)
  have hpv : cfg.peers v ≠ [] := List.ne_nil_of_mem ((cfg.mem_peers v hv u).mpr ⟨hu, huv⟩)
  obtain ⟨g₁, hinv₁⟩ := exists_inv h
  obtain ⟨g₂, hinv₂, hle⟩ := inv_reaches hinv₁ h'
  -- the reign of `u` is still on the ledger when `v` leads
  obtain ⟨r, hr, hid⟩ := (hinv₁.replicas u hu).leader hinv₁.ledger hpu hlu.1
  obtain ⟨s, hs, hsid⟩ := (hinv₂.replicas v hv).leader hinv₂.ledger hpv hlv.1
  rw [hlu.2] at hr
  rw [hlv.2] at hs
  obtain ⟨r', hr', hrid', _⟩ := hle.lead hr
  obtain rfl := Option.some.inj (hr'.symm.trans hs)
  exact huv (hid.symm.trans (hrid'.symm.trans hsid))

theorem election_safety_trio :
    afterCommit.LeaderOf 1 1 ∧ afterTakeover.LeaderOf 2 2 ∧
      ∀ v ∈ trio.ids, afterTakeover.LeaderOf v 1 → (1 : NodeId) = v :=
  ⟨by decide +kernel, by decide +kernel, fun _ hv hl =>
    election_safety reachable_afterCommit reaches_afterTakeover (by decide) hv
      (by decide +kernel) hl⟩

/-! ## Log matching -/

/-- The log on disk is valid, also in the middle of a batch. -/
theorem disk_valid (hinv : Inv cfg w g) (hv : v ∈ cfg.ids) :
    Valid g (w.replicas v).disk.loadLog := by
  rcases (hinv.replicas v hv).state with hs | ⟨n, ev, timeout, done, base, hb⟩
  · rw [hs.disk.log]
    exact hs.standing.peer.log_valid
  · obtain ⟨k, g', hm, hpre, _⟩ := hb.disk_mirrors hinv.ledger
    rw [hm.log]
    exact hb.standing.peer.log_valid.anti hpre

theorem logs_valid (hinv : Inv cfg w g) (hu : u ∈ cfg.ids) (hv : v ∈ cfg.ids) :
    ∃ g', LedgerInv cfg.ids g' ∧ (∀ l ∈ w.logsOf u, Valid g' l.entries) ∧
      ∀ l ∈ w.logsOf v, Valid g' l.entries := by
  obtain ⟨w', g', _, hinv', hle, hsu, hsv⟩ := settle_two hinv hu hv
  refine ⟨g', hinv'.ledger, fun l hl => ?_, fun l hl => ?_⟩
  · rcases List.mem_cons.mp hl with rfl | hl
    · exact hsu.peer.log_valid
    · obtain rfl := List.mem_singleton.mp hl
      exact (disk_valid hinv hu).mono hle
  · rcases List.mem_cons.mp hl with rfl | hl
    · exact hsv.peer.log_valid
    · obtain rfl := List.mem_singleton.mp hl
      exact (disk_valid hinv hv).mono hle

theorem get_eq_of_take_eq {l l' : RaftLog} {k : ℕ} (h : l.entries.take k = l'.entries.take k)
    {j : ℕ} (hj : j ≤ k) : l.get j = l'.get j := by
  cases j with
  | zero => rfl
  | succ i =>
    have := congrArg (fun es => es[i]?) h
    rw [List.getElem?_take_of_lt hj, List.getElem?_take_of_lt hj] at this
    rw [RaftLog.get_succ, RaftLog.get_succ, this]

/-- **Log Matching.** Two logs of a cluster, in memory or on disk, with entries of one term at an
index agree up to that index; and an entry's index is its position. -/
theorem log_matching (h : Cluster.Reachable cfg w) :
    (∀ u ∈ cfg.ids, ∀ v ∈ cfg.ids, ∀ l ∈ w.logsOf u, ∀ l' ∈ w.logsOf v, ∀ i e e',
      l.get i = some e → l'.get i = some e' → e.term = e'.term → ∀ j ≤ i, l.get j = l'.get j) ∧
    ∀ v ∈ cfg.ids, ∀ l ∈ w.logsOf v, ∀ p e, l.get p = some e → e.index = p := by
  obtain ⟨g, hinv⟩ := exists_inv h
  refine ⟨fun u hu v hv l hl l' hl' i e e' he he' ht j hj => ?_, fun v hv l hl p e he => ?_⟩
  · obtain ⟨g', _, hvu, hvv⟩ := logs_valid hinv hu hv
    cases i with
    | zero => cases he
    | succ k =>
      rw [RaftLog.get_succ] at he he'
      exact get_eq_of_take_eq ((hvu l hl).matching (hvv l' hl') he he' ht) hj
  · obtain ⟨g', _, hval, _⟩ := logs_valid hinv hv hv
    cases p with
    | zero => cases he
    | succ k =>
      rw [RaftLog.get_succ] at he
      exact (hval l hl k e he).1

theorem log_matching_trio :
    (afterCommit.replicas 1).node.log.get 1 = some ⟨1, 1, [7]⟩ ∧
      (afterCommit.replicas 1).node.log.get 1 = (afterCommit.replicas 2).node.log.get 1 := by
  refine ⟨by decide +kernel, (log_matching reachable_afterCommit).1 1 (by decide) 2 (by decide) _
    List.mem_cons_self _ List.mem_cons_self 1 ⟨1, 1, [7]⟩ ⟨1, 1, [7]⟩ ?_ ?_ rfl 1 le_rfl⟩
  · decide +kernel
  · decide +kernel

/-! ## Leader completeness -/

/-- **Leader Completeness.** Every later leader of a later term has what a leader has committed. In
a cluster of one node this takes that the storage calls of the batch have been run. -/
theorem leader_completeness (h : Cluster.Reachable cfg w₁) (h' : Cluster.Reaches cfg w₁ w₂)
    (hv : v ∈ cfg.ids) (hu : u ∈ cfg.ids) {t b : ℕ} (hlv : w₁.LeaderOf v t)
    (hlu : w₂.LeaderOf u b) (ht : t < b) {i : ℕ} (hpos : 0 < i)
    (hi : i ≤ (w₁.replicas v).node.commitIndex)
    (hdurable : cfg.peers v ≠ [] ∨ ∀ e ∈ (w₁.replicas v).pending, e.isStore = false) :
    ∃ e, (w₁.replicas v).node.log.get i = some e ∧ (w₂.replicas u).node.log.get i = some e := by
  obtain ⟨g₁, hinv₁⟩ := exists_inv h
  obtain ⟨hlen, hsafe⟩ := (hinv₁.replicas v hv).leader_commit hinv₁.ledger hlv.1 hdurable
  obtain ⟨g₂, hinv₂, hle₁₂⟩ := inv_reaches hinv₁ h'
  obtain ⟨_, g₃, _, hinv₃, hle₂₃, hstand, _⟩ := settle hinv₂ hu
  -- the committed prefix is in the log of the later reign, which is the later leader's log
  obtain ⟨r, hr, _, hlog, _⟩ := leader_reign hstand.peer hlu.1
  rw [hlv.2] at hsafe
  rw [hlu.2] at hr
  have hpre := hinv₃.ledger.safe_in_log (hsafe.mono (hle₁₂.trans hle₂₃) le_rfl) ht.le hr
  rw [hlog] at hpre
  obtain ⟨k, rfl⟩ : ∃ k, i = k + 1 := ⟨i - 1, by omega⟩
  have hk : k < (w₁.replicas v).node.log.entries.length := lt_of_lt_of_le hi hlen
  refine ⟨(w₁.replicas v).node.log.entries[k], ?_, ?_⟩
  · rw [RaftLog.get_succ, List.getElem?_eq_getElem hk]
  · obtain ⟨s, hs⟩ := hpre
    rw [RaftLog.get_succ, ← hs, List.getElem?_append_left, List.getElem?_take_of_lt hi,
      List.getElem?_eq_getElem hk]
    rw [List.length_take_of_le hlen]
    exact hi

/-- A single node. -/
def solo : Config where
  ids := {1}
  peers _ := []
  nodup _ _ := List.nodup_nil
  mem_peers v hv p := by
    obtain rfl := Finset.mem_singleton.mp hv
    simp

/-- The node elects itself and commits a command that it has not stored. -/
def beforeCrash : Cluster :=
  ((Cluster.init solo (fun _ => 1)).run solo
    [.event 1 .tick 1, .exec 1, .event 1 (.propose [7]) 1]).get (by decide +kernel)

/-- It loses the command in a crash and elects itself again. -/
def afterCrash : Cluster :=
  (beforeCrash.run solo [.crash 1 1, .event 1 .tick 1]).get (by decide +kernel)

/-- A node without peers commits at once, before the `PersistEntries` of the same batch is run. -/
theorem solo_loses_commit :
    Cluster.Reachable solo beforeCrash ∧ Cluster.Reaches solo beforeCrash afterCrash ∧
      beforeCrash.LeaderOf 1 1 ∧ (beforeCrash.replicas 1).node.commitIndex = 1 ∧
      (beforeCrash.replicas 1).node.log.get 1 = some ⟨1, 1, [7]⟩ ∧
      afterCrash.LeaderOf 1 2 ∧ (afterCrash.replicas 1).node.log.get 1 = none := by
  refine ⟨⟨fun _ => 1, Cluster.reaches_run (Option.some_get _).symm⟩,
    Cluster.reaches_run (Option.some_get _).symm, ?_, ?_, ?_, ?_, ?_⟩
  all_goals decide +kernel

theorem leader_completeness_trio :
    ∃ e, (afterCommit.replicas 1).node.log.get 1 = some e ∧
      (afterTakeover.replicas 2).node.log.get 1 = some e :=
  leader_completeness reachable_afterCommit reaches_afterTakeover (by decide) (by decide)
    (t := 1) (b := 2) (by decide +kernel) (by decide +kernel) (by decide) (by decide)
    (by decide +kernel) (Or.inl (by decide))

/-! ## State machine safety -/

theorem safe_valid {ids : Finset NodeId} (hI : LedgerInv ids g) {t : ℕ} {P : List LogEntry}
    (h : Safe ids g t P) : Valid g P := by
  rcases h with rfl | ⟨t', P', _, ⟨⟨r, hr, hP'⟩, _⟩, hP⟩
  · exact valid_nil g
  · exact (hI.valid hr).anti (hP.trans hP')

/-- Only one entry is decided for an index. -/
theorem decided_unique {ids : Finset NodeId} (hI : LedgerInv ids g) {x y : LogEntry}
    (hx : Decided ids g x) (hy : Decided ids g y) (h : x.index = y.index) : x = y := by
  obtain ⟨t, P, hP, hxP⟩ := hx
  obtain ⟨s, R, hR, hyR⟩ := hy
  -- both entries stand in the longer one of the two prefixes
  have same : ∀ {L : List LogEntry}, Valid g L → x ∈ L → y ∈ L → x = y := by
    intro L hL hxL hyL
    have hc : Coherent L := fun k e hk => (hL k e hk).1
    have hx' := (hc.mem_iff.mp hxL).2
    rw [h, (hc.mem_iff.mp hyL).2] at hx'
    exact (Option.some.inj hx').symm
  rcases hI.safe_comparable hP hR with hle | hle
  · exact same (safe_valid hI hR) (hle.subset hxP) hyR
  · exact same (safe_valid hI hP) hxP (hle.subset hyR)

/-- Everything emitted is decided, over the ledger of the node as it stands. -/
theorem decided_of_emitted {g' : RaftLedger} (hinv : Inv cfg w g) (hv : v ∈ cfg.ids)
    (hle : g.Le g') (hstand : Standing cfg g' v (w.replicas v).node) :
    (∀ x ∈ w.emitted v, Decided cfg.ids g' x) ∧
      (cfg.peers v ≠ [] → ∀ x ∈ w.emittedOrLost v, Decided cfg.ids g' x) := by
  have hr := hinv.replicas v hv
  obtain ⟨_, _, _, _, _, _, hnow, _⟩ := settle hinv hv
  have hemitted : ∀ x ∈ w.emitted v, Decided cfg.ids g' x := by
    intro x hx
    rcases List.mem_append.mp hx with hx | hx
    · exact (hr.past x hx).mono hle
    · rw [hnow] at hx
      exact hstand.decided hx
  refine ⟨hemitted, fun hne x hx => ?_⟩
  rcases List.mem_append.mp hx with hx | hx
  · exact (hr.lost hne x hx).mono hle
  · exact hemitted x hx

theorem peers_ne_nil (hv : v ∈ cfg.ids) (hcard : 1 < cfg.ids.card) : cfg.peers v ≠ [] := by
  have := cfg.card_peers hv
  rintro hnil
  rw [hnil, List.length_nil] at this
  omega

/-- **State Machine Safety.** For an index, all nodes apply the same entry in all their
incarnations, and since its last restart each has applied the indices up to `last_applied` one
after the other. In a cluster of two nodes or more this takes in the entries that a batch was about
to apply when the node crashed. -/
theorem state_machine_safety (h : Cluster.Reachable cfg w) :
    (∀ u ∈ cfg.ids, ∀ v ∈ cfg.ids, ∀ x ∈ w.emitted u, ∀ y ∈ w.emitted v,
      x.index = y.index → x = y) ∧
    (1 < cfg.ids.card → ∀ u ∈ cfg.ids, ∀ v ∈ cfg.ids, ∀ x ∈ w.emittedOrLost u,
      ∀ y ∈ w.emittedOrLost v, x.index = y.index → x = y) ∧
    ∀ v ∈ cfg.ids, (w.emittedSinceRestart v).map LogEntry.index =
      List.range' 1 (w.replicas v).node.lastApplied := by
  obtain ⟨g, hinv⟩ := exists_inv h
  refine ⟨fun u hu v hv x hx y hy hxy => ?_, fun hcard u hu v hv x hx y hy hxy => ?_,
    fun v hv => ?_⟩
  · obtain ⟨_, g', _, hinv', hle, hsu, hsv⟩ := settle_two hinv hu hv
    exact decided_unique hinv'.ledger ((decided_of_emitted hinv hu hle hsu).1 x hx)
      ((decided_of_emitted hinv hv hle hsv).1 y hy) hxy
  · obtain ⟨_, g', _, hinv', hle, hsu, hsv⟩ := settle_two hinv hu hv
    exact decided_unique hinv'.ledger
      ((decided_of_emitted hinv hu hle hsu).2 (peers_ne_nil hu hcard) x hx)
      ((decided_of_emitted hinv hv hle hsv).2 (peers_ne_nil hv hcard) y hy) hxy
  · obtain ⟨_, _, _, _, _, hstand, hnow, _⟩ := settle hinv hv
    have hle : (w.replicas v).node.commitIndex ≤ (w.replicas v).node.log.entries.length :=
      hstand.peer.commit_le
    rw [hnow, (hstand.coherent.take _).map_index, List.length_take_of_le hle,
      hstand.books.applied]

theorem state_machine_safety_trio :
    (afterCommit.replicas 1).node.lastApplied = 1 ∧
      (afterCommit.emittedSinceRestart 1).map LogEntry.index =
        List.range' 1 (afterCommit.replicas 1).node.lastApplied ∧
      ∀ v ∈ trio.ids, ∀ y ∈ afterCommit.emitted v, y.index = 1 → ⟨1, 1, [7]⟩ = y :=
  ⟨by decide +kernel, (state_machine_safety reachable_afterCommit).2.2 1 (by decide),
    fun v hv y hy hi => (state_machine_safety reachable_afterCommit).1 1 (by decide) v hv
      ⟨1, 1, [7]⟩ (by decide +kernel) y hy hi.symm⟩

end Safety

end MyK8s.Raft
