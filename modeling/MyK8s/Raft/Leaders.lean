import MyK8s.Raft.Invariant

/-!
# Leaders between two storage calls

A node becomes leader, and a leader appends, in memory first. `settle` runs the pending effects of
a replica, so that the invariant speaks about its node as it stands. What a later state must be
able to rely on even if the node crashes at once needs more: in a cluster with peers, a leader that
still has storage calls to run was on the ledger before the step, with the commit index it has
(`Busy.leader`).
-/

namespace MyK8s.Raft

open Consensus

/-! ## Steps that store and end as leader -/

namespace RaftNode

variable {n : RaftNode}

/-- Who hears from the leader of its term and is not that leader follows. -/
theorem onAppendEntries_follower {src : NodeId} {req : AppendEntriesReq}
    (hterm : req.term = n.currentTerm) (hl : n.role.isLeader = false) :
    (n.onAppendEntries src req).1.role = .follower := by
  by_cases hp : n.log.termAt req.prevLogIndex = some req.prevLogTerm
  · rw [onAppendEntries_of_match hterm hp, learned_role]
    exact heard_mode hl req.leaderId
  · rw [onAppendEntries_of_mismatch hterm hp]
    exact heard_mode hl _

/-- A follower stays one whatever message of its term it gets. -/
theorem onMessage_follower {src : NodeId} {msg : Message} (hle : msg.term ≤ n.currentTerm)
    (h : n.role = .follower) : (n.step (.message src msg)).1.role = .follower := by
  cases msg with
  | requestVote req =>
    rw [step, onRequestVote_eq hle]
    split
    · exact h
    · exact h
  | requestVoteResp resp =>
    rw [step]
    rcases onRequestVoteResp_cases src hle with heq | ⟨votes, hrole, _⟩
    · rw [heq]
      exact h
    · rw [h] at hrole
      cases hrole
  | appendEntries req =>
    rw [step]
    rcases Nat.lt_or_eq_of_le hle with hlt | hterm
    · rw [onAppendEntries_of_stale hlt]
      exact h
    · exact onAppendEntries_follower hterm (by rw [h]; rfl)
  | appendEntriesResp resp =>
    rw [step]
    rcases onAppendEntriesResp_cases src hle with heq | ⟨_, _, hrole, _⟩
    · rw [heq]
      exact h
    · rw [h] at hrole
      cases hrole

/-- A tick that leaves a leader with peers stores nothing: an election does not end as one. -/
theorem onTick_leader_idle (hpeers : n.peers ≠ []) (hl : n.onTick.1.role.isLeader = true)
    {e : Effect} (he : e ∈ n.onTick.2) : e.isStore = false := by
  rcases n.onTick_cases with ⟨t, heq⟩ | ⟨t, _, heq⟩ | ⟨_, heq⟩
  · rw [heq] at he
    cases he
  · rw [heq] at he
    exact Effect.not_isStore_of_isSend (broadcastAppend_isSend he)
  · rw [heq, startElection_eq, if_neg hpeers] at hl
    cases hl

end RaftNode

section Leaders

variable {cfg : Config} {g : RaftLedger} {v : NodeId} {n : RaftNode}

/-- A step that stores something and leaves a leader with peers started from a leader of the same
term with the same commit index, and has only added to its log. -/
theorem leader_of_store (hI : LedgerInv cfg.ids g) (h : Standing cfg g v n)
    {ev : Event} (hev : ev.Backed cfg.ids g v) (hne : cfg.peers v ≠ [])
    (hl : (n.step ev).1.role.isLeader = true) (hstore : ∃ e ∈ (n.step ev).2, e.isStore = true) :
    n.role.isLeader = true ∧ (n.step ev).1.currentTerm = n.currentTerm ∧
      (n.step ev).1.commitIndex = n.commitIndex ∧
      n.log.entries <+: (n.step ev).1.log.entries := by
  have hpeers : n.peers ≠ [] := by rwa [h.books.peers]
  have hbusy : ¬ ∀ e ∈ (n.step ev).2, e.isStore = false := by
    obtain ⟨e, he, hs⟩ := hstore
    intro hall
    simp [hall e he] at hs
  cases ev with
  | tick => exact absurd (fun e he => RaftNode.onTick_leader_idle hpeers hl he) hbusy
  | propose cmd =>
    rw [RaftNode.step] at hl ⊢
    cases hrole : n.role with
    | leader nextIndex matchIndex =>
      have hlead : n.role.isLeader = true := by rw [hrole]; rfl
      rw [RaftNode.onPropose_of_leader hrole, RaftNode.onPropose_commit hrole hpeers
        (h.settled hne) (fun p hp => ?_)]
      · exact ⟨rfl, rfl, rfl, List.prefix_append _ _⟩
      · rw [h.books.peers] at hp
        obtain ⟨x, m, _, hm, _, _, hack⟩ := h.books.tracks hrole p hp
        rw [hm]
        exact hack.trans (match_le hI h.peer hlead)
    | _ =>
      rw [RaftNode.onPropose_of_not_leader (by rw [hrole]; rfl), hrole] at hl
      cases hl
  | message src msg =>
    by_cases hle : msg.term ≤ n.currentTerm
    · cases msg with
      | requestVote req =>
        rw [RaftNode.step, RaftNode.onRequestVote_eq hle] at hl ⊢
        split at hl
        · rename_i hg
          rw [if_pos hg]
          exact ⟨hl, rfl, rfl, List.prefix_rfl⟩
        · rename_i hg
          rw [if_neg hg]
          exact ⟨hl, rfl, rfl, List.prefix_rfl⟩
      | requestVoteResp resp =>
        exact absurd (fun e he => RaftNode.onRequestVoteResp_idle hle he) hbusy
      | appendEntriesResp resp =>
        exact absurd (fun e he => RaftNode.onAppendEntriesResp_idle hle he) hbusy
      | appendEntries req =>
        rcases Nat.lt_or_eq_of_le hle with hlt | hterm
        · rw [RaftNode.step, RaftNode.onAppendEntries_of_stale hlt] at hbusy
          exact absurd (by simp [RaftNode.rejectAppend]) hbusy
        · rw [RaftNode.step, RaftNode.onAppendEntries_follower hterm
            (not_leader_of_backed h.peer hterm hev)] at hl
          cases hl
    · rw [RaftNode.step_higher (Nat.not_le.mp hle)] at hl
      have hfollower : ((n.adopt msg.term).step (.message src msg)).1.role = .follower :=
        RaftNode.onMessage_follower le_rfl rfl
      rw [hfollower] at hl
      cases hl

end Leaders

/-! ## Replicas as they stand -/

section Replicas

variable {cfg : Config} {w : Cluster} {g : RaftLedger} {v : NodeId} {r : Replica}

/-- A replica with storage calls to run, in memory a leader with peers, was a leader before. -/
theorem Busy.leader {n : RaftNode} {ev : Event} {timeout : ℕ} {done : List Effect}
    {base : RaftStorage} (hI : LedgerInv cfg.ids g)
    (hb : Busy cfg g v r n ev timeout done base) (hne : cfg.peers v ≠ [])
    (hl : r.node.role.isLeader = true) :
    n.role.isLeader = true ∧ r.node.currentTerm = n.currentTerm ∧
      r.node.commitIndex = n.commitIndex ∧ n.log.entries <+: r.node.log.entries := by
  obtain ⟨t, ht⟩ := stepShell_eq n ev timeout
  have hstep := hb.step
  rw [ht] at hstep
  obtain ⟨hnode, hbatch⟩ := Prod.mk.inj hstep
  rw [← hnode] at hl ⊢
  obtain ⟨e, he, hs⟩ := hb.more
  exact leader_of_store hI hb.standing hb.event hne hl
    ⟨e, by rw [hbatch]; exact List.mem_append_right _ he, hs⟩

/-- A leader with peers is on the ledger at once. -/
theorem ReplicaInv.leader (hI : LedgerInv cfg.ids g) (h : ReplicaInv cfg g v r)
    (hne : cfg.peers v ≠ []) (hl : r.node.role.isLeader = true) :
    ∃ reign, g.lead r.node.currentTerm = some reign ∧ reign.id = v := by
  rcases h.state with hs | ⟨n, ev, timeout, done, base, hb⟩
  · obtain ⟨reign, hr, hid, _⟩ := leader_reign hs.standing.peer hl
    exact ⟨reign, hr, hid⟩
  · obtain ⟨hnl, hterm, _, _⟩ := hb.leader hI hne hl
    obtain ⟨reign, hr, hid, _⟩ := leader_reign hb.standing.peer hnl
    exact ⟨reign, by rw [hterm]; exact hr, hid⟩

/-- What a leader has committed is safe at once, in a cluster with peers; without peers, when the
storage calls of its batch have been run. -/
theorem ReplicaInv.leader_commit (hI : LedgerInv cfg.ids g) (h : ReplicaInv cfg g v r)
    (hl : r.node.role.isLeader = true)
    (hdurable : cfg.peers v ≠ [] ∨ ∀ e ∈ r.pending, e.isStore = false) :
    r.node.commitIndex ≤ r.node.log.lastIndex ∧ Safe cfg.ids g r.node.currentTerm
      (r.node.log.entries.take r.node.commitIndex) := by
  rcases h.state with hs | ⟨n, ev, timeout, done, base, hb⟩
  · exact ⟨hs.standing.peer.commit_le, hs.standing.peer.commit_safe⟩
  · rcases hdurable with hne | hidle
    · obtain ⟨_, hterm, hcommit, hlog⟩ := hb.leader hI hne hl
      have hle : n.commitIndex ≤ n.log.entries.length := hb.standing.peer.commit_le
      rw [hterm, hcommit, take_eq_of_isPrefix hlog hle]
      exact ⟨hle.trans hlog.length_le, hb.standing.peer.commit_safe⟩
    · have hs := h.synced_of_idle hidle
      exact ⟨hs.standing.peer.commit_le, hs.standing.peer.commit_safe⟩

/-- **Settling.** The invariant can be had for the node of a replica as it stands, in a later state
in which only that replica has moved, and only to run the effects of its batch. -/
theorem settle (hinv : Inv cfg w g) (hv : v ∈ cfg.ids) :
    ∃ w' g', Cluster.Reaches cfg w w' ∧ Inv cfg w' g' ∧ g.Le g' ∧
      Standing cfg g' v (w.replicas v).node ∧
      w.emittedSinceRestart v =
        (w.replicas v).node.log.entries.take (w.replicas v).node.commitIndex ∧
      (w'.replicas v).node = (w.replicas v).node ∧ (w'.replicas v).pending = [] ∧
      ∀ u, u ≠ v → w'.replicas u = w.replicas u := by
  obtain ⟨w', hreach, hnode, hnil, happ, _, hother⟩ := Cluster.drain hv _ w rfl
  obtain ⟨g', hinv', hle⟩ := inv_reaches hinv hreach
  have hs := (hinv'.replicas v hv).synced_of_idle fun e he => by rw [hnil] at he; cases he
  have hstand := hs.standing
  have happlied := hs.applied
  rw [hnode] at hstand happlied
  rw [hnil, happ, show Effect.applies [] = [] from rfl, List.append_nil] at happlied
  exact ⟨w', g', hreach, hinv', hle, hstand, happlied, hnode, hnil, hother⟩

end Replicas

end MyK8s.Raft
