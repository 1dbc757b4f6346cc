import MyK8s.Raft.Safety

/-!
# The books of a leader

What a leader notes about a peer is so: its `next_index` and `match_index` lie inside its log, and
the peer holds everything up to the match index, in memory and on disk, for as long as it is in the
leader's term. And what it quotes from its log in a message was there when it was sent.
-/

namespace MyK8s.Raft

open Consensus

namespace Cluster

/-- What the leader `v` has booked for its peer `p` is so. -/
structure BookedTruly (w : Cluster) (v p : NodeId) (nextIndex matchIndex : ℕ) : Prop where
  next_pos : 1 ≤ nextIndex
  next_le : nextIndex ≤ (w.replicas v).node.log.lastIndex + 1
  match_le : matchIndex ≤ (w.replicas v).node.log.lastIndex
  agrees : (w.replicas p).node.currentTerm = (w.replicas v).node.currentTerm →
    ∀ l ∈ w.logsOf p, ∀ i ≤ matchIndex, l.get i = (w.replicas v).node.log.get i

/-- In `w` node `src` leads the term of the request, and has an entry of the term that the request
gives for the previous index. -/
def QuotedBy (w : Cluster) (src : NodeId) (req : AppendEntriesReq) : Prop :=
  w.LeaderOf src req.term ∧
    (w.replicas src).node.log.termAt req.prevLogIndex = some req.prevLogTerm

/-- `w` is a state in which the packet is the next thing that its sender does. -/
def Sending (w : Cluster) (p : Packet) : Prop :=
  ∃ rest, (w.replicas p.src).pending = .send p.dst p.msg :: rest

end Cluster

section Books

variable {cfg : Config} {w w' : Cluster} {g : RaftLedger} {v p : NodeId}

/-! ## Peers -/

/-- Each log of a replica, in memory or on disk, is the log of a peer that the ledger allows once
it has grown, in a term that the replica has reached. -/
theorem exists_peer_of_log (hinv : Inv cfg w g) (hv : v ∈ cfg.ids) {l : RaftLog}
    (hl : l ∈ w.logsOf v) :
    ∃ (k : Peer NodeId LogEntry) (g' : RaftLedger), PeerInv cfg.ids g' v k ∧ g.Le g' ∧
      k.log = l.entries ∧ k.term ≤ (w.replicas v).node.currentTerm := by
  rcases List.mem_cons.mp hl with rfl | hl
  · obtain ⟨_, g', _, _, hle, hstand, _⟩ := settle hinv hv
    exact ⟨_, g', hstand.peer, hle, rfl, le_rfl⟩
  · obtain rfl := List.mem_singleton.mp hl
    rcases (hinv.replicas v hv).state with hs | ⟨n, ev, timeout, done, base, hb⟩
    · exact ⟨_, g, hs.standing.peer, Ledger.Le.refl g, hs.disk.log.symm, le_rfl⟩
    · obtain ⟨k, g', hm, _, hsound⟩ := hb.disk_mirrors hinv.ledger
      refine ⟨_, g', hsound.peer, hsound.grows.toLe, hm.log.symm, ?_⟩
      -- the term on disk is that of the node before the step or after it
      obtain ⟨_, hsim⟩ := stepShell_simulates hv hinv.ledger hb.standing.peer hb.standing.books
        hb.standing.settled hb.event timeout
      have hterm := (Acts.sound hsim.acts hinv.ledger hb.standing.peer).term_le
      rw [hb.step] at hterm
      have hdisk := hm.hardState
      rw [hb.disk, loadHardState_diskAfter, hb.mirrors.hardState] at hdisk
      show k.currentTerm ≤ (w.replicas v).node.currentTerm
      split at hdisk
      · exact (congrArg HardState.currentTerm hdisk).ge
      · exact (congrArg HardState.currentTerm hdisk).ge.trans hterm

/-- A log of the leader's term holds what its replica acknowledged in that term. -/
theorem holds_acked (hinv : Inv cfg w g) (hp : p ∈ cfg.ids) {t : ℕ} {r : Reign NodeId LogEntry}
    (hr : g.lead t = some r) (hterm : (w.replicas p).node.currentTerm = t) {m : ℕ}
    (hm : m ≤ g.acked p t) (hlen : m ≤ r.log.length) {l : RaftLog} (hl : l ∈ w.logsOf p) :
    r.log.take m <+: l.entries := by
  rcases Nat.eq_zero_or_pos m with rfl | hpos
  · exact List.nil_prefix
  obtain ⟨k, g', hk, hle, hlog, hkt⟩ := exists_peer_of_log hinv hp hl
  obtain ⟨r', hr', _, _, hext⟩ := hle.lead hr
  have hack : m ≤ g'.acked p t := hm.trans (hle.acked p t)
  have hacked : Acked g' p t (r.log.take m) :=
    ⟨⟨r', hr', (List.take_prefix _ _).trans hext⟩, by rwa [List.length_take_of_le hlen]⟩
  rcases hk.holds hacked with hpre | ⟨t', _, hlt, hlt', _⟩
  · rwa [hlog] at hpre
  · -- no term lies between the leader's and the peer's
    rw [hterm] at hkt
    omega

theorem bookedTruly (hinv : Inv cfg w g) (hv : v ∈ cfg.ids) {nextIndex matchIndex : PeerMap}
    (hrole : (w.replicas v).node.role = .leader nextIndex matchIndex) (hp : p ∈ cfg.peers v) :
    ∃ x m, nextIndex p = some x ∧ matchIndex p = some m ∧ w.BookedTruly v p x m := by
  obtain ⟨hpid, hne⟩ := (cfg.mem_peers v hv p).mp hp
  obtain ⟨w', g', _, hinv', _, hstand, _, _, _, hother⟩ := settle hinv hv
  have hlead : (w.replicas v).node.role.isLeader = true := by rw [hrole]; rfl
  obtain ⟨x, m, hx, hm, hpos, hnext, hack⟩ := hstand.books.tracks hrole p hp
  obtain ⟨r, hr, _, hlog, _⟩ := leader_reign hstand.peer hlead
  have hmatch := hack.trans (match_le hinv'.ledger hstand.peer hlead)
  refine ⟨x, m, hx, hm, hpos, hnext, hmatch, fun hterm l hl i hi => ?_⟩
  have hreplica := hother p hne
  have hl' : l ∈ w'.logsOf p := by
    unfold Cluster.logsOf
    rw [hreplica]
    exact hl
  have hterm' : (w'.replicas p).node.currentTerm = (w.replicas v).node.currentTerm := by
    rw [hreplica, hterm]
  have hlen : m ≤ r.log.length := by rwa [hlog]
  have hpre := holds_acked hinv' hpid hr hterm' hack hlen hl'
  rw [hlog] at hpre hlen
  refine get_eq_of_take_eq ?_ hi
  have := List.prefix_iff_eq_take.mp hpre
  rw [List.length_take_of_le hlen] at this
  exact this.symm

/-! ## Messages in flight -/

/-- A packet on the network was sent in some earlier state. -/
theorem exists_sending (h : Cluster.Reaches cfg w w') (hempty : w.network = []) {q : Packet}
    (hq : q ∈ w'.network) : ∃ w₀, Cluster.Reaches cfg w w₀ ∧ Cluster.Reaches cfg w₀ w' ∧
      q.src ∈ cfg.ids ∧ w₀.Sending q := by
  induction h with
  | refl =>
    rw [hempty] at hq
    cases hq
  | tail hreach hstep ih =>
    rename_i w₁ w₂
    obtain ⟨u, r, hu, hmoved, _⟩ := Cluster.step_moved hstep
    have earlier : q ∈ w₁.network → ∃ w₀, Cluster.Reaches cfg w w₀ ∧ Cluster.Reaches cfg w₀ w₂ ∧
        q.src ∈ cfg.ids ∧ w₀.Sending q := by
      intro hq
      obtain ⟨w₀, hfrom, hlater, hsrc, hsend⟩ := ih hq
      exact ⟨w₀, hfrom, hlater.tail hstep, hsrc, hsend⟩
    generalize w₂.network = network at hq hmoved
    cases hmoved with
    | event ev timeout hidle hoffer => exact earlier hq
    | crash timeout => exact earlier hq
    | exec e rest hpending =>
      rcases List.mem_append.mp hq with hq | hq
      · exact earlier hq
      · refine ⟨w₁, hreach, Relation.ReflTransGen.single hstep, ?_⟩
        cases e with
        | send dst msg =>
          obtain rfl := List.mem_singleton.mp hq
          exact ⟨hu, rest, hpending⟩
        | _ => cases hq

/-- A replica about to send has run its storage calls. -/
theorem synced_of_sending (hinv : Inv cfg w g) {q : Packet} (hq : q.src ∈ cfg.ids)
    (hsend : w.Sending q) : Synced cfg g q.src (w.replicas q.src) := by
  obtain ⟨rest, hpending⟩ := hsend
  rcases (hinv.replicas q.src hq).state with hs | ⟨n, ev, timeout, done, base, hb⟩
  · exact hs
  · -- a send stands behind all storage calls of its batch
    obtain ⟨t, ht⟩ := stepShell_eq n ev timeout
    have hstep := hb.step
    rw [ht, hpending] at hstep
    have hfirst : StoresFirst (done ++ .send q.dst q.msg :: rest) := by
      rw [← (Prod.mk.inj hstep).2]
      exact n.step_storesFirst ev
    obtain ⟨e, he, hstore⟩ := hb.more
    rw [hpending] at he
    rw [hfirst.after rfl e he] at hstore
    cases hstore

theorem quoted (h : Cluster.Reachable cfg w) {src dst : NodeId} {req : AppendEntriesReq}
    (hq : ⟨src, dst, .appendEntries req⟩ ∈ w.network) :
    ∃ w₀, Cluster.Reachable cfg w₀ ∧ Cluster.Reaches cfg w₀ w ∧
      w₀.Sending ⟨src, dst, .appendEntries req⟩ ∧ w₀.QuotedBy src req := by
  obtain ⟨timeouts, hreach⟩ := h
  obtain ⟨w₀, hfrom, hlater, hsrc, hsend⟩ := exists_sending hreach rfl hq
  obtain ⟨g, hinv⟩ := exists_inv ⟨timeouts, hfrom⟩
  have hs := synced_of_sending hinv hsrc hsend
  obtain ⟨rest, hpending⟩ := hsend
  obtain ⟨hlead, hterm, hprev⟩ := hs.quotes dst req (by rw [hpending]; exact List.mem_cons_self)
  exact ⟨w₀, ⟨timeouts, hfrom⟩, hlater, ⟨rest, hpending⟩, ⟨hlead, hterm⟩, hprev⟩

/-- What a message quotes is still in the log of its sender while that leads the term. -/
theorem quotedBy_of_leader (hinv : Inv cfg w g) {src dst : NodeId} {req : AppendEntriesReq}
    (hq : ⟨src, dst, .appendEntries req⟩ ∈ w.network) (hl : w.LeaderOf src req.term) :
    w.QuotedBy src req := by
  refine ⟨hl, ?_⟩
  obtain ⟨_, g', _, _, hle, hstand, _⟩ := settle hinv (hinv.network _ hq).1
  obtain ⟨_, _, _, _, r, hr, _, hex⟩ := (hinv.network _ hq).mono hle
  obtain ⟨r', hr', _, hlog, _⟩ := leader_reign hstand.peer hl.1
  rw [hl.2] at hr'
  obtain rfl := Option.some.inj (hr.symm.trans hr')
  have hprev := hex.prev_term
  rwa [hlog] at hprev

/-! ## The joint invariant -/

/-- **Leader bookkeeping is truthful**, and so are the messages in flight: a commit index lies
inside what the message shows, and the previous term is that of the sender's entry, when it was sent
and for as long as the sender leads. -/
theorem leader_bookkeeping (h : Cluster.Reachable cfg w) :
    (∀ v ∈ cfg.ids, ∀ nextIndex matchIndex,
      (w.replicas v).node.role = .leader nextIndex matchIndex → ∀ p ∈ cfg.peers v,
        ∃ x m, nextIndex p = some x ∧ matchIndex p = some m ∧ w.BookedTruly v p x m) ∧
    ∀ src dst req, ⟨src, dst, .appendEntries req⟩ ∈ w.network →
      req.leaderCommit ≤ req.prevLogIndex + req.entries.length ∧
      (w.LeaderOf src req.term → w.QuotedBy src req) ∧
      ∃ w₀, Cluster.Reachable cfg w₀ ∧ Cluster.Reaches cfg w₀ w ∧
        w₀.Sending ⟨src, dst, .appendEntries req⟩ ∧ w₀.QuotedBy src req := by
  obtain ⟨g, hinv⟩ := exists_inv h
  refine ⟨fun v hv nextIndex matchIndex hrole p hp => bookedTruly hinv hv hrole hp,
    fun src dst req hq => ⟨?_, quotedBy_of_leader hinv hq, quoted h hq⟩⟩
  obtain ⟨_, _, _, _, _, _, _, hex⟩ := hinv.network _ hq
  exact hex.commit_le

theorem leader_bookkeeping_trio :
    (∃ nextIndex matchIndex, (afterCommit.replicas 1).node.role = .leader nextIndex matchIndex ∧
      ∃ x m, nextIndex 2 = some x ∧ matchIndex 2 = some m ∧ afterCommit.BookedTruly 1 2 x m) ∧
    afterCommit.QuotedBy 1 ⟨1, 1, 0, 0, [⟨1, 1, [7]⟩], 0⟩ := by
  have hlead : (afterCommit.replicas 1).node.role.isLeader = true := by decide +kernel
  refine ⟨?_, ((leader_bookkeeping reachable_afterCommit).2 1 2 _ (by decide +kernel)).2.1
    (by decide +kernel)⟩
  cases hrole : (afterCommit.replicas 1).node.role with
  | leader nextIndex matchIndex =>
    exact ⟨nextIndex, matchIndex, rfl,
      (leader_bookkeeping reachable_afterCommit).1 1 (by decide) _ _ hrole 2 (by decide)⟩
  | _ =>
    rw [hrole] at hlead
    cases hlead

end Books

end MyK8s.Raft
