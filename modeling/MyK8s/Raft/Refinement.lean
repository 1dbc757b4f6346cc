import MyK8s.Lib.LedgerSteps
import MyK8s.Raft.Cluster

/-!
# The state machine refines the ledger

The node seen from the ledger is `RaftNode.peer`. A message is `Backed` when the ledger bears out
what it says; the ledger only grows, so it stays so.

`step_simulates`: a step of a node on a backed event is a run of ledger steps of that replica. Its
sends are backed again, it applies exactly what has become committed, and the books of the node
(votes received, next and match indices) agree with the ledger after it.
-/

namespace MyK8s.Raft

open Consensus

instance : Stamped LogEntry := ⟨LogEntry.term, LogEntry.index⟩

abbrev RaftLedger := Ledger NodeId LogEntry

def Role.mode : Role → Mode
  | .follower => .follower
  | .candidate _ => .candidate
  | .leader _ _ => .leader

/-- What the ledger sees of a node. -/
def RaftNode.peer (n : RaftNode) : Peer NodeId LogEntry where
  term := n.currentTerm
  vote := n.votedFor
  log := n.log.entries
  mode := n.role.mode
  commit := n.commitIndex

theorem take_eq_of_isPrefix {α : Type*} {l l' : List α} (h : l <+: l') {n : ℕ}
    (hn : n ≤ l.length) : l'.take n = l.take n := by
  obtain ⟨s, rfl⟩ := h
  exact List.take_append_of_le_length hn

/-! ## What messages promise -/

/-- The message shows a piece of the log `l`, and a commit index inside what it shows. -/
structure Excerpt (ids : Finset NodeId) (g : RaftLedger) (req : AppendEntriesReq)
    (l : List LogEntry) : Prop where
  prev_term : (RaftLog.mk l).termAt req.prevLogIndex = some req.prevLogTerm
  entries : l.take req.prevLogIndex ++ req.entries <+: l
  commit_le : req.leaderCommit ≤ req.prevLogIndex + req.entries.length
  safe : Safe ids g req.term (l.take req.leaderCommit)

/-- The ledger bears out the packet. -/
def Backed (ids : Finset NodeId) (g : RaftLedger) (p : Packet) : Prop :=
  p.src ∈ ids ∧ p.dst ∈ ids ∧ p.src ≠ p.dst ∧
    match p.msg with
    | .requestVote req =>
      req.candidateId = p.src ∧ ∃ l, g.cand p.src req.term = some l ∧
        req.lastLogIndex = l.length ∧ req.lastLogTerm = lastTerm l
    | .requestVoteResp resp => resp.voteGranted = true → g.ballot p.src resp.term = some p.dst
    | .appendEntries req =>
      req.leaderId = p.src ∧ ∃ r, g.lead req.term = some r ∧ r.id = p.src ∧
        Excerpt ids g req r.log
    | .appendEntriesResp resp =>
      resp.success = true → resp.matchIndex ≤ g.acked p.src resp.term

/-- An event that can reach node `v`. -/
def Event.Backed (ids : Finset NodeId) (g : RaftLedger) (v : NodeId) : Event → Prop
  | .message src msg => Raft.Backed ids g ⟨src, v, msg⟩
  | _ => True

section Messages

variable {ids : Finset NodeId} {g g' : RaftLedger} {req : AppendEntriesReq} {l l' : List LogEntry}

theorem Excerpt.prev_le (h : Excerpt ids g req l) : req.prevLogIndex ≤ l.length :=
  RaftLog.le_lastIndex_of_termAt h.prev_term

theorem Excerpt.end_le (h : Excerpt ids g req l) :
    req.prevLogIndex + req.entries.length ≤ l.length := by
  have := h.entries.length_le
  rwa [List.length_append, List.length_take_of_le h.prev_le] at this

/-- What the message shows, together with what stands before it, is the log up to its end. -/
theorem Excerpt.take_eq (h : Excerpt ids g req l) :
    l.take (req.prevLogIndex + req.entries.length) = l.take req.prevLogIndex ++ req.entries := by
  have := List.prefix_iff_eq_take.mp h.entries
  rw [List.length_append, List.length_take_of_le h.prev_le] at this
  exact this.symm

theorem Excerpt.getElem? (h : Excerpt ids g req l) {i : ℕ} {x : LogEntry}
    (hx : req.entries[i]? = some x) : l[req.prevLogIndex + i]? = some x := by
  have hlt := (List.getElem?_eq_some_iff.mp hx).1
  have hlen : (l.take req.prevLogIndex).length = req.prevLogIndex :=
    List.length_take_of_le h.prev_le
  have := congrArg (fun k => k[req.prevLogIndex + i]?) h.take_eq
  rw [List.getElem?_take_of_lt (by omega), List.getElem?_append_right (by omega), hlen,
    Nat.add_sub_cancel_left] at this
  rw [this, hx]

theorem Excerpt.mono (hle : g.Le g') (hl : l <+: l') (h : Excerpt ids g req l) :
    Excerpt ids g' req l' := by
  have htake : ∀ n, n ≤ l.length → l'.take n = l.take n := fun _ => take_eq_of_isPrefix hl
  refine ⟨?_, ?_, h.commit_le, ?_⟩
  · have hterm := h.prev_term
    have hle := h.prev_le
    cases hp : req.prevLogIndex with
    | zero => rwa [hp] at hterm
    | succ k =>
      rw [hp, RaftLog.termAt_succ] at hterm
      rw [hp] at hle
      rw [RaftLog.termAt_succ]
      obtain ⟨s, rfl⟩ := hl
      show Option.map _ (l ++ s)[k]? = _
      rw [List.getElem?_append_left hle]
      exact hterm
  · rw [htake _ h.prev_le]
    exact h.entries.trans hl
  · rw [htake _ (h.commit_le.trans h.end_le)]
    exact h.safe.mono hle le_rfl

/-- The entries shown are numbered from the position after `prevLogIndex`. -/
theorem Excerpt.contiguous (h : Excerpt ids g req l) (hv : Valid g l) :
    ContiguousFrom req.prevLogIndex req.entries := by
  intro k e hk
  exact (hv _ e (h.getElem? hk)).1

theorem Backed.mono (hle : g.Le g') {p : Packet} (h : Backed ids g p) : Backed ids g' p := by
  obtain ⟨src, dst, msg⟩ := p
  obtain ⟨hsrc, hdst, hne, hmsg⟩ := h
  refine ⟨hsrc, hdst, hne, ?_⟩
  cases msg with
  | requestVote req =>
    obtain ⟨hid, l, hl, hlen, hterm⟩ := hmsg
    exact ⟨hid, l, hle.cand hl, hlen, hterm⟩
  | requestVoteResp resp => exact fun hg => hle.ballot (hmsg hg)
  | appendEntries req =>
    obtain ⟨hid, r, hr, hrid, hex⟩ := hmsg
    obtain ⟨r', hr', hid', _, hlog⟩ := hle.lead hr
    exact ⟨hid, r', hr', hid'.trans hrid, hex.mono hle hlog⟩
  | appendEntriesResp resp => exact fun hs => (hmsg hs).trans (hle.acked _ _)

theorem Event.Backed.mono (hle : g.Le g') {v : NodeId} {ev : Event} (h : ev.Backed ids g v) :
    ev.Backed ids g' v := by
  cases ev with
  | message src msg => exact Raft.Backed.mono hle h
  | _ => trivial

/-- Backed AppendEntries messages have contiguous entries. -/
theorem Event.Backed.contiguous (hI : LedgerInv ids g) {v : NodeId} {ev : Event}
    (h : ev.Backed ids g v) : ev.Contiguous := by
  cases ev with
  | message src msg =>
    cases msg with
    | appendEntries req =>
      obtain ⟨_, _, _, _, r, hr, _, hex⟩ := h
      exact hex.contiguous (hI.valid hr)
    | _ => trivial
  | _ => trivial

end Messages

/-! ## The books of a node -/

/-- The leader's indices for peer `p` are inside its log and inside what the peer acknowledged. -/
def Tracks (g : RaftLedger) (n : RaftNode) (nextIndex matchIndex : PeerMap) (p : NodeId) : Prop :=
  ∃ x m, nextIndex p = some x ∧ matchIndex p = some m ∧ 1 ≤ x ∧ x ≤ n.log.lastIndex + 1 ∧
    m ≤ g.acked p n.currentTerm

structure Books (cfg : Config) (g : RaftLedger) (v : NodeId) (n : RaftNode) : Prop where
  id : n.id = v
  peers : n.peers = cfg.peers v
  applied : n.lastApplied = n.commitIndex
  votes : ∀ {votes}, n.role = .candidate votes →
    votes ⊆ cfg.ids ∧ ∀ q ∈ votes, g.ballot q n.currentTerm = some v
  tracks : ∀ {nextIndex matchIndex}, n.role = .leader nextIndex matchIndex →
    ∀ p ∈ cfg.peers v, Tracks g n nextIndex matchIndex p

theorem Books.mono {cfg : Config} {g g' : RaftLedger} (hle : g.Le g') {v : NodeId} {n : RaftNode}
    (h : Books cfg g v n) : Books cfg g' v n where
  id := h.id
  peers := h.peers
  applied := h.applied
  votes hr := ⟨(h.votes hr).1, fun q hq => hle.ballot ((h.votes hr).2 q hq)⟩
  tracks hr p hp := by
    obtain ⟨x, m, hx, hm, h1, h2, h3⟩ := h.tracks hr p hp
    exact ⟨x, m, hx, hm, h1, h2, h3.trans (hle.acked _ _)⟩

/-! ## Counting members -/

section Counting

variable {cfg : Config} {v : NodeId}

theorem Config.peers_toFinset (hv : v ∈ cfg.ids) : (cfg.peers v).toFinset = cfg.ids.erase v := by
  ext p
  rw [List.mem_toFinset, cfg.mem_peers v hv, Finset.mem_erase]
  exact and_comm

theorem Config.card_peers (hv : v ∈ cfg.ids) : (cfg.peers v).length + 1 = cfg.ids.card := by
  rw [← List.toFinset_card_of_nodup (cfg.nodup v hv), cfg.peers_toFinset hv,
    Finset.card_erase_add_one hv]

/-- `majority()` counts more than half of the cluster. -/
theorem isMajority_of_card {n : RaftNode} (hv : v ∈ cfg.ids) (hp : n.peers = cfg.peers v)
    {Q : Finset NodeId} (hQ : Q ⊆ cfg.ids) (hcard : n.majority ≤ Q.card) :
    IsMajority cfg.ids Q := by
  refine ⟨hQ, ?_⟩
  unfold RaftNode.majority at hcard
  rw [hp] at hcard
  have := cfg.card_peers hv
  omega

/-- The replicas that hold index `i`, as a set. -/
theorem exists_holders {n : RaftNode} (hv : v ∈ cfg.ids) (hp : n.peers = cfg.peers v)
    (matchIndex : PeerMap) (i : ℕ) :
    ∃ Q ⊆ cfg.ids, Q.card = n.holders matchIndex i ∧
      ∀ q ∈ Q, q = v ∨ (q ∈ cfg.peers v ∧ i ≤ (matchIndex q).getD 0) := by
  have hnd := (cfg.nodup v hv).filter (fun p => decide ((matchIndex p).getD 0 ≥ i))
  have hmem : ∀ q, q ∈ (cfg.peers v).filter (fun p => decide ((matchIndex p).getD 0 ≥ i)) →
      q ∈ cfg.peers v ∧ i ≤ (matchIndex q).getD 0 := by
    intro q hq
    obtain ⟨h1, h2⟩ := List.mem_filter.mp hq
    exact ⟨h1, of_decide_eq_true h2⟩
  refine ⟨insert v ((cfg.peers v).filter
    (fun p => decide ((matchIndex p).getD 0 ≥ i))).toFinset, ?_, ?_, ?_⟩
  · intro q hq
    rcases Finset.mem_insert.mp hq with rfl | hq
    · exact hv
    · exact ((cfg.mem_peers v hv q).mp (hmem q (List.mem_toFinset.mp hq)).1).1
  · rw [Finset.card_insert_of_notMem, List.toFinset_card_of_nodup hnd]
    · unfold RaftNode.holders
      rw [hp, Nat.add_comm]
    · intro h
      exact ((cfg.mem_peers v hv v).mp (hmem v (List.mem_toFinset.mp h)).1).2 rfl
  · intro q hq
    rcases Finset.mem_insert.mp hq with rfl | hq
    · exact Or.inl rfl
    · exact Or.inr (hmem q (List.mem_toFinset.mp hq))

/-- An index that no peer has acknowledged is not held by a majority, unless there are no peers. -/
theorem not_committable_of_unmatched {n : RaftNode} (hne : n.peers ≠ []) {matchIndex : PeerMap}
    {i : ℕ} (h : ∀ p ∈ n.peers, (matchIndex p).getD 0 < i) :
    n.committable matchIndex i = false := by
  have hnil : n.peers.filter (fun p => decide ((matchIndex p).getD 0 ≥ i)) = [] := by
    rw [List.filter_eq_nil_iff]
    intro p hp
    have := h p hp
    simpa using this
  have hlen : 0 < n.peers.length := List.length_pos_iff.mpr hne
  have hlt : ¬ n.majority ≤ n.holders matchIndex i := by
    unfold RaftNode.majority RaftNode.holders
    rw [hnil, List.length_nil]
    omega
  unfold RaftNode.committable
  rw [decide_eq_false hlt, Bool.and_false]

end Counting

end MyK8s.Raft
