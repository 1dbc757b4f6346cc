import MyK8s.Raft.Core

/-!
# What a step does

Equations for the handlers of `RaftNode.step`, so that later modules never open a handler.

A message with a higher term is the message handled by the node that has already stepped down,
after a `Persist` (`step_higher`); the equations of the four message handlers are therefore stated
at a term the node has reached. `mergeEntries_spec` says what the append loop leaves and what it
persists, `tryCommit_cases` which index a leader commits.
-/

namespace MyK8s.Raft

/-! ## Kinds of effects -/

/-- Effects that write to the storage. -/
def Effect.isStore : Effect → Bool
  | .persist => true
  | .persistTruncate _ => true
  | .persistEntries _ => true
  | _ => false

def Effect.isSend : Effect → Bool
  | .send _ _ => true
  | _ => false

def Effect.isApply : Effect → Bool
  | .apply _ => true
  | _ => false

@[simp] theorem Effect.isStore_send (dst : NodeId) (msg : Message) :
    (Effect.send dst msg).isStore = false := rfl

@[simp] theorem Effect.isStore_proposeRejected (hint : Option NodeId) :
    (Effect.proposeRejected hint).isStore = false := rfl

/-- The entries applied by a batch, in order. -/
def Effect.applies (effects : List Effect) : List LogEntry :=
  effects.filterMap fun
    | .apply e => some e
    | _ => none

/-- The packets sent by a batch, in order. -/
def Effect.sends (effects : List Effect) : List (NodeId × Message) :=
  effects.filterMap fun
    | .send dst msg => some (dst, msg)
    | _ => none

def Message.term : Message → ℕ
  | .requestVote req => req.term
  | .requestVoteResp resp => resp.term
  | .appendEntries req => req.term
  | .appendEntriesResp resp => resp.term

namespace RaftNode

/-! ## Higher terms -/

/-- The node after `maybe_step_down` to a higher term. -/
def adopt (n : RaftNode) (t : ℕ) : RaftNode :=
  { n with
    currentTerm := t
    votedFor := none
    role := .follower
    ticksSinceReset := 0 }

theorem maybeStepDown_of_le {n : RaftNode} {t : ℕ} (h : t ≤ n.currentTerm) :
    n.maybeStepDown t = (n, none) := if_pos h

theorem maybeStepDown_of_lt {n : RaftNode} {t : ℕ} (h : n.currentTerm < t) :
    n.maybeStepDown t = (n.adopt t, some .persist) := if_neg (Nat.not_le.mpr h)

/-- The all-RPC rule: a message with a higher term is handled by the node that has adopted the
term, after a `Persist`. -/
theorem step_higher {n : RaftNode} {src : NodeId} {msg : Message} (h : n.currentTerm < msg.term) :
    n.step (.message src msg) =
      (((n.adopt msg.term).step (.message src msg)).1,
        .persist :: ((n.adopt msg.term).step (.message src msg)).2) := by
  have hdown := maybeStepDown_of_lt h
  have hstay : (n.adopt msg.term).maybeStepDown msg.term = (n.adopt msg.term, none) :=
    maybeStepDown_of_le le_rfl
  cases msg with
  | requestVote req =>
    change n.maybeStepDown req.term = _ at hdown
    change (n.adopt req.term).maybeStepDown req.term = _ at hstay
    simp only [step, onRequestVote, Message.term, hdown, hstay]
    rfl
  | requestVoteResp resp =>
    change n.maybeStepDown resp.term = _ at hdown
    change (n.adopt resp.term).maybeStepDown resp.term = _ at hstay
    simp only [step, onRequestVoteResp, Message.term, hdown, hstay]
    rfl
  | appendEntries req =>
    change n.maybeStepDown req.term = _ at hdown
    change (n.adopt req.term).maybeStepDown req.term = _ at hstay
    simp only [step, onAppendEntries, Message.term, hdown, hstay]
    split
    · rfl
    · split <;> rfl
  | appendEntriesResp resp =>
    change n.maybeStepDown resp.term = _ at hdown
    change (n.adopt resp.term).maybeStepDown resp.term = _ at hstay
    simp only [step, onAppendEntriesResp, Message.term, hdown, hstay]
    split
    · rfl
    · rfl

/-! ## Elections -/

/-- A node that has opened an election. -/
def standing (n : RaftNode) : RaftNode :=
  { n with
    currentTerm := n.currentTerm + 1
    votedFor := some n.id
    role := .candidate {n.id}
    ticksSinceReset := 0
    leaderHint := none }

/-- The request that a node which has opened an election sends to its peers. -/
def voteRequest (n : RaftNode) : RequestVoteReq where
  term := n.currentTerm
  candidateId := n.id
  lastLogIndex := n.log.lastIndex
  lastLogTerm := n.log.lastTerm

/-- A candidate that has won. -/
def elected (n : RaftNode) : RaftNode :=
  { n with
    role := .leader (fun p => if p ∈ n.peers then some (n.log.lastIndex + 1) else none)
      (fun p => if p ∈ n.peers then some 0 else none)
    leaderHint := some n.id
    ticksSinceReset := 0 }

theorem tryWin_of_lt {n : RaftNode} {votes : Finset NodeId} (hr : n.role = .candidate votes)
    (h : votes.card < n.majority) : n.tryWin = (n, []) := by
  unfold tryWin
  rw [hr]
  exact if_pos h

theorem tryWin_of_majority {n : RaftNode} {votes : Finset NodeId}
    (hr : n.role = .candidate votes) (h : n.majority ≤ votes.card) :
    n.tryWin = (n.elected, n.elected.broadcastAppend) := by
  unfold tryWin
  rw [hr]
  exact if_neg (Nat.not_lt.mpr h)

theorem majority_le_one {n : RaftNode} : n.majority ≤ 1 ↔ n.peers = [] := by
  unfold majority
  rw [← List.length_eq_zero_iff]
  omega

/-- A node with peers waits for their votes; a node without any has won at once. -/
theorem startElection_eq (n : RaftNode) :
    n.startElection =
      if n.peers = [] then (n.standing.elected, [.persist])
      else (n.standing,
        .persist :: n.peers.map fun p => .send p (.requestVote n.standing.voteRequest)) := by
  have hrole : n.standing.role = .candidate {n.id} := rfl
  have heq : n.startElection = (n.standing.tryWin.1, Effect.persist ::
      n.peers.map (fun p => Effect.send p (.requestVote n.standing.voteRequest)) ++
        n.standing.tryWin.2) := rfl
  rw [heq]
  split
  · rename_i hnil
    have hmaj : n.standing.majority ≤ ({n.id} : Finset NodeId).card := by
      rw [Finset.card_singleton]
      exact majority_le_one.mpr hnil
    rw [tryWin_of_majority hrole hmaj]
    simp [elected, standing, broadcastAppend, hnil]
  · rename_i hne
    have hmaj : ({n.id} : Finset NodeId).card < n.standing.majority := by
      rw [Finset.card_singleton]
      by_contra h
      exact hne (majority_le_one.mp (Nat.not_lt.mp h))
    rw [tryWin_of_lt hrole hmaj, List.append_nil]

/-! ## Applying -/

theorem applyLoop_isApply {log : RaftLog} :
    ∀ {rounds applied : ℕ} {e : Effect}, e ∈ applyLoop log rounds applied → e.isApply = true := by
  intro rounds
  induction rounds with
  | zero => intro applied e h; cases h
  | succ rounds ih =>
    intro applied e h
    rw [applyLoop, List.mem_append] at h
    rcases h with h | h
    · rw [Option.mem_toList, Option.map_eq_some_iff] at h
      obtain ⟨x, _, rfl⟩ := h
      rfl
    · exact ih h

/-- Inside the log, the loop applies one entry a round. -/
theorem applyLoop_eq {log : RaftLog} :
    ∀ {rounds applied : ℕ}, applied + rounds ≤ log.lastIndex →
      applyLoop log rounds applied = ((log.entries.drop applied).take rounds).map .apply := by
  intro rounds
  induction rounds with
  | zero => intro applied _; rfl
  | succ rounds ih =>
    intro applied h
    have hlt : applied < log.entries.length := by unfold RaftLog.lastIndex at h; omega
    rw [applyLoop, ih (by omega), RaftLog.get_succ, List.getElem?_eq_getElem hlt,
      List.drop_eq_getElem_cons hlt]
    rfl

/-! ## Committing -/

theorem mem_uncommitted {n : RaftNode} {i : ℕ} :
    i ∈ n.uncommitted ↔ n.commitIndex < i ∧ i ≤ n.log.lastIndex := by
  unfold uncommitted
  rw [List.mem_reverse, List.mem_range'_1]
  omega

theorem uncommitted_descending (n : RaftNode) : n.uncommitted.Pairwise (fun a b => b < a) := by
  unfold uncommitted
  rw [List.pairwise_reverse]
  exact List.pairwise_lt_range'

/-- No index beyond the commit index is held by a majority in the leader's own term. -/
def Settled (n : RaftNode) : Prop :=
  ∀ nextIndex matchIndex, n.role = .leader nextIndex matchIndex →
    ∀ i, n.commitIndex < i → i ≤ n.log.lastIndex → n.committable matchIndex i = false

/-- `try_commit` leaves the node alone when nothing can be committed, and otherwise moves the
commit index to the highest index that can be. -/
theorem tryCommit_cases (n : RaftNode) :
    (n.tryCommit = (n, []) ∧ n.Settled) ∨
    ∃ nextIndex matchIndex i, n.role = .leader nextIndex matchIndex ∧ n.commitIndex < i ∧
      i ≤ n.log.lastIndex ∧ n.committable matchIndex i = true ∧
      n.tryCommit = { n with commitIndex := i }.advanceApplied ∧
      { n with commitIndex := i }.Settled := by
  cases hrole : n.role with
  | follower => exact Or.inl ⟨by unfold tryCommit; rw [hrole], fun _ _ h => by cases hrole.symm.trans h⟩
  | candidate votes =>
    exact Or.inl ⟨by unfold tryCommit; rw [hrole], fun _ _ h => by cases hrole.symm.trans h⟩
  | leader nextIndex matchIndex =>
    cases hfind : n.uncommitted.find? (n.committable matchIndex) with
    | none =>
      refine Or.inl ⟨?_, ?_⟩
      · unfold tryCommit
        rw [hrole]
        simp only [hfind, Option.getD_none, gt_iff_lt, lt_irrefl, if_false]
      · intro _ _ h i hi hle
        cases hrole.symm.trans h
        exact Bool.eq_false_iff.mpr (List.find?_eq_none.mp hfind i (mem_uncommitted.mpr ⟨hi, hle⟩))
    | some i =>
      obtain ⟨hp, as, bs, hsplit, has⟩ := List.find?_eq_some_iff_append.mp hfind
      obtain ⟨hlt, hle⟩ := mem_uncommitted.mp (List.mem_of_find?_eq_some hfind)
      refine Or.inr ⟨nextIndex, matchIndex, i, rfl, hlt, hle, hp, ?_, ?_⟩
      · unfold tryCommit
        rw [hrole]
        simp only [hfind, Option.getD_some, gt_iff_lt, hlt, if_true]
      · intro nextIndex' matchIndex' h k hk hkle
        obtain rfl : matchIndex = matchIndex' := (Role.leader.inj h).2
        show n.committable matchIndex k = false
        have hk : i < k := hk
        -- a higher index stands before `i` in the list that was searched
        have hmem : k ∈ as ++ i :: bs := by
          rw [← hsplit]
          exact mem_uncommitted.mpr ⟨hlt.trans hk, hkle⟩
        have hdesc := uncommitted_descending n
        rw [hsplit, List.pairwise_append, List.pairwise_cons] at hdesc
        rcases List.mem_append.mp hmem with hka | hkb
        · have := has k hka
          simpa using this
        · rcases List.mem_cons.mp hkb with rfl | hkb
          · exact absurd hk (Nat.lt_irrefl _)
          · have := hdesc.2.1.1 k hkb
            omega

/-! ## Ticks and proposals -/

/-- A tick counts, sends heartbeats, or opens an election. -/
theorem onTick_cases (n : RaftNode) :
    (∃ t, n.onTick = ({ n with ticksSinceReset := t }, [])) ∨
    (∃ t, n.role.isLeader = true ∧
      n.onTick = ({ n with ticksSinceReset := t }, n.broadcastAppend)) ∨
    (n.role.isLeader = false ∧
      n.onTick = { n with ticksSinceReset := n.ticksSinceReset + 1 }.startElection) := by
  unfold onTick
  cases hrole : n.role with
  | follower =>
    simp only
    split
    · exact Or.inr (Or.inr ⟨rfl, rfl⟩)
    · exact Or.inl ⟨_, rfl⟩
  | candidate votes =>
    simp only
    split
    · exact Or.inr (Or.inr ⟨rfl, rfl⟩)
    · exact Or.inl ⟨_, rfl⟩
  | leader nextIndex matchIndex =>
    simp only
    split
    · refine Or.inr (Or.inl ⟨0, rfl, ?_⟩)
      rw [← hrole]
      rfl
    · exact Or.inl ⟨_, rfl⟩

/-- The leader's node after it appended a command. -/
def appended (n : RaftNode) (cmd : Command) : RaftNode :=
  { n with log := (n.log.append n.currentTerm cmd).1 }

theorem onPropose_of_leader {n : RaftNode} {nextIndex matchIndex : PeerMap}
    (h : n.role = .leader nextIndex matchIndex) (cmd : Command) :
    n.onPropose cmd = ((n.appended cmd).tryCommit.1,
      .persistEntries [⟨n.currentTerm, n.log.lastIndex + 1, cmd⟩] ::
        (n.appended cmd).broadcastAppend ++ (n.appended cmd).tryCommit.2) := by
  unfold onPropose
  rw [h]
  simp only
  rw [RaftLog.get_append_last]
  simp only [Option.toList, appended, h]

theorem onPropose_of_not_leader {n : RaftNode} (h : n.role.isLeader = false) (cmd : Command) :
    n.onPropose cmd = (n, [.proposeRejected n.leaderHint]) := by
  unfold onPropose
  cases hrole : n.role with
  | leader nextIndex matchIndex => rw [hrole] at h; cases h
  | _ => rfl

/-! ## Votes -/

/-- The voter's conditions, for a request of a term it has reached. -/
def grants (n : RaftNode) (req : RequestVoteReq) : Bool :=
  req.term == n.currentTerm && n.logOk req &&
    (n.votedFor.isNone || n.votedFor == some req.candidateId)

def voteReply (n : RaftNode) (src : NodeId) (granted : Bool) : Effect :=
  .send src (.requestVoteResp { term := n.currentTerm, voteGranted := granted })

theorem onRequestVote_eq {n : RaftNode} {src : NodeId} {req : RequestVoteReq}
    (h : req.term ≤ n.currentTerm) :
    n.onRequestVote src req =
      if n.grants req then
        ({ n with votedFor := some req.candidateId, ticksSinceReset := 0 },
          [.persist, n.voteReply src true])
      else (n, [n.voteReply src false]) := by
  unfold onRequestVote grants
  simp only [maybeStepDown_of_le h]
  split
  · rename_i hg
    simp only [hg]
    rfl
  · rename_i hg
    simp only [Bool.not_eq_true] at hg
    simp only [hg]
    rfl

theorem onRequestVoteResp_cases {n : RaftNode} (src : NodeId) {resp : RequestVoteResp}
    (h : resp.term ≤ n.currentTerm) :
    n.onRequestVoteResp src resp = (n, []) ∨
    ∃ votes, n.role = .candidate votes ∧ resp.term = n.currentTerm ∧ resp.voteGranted = true ∧
      n.onRequestVoteResp src resp =
        { n with role := .candidate (insert src votes) }.tryWin := by
  unfold onRequestVoteResp
  simp only [maybeStepDown_of_le h]
  cases hrole : n.role with
  | follower => exact Or.inl rfl
  | leader nextIndex matchIndex => exact Or.inl rfl
  | candidate votes =>
    simp only
    split
    · rename_i hg
      exact Or.inr ⟨votes, rfl, hg.1, hg.2, rfl⟩
    · exact Or.inl rfl

/-! ## AppendEntries -/

/-- A node that has heard from the leader of its term. -/
def heard (n : RaftNode) (leaderId : NodeId) : RaftNode :=
  { n with
    role := if n.role.isCandidate then .follower else n.role
    ticksSinceReset := 0
    leaderHint := some leaderId }

def merged (n : RaftNode) (es : List LogEntry) : RaftNode :=
  { n with log := (mergeEntries n.log es).1 }

/-- What a follower does with the commit index of its leader. -/
def learned (n : RaftNode) (leaderCommit : ℕ) : RaftNode × List Effect :=
  if leaderCommit > n.commitIndex then
    { n with commitIndex := min leaderCommit n.log.lastIndex }.advanceApplied
  else (n, [])

def ackAppend (n : RaftNode) (src : NodeId) (newMatch : ℕ) : Effect :=
  .send src (.appendEntriesResp { term := n.currentTerm, success := true, matchIndex := newMatch })

@[simp] theorem advanceApplied_term (n : RaftNode) :
    n.advanceApplied.1.currentTerm = n.currentTerm := rfl

@[simp] theorem learned_term (n : RaftNode) (c : ℕ) :
    (n.learned c).1.currentTerm = n.currentTerm := by
  unfold learned; split <;> rfl

@[simp] theorem learned_role (n : RaftNode) (c : ℕ) : (n.learned c).1.role = n.role := by
  unfold learned; split <;> rfl

theorem onAppendEntries_of_stale {n : RaftNode} {src : NodeId} {req : AppendEntriesReq}
    (h : req.term < n.currentTerm) :
    n.onAppendEntries src req = (n, [n.rejectAppend src]) := by
  unfold onAppendEntries
  simp only [maybeStepDown_of_le h.le, if_pos h]
  rfl

theorem onAppendEntries_of_mismatch {n : RaftNode} {src : NodeId} {req : AppendEntriesReq}
    (h : req.term = n.currentTerm) (hp : n.log.termAt req.prevLogIndex ≠ some req.prevLogTerm) :
    n.onAppendEntries src req = (n.heard req.leaderId, [n.rejectAppend src]) := by
  unfold onAppendEntries
  simp only [maybeStepDown_of_le h.le, if_neg (Nat.not_lt.mpr h.ge), if_pos hp]
  rfl

theorem onAppendEntries_of_match {n : RaftNode} {src : NodeId} {req : AppendEntriesReq}
    (h : req.term = n.currentTerm) (hp : n.log.termAt req.prevLogIndex = some req.prevLogTerm) :
    n.onAppendEntries src req =
      ((((n.heard req.leaderId).merged req.entries).learned req.leaderCommit).1,
        (mergeEntries n.log req.entries).2 ++
          (((n.heard req.leaderId).merged req.entries).learned req.leaderCommit).2 ++
          [n.ackAppend src (req.prevLogIndex + req.entries.length)]) := by
  have hterm : ((((n.heard req.leaderId).merged req.entries).learned req.leaderCommit).1).currentTerm
      = n.currentTerm := learned_term _ _
  unfold ackAppend
  rw [← hterm]
  unfold onAppendEntries
  simp only [maybeStepDown_of_le h.le, if_neg (Nat.not_lt.mpr h.ge), hp, ne_eq, not_true_eq_false,
    if_false]
  rfl

/-! ## Replies to AppendEntries -/

/-- The leader's node after a peer acknowledged `matchIndex` entries. -/
def acknowledged (n : RaftNode) (nextIndex matchIndex : PeerMap) (src : NodeId) (m : ℕ) :
    RaftNode :=
  { n with
    role := .leader (Function.update nextIndex src (some (max ((matchIndex src).getD 0) m + 1)))
      (Function.update matchIndex src (some (max ((matchIndex src).getD 0) m))) }

/-- The leader's node after a peer rejected an append. -/
def backedUp (n : RaftNode) (nextIndex matchIndex : PeerMap) (src : NodeId) : RaftNode :=
  { n with
    role := .leader (Function.update nextIndex src (some (max ((nextIndex src).getD 2 - 1) 1)))
      matchIndex }

theorem onAppendEntriesResp_cases {n : RaftNode} (src : NodeId) {resp : AppendEntriesResp}
    (h : resp.term ≤ n.currentTerm) :
    n.onAppendEntriesResp src resp = (n, []) ∨
    ∃ nextIndex matchIndex, n.role = .leader nextIndex matchIndex ∧ resp.term = n.currentTerm ∧
      ((resp.success = true ∧ n.onAppendEntriesResp src resp =
          (n.acknowledged nextIndex matchIndex src resp.matchIndex).tryCommit) ∨
        (resp.success = false ∧ n.onAppendEntriesResp src resp =
          (n.backedUp nextIndex matchIndex src,
            [(n.backedUp nextIndex matchIndex src).appendFor src]))) := by
  unfold onAppendEntriesResp
  simp only [maybeStepDown_of_le h]
  by_cases hlt : resp.term < n.currentTerm
  · rw [if_pos hlt]
    exact Or.inl rfl
  · rw [if_neg hlt]
    cases hrole : n.role with
    | follower => exact Or.inl rfl
    | candidate votes => exact Or.inl rfl
    | leader nextIndex matchIndex =>
      refine Or.inr ⟨nextIndex, matchIndex, rfl, by omega, ?_⟩
      cases resp.success with
      | true => exact Or.inl ⟨rfl, rfl⟩
      | false => exact Or.inr ⟨rfl, rfl⟩

/-- Committing moves the two indices and nothing else. -/
theorem tryCommit_frame (n : RaftNode) :
    ∃ c a, n.tryCommit.1 = { n with commitIndex := c, lastApplied := a } := by
  rcases n.tryCommit_cases with ⟨heq, _⟩ | ⟨_, _, i, _, _, _, _, heq, _⟩
  · exact ⟨n.commitIndex, n.lastApplied, by rw [heq]⟩
  · exact ⟨i, max n.lastApplied i, by rw [heq]; rfl⟩

end RaftNode

/-! ## The append loop -/

/-- Entries that start where the log ends are all appended. -/
theorem appendLoop_past_end {log : RaftLog} {effects : List Effect} :
    ∀ (es : List LogEntry) (start : ℕ) (acc : List LogEntry), ContiguousFrom start es →
      log.lastIndex ≤ start →
      RaftNode.appendLoop es (log, effects, acc) = (log, effects, acc ++ es) := by
  intro es
  induction es with
  | nil => intro start acc _ _; rw [List.append_nil]; rfl
  | cons e es ih =>
    intro start acc hc hle
    obtain ⟨he, hes⟩ := contiguousFrom_cons.mp hc
    have hnone : log.termAt e.index = none := by
      unfold RaftLog.lastIndex at hle
      rw [he, RaftLog.termAt_succ, List.getElem?_eq_none hle]
      rfl
    have hstep : RaftNode.appendLoop (e :: es) (log, effects, acc) =
        RaftNode.appendLoop es (log, effects, acc ++ [e]) := by
      simp only [RaftNode.appendLoop, hnone]
    rw [hstep, ih (start + 1) _ hes (by omega), List.append_assoc]
    rfl

/-- The first `j` entries of `es` have the terms of the log's entries after position `prev`. -/
def Agrees (log : RaftLog) (prev : ℕ) (es : List LogEntry) (j : ℕ) : Prop :=
  ∀ i x, i < j → es[i]? = some x → log.termAt (prev + i + 1) = some x.term

/-- What `mergeEntries` did with entries that continue position `prev`: nothing, when the log has
them all; an append of those past its end; or a cut at the first conflict and an append of the
rest. `j` is the number of entries the log had already. -/
inductive Merge (log : RaftLog) (prev : ℕ) (es : List LogEntry) :
    RaftLog × List Effect → Prop
  | present (h : Agrees log prev es es.length) : Merge log prev es (log, [])
  | extended (j : ℕ) (hj : j < es.length) (h : Agrees log prev es j)
      (hend : log.lastIndex = prev + j) :
      Merge log prev es (⟨log.entries ++ es.drop j⟩, [.persistEntries (es.drop j)])
  | replaced (j : ℕ) (hj : j < es.length) (h : Agrees log prev es j) (t : ℕ)
      (ht : log.termAt (prev + j + 1) = some t) (hne : t ≠ es[j].term) :
      Merge log prev es (⟨log.entries.take (prev + j) ++ es.drop j⟩,
        [.persistTruncate (prev + j + 1), .persistEntries (es.drop j)])

theorem Agrees.cons {log : RaftLog} {prev j : ℕ} {e : LogEntry} {es : List LogEntry}
    (he : log.termAt (prev + 1) = some e.term) (h : Agrees log (prev + 1) es j) :
    Agrees log prev (e :: es) (j + 1) := by
  intro i x hi hx
  cases i with
  | zero =>
    obtain rfl : e = x := by simpa using hx
    exact he
  | succ i =>
    rw [List.getElem?_cons_succ] at hx
    rw [show prev + (i + 1) + 1 = prev + 1 + i + 1 by omega]
    exact h i x (by omega) hx

theorem Merge.cons {log : RaftLog} {prev : ℕ} {e : LogEntry} {es : List LogEntry}
    {res : RaftLog × List Effect} (he : log.termAt (prev + 1) = some e.term)
    (h : Merge log (prev + 1) es res) : Merge log prev (e :: es) res := by
  cases h with
  | present h => exact Merge.present (Agrees.cons he h)
  | extended j hj h hend =>
    exact Merge.extended (j + 1) (Nat.succ_lt_succ hj) (Agrees.cons he h) (by omega)
  | replaced j hj h t ht hne =>
    rw [show prev + 1 + j + 1 = prev + (j + 1) + 1 by omega,
      show prev + 1 + j = prev + (j + 1) by omega]
    refine Merge.replaced (j + 1) (Nat.succ_lt_succ hj) (Agrees.cons he h) t ?_ hne
    rwa [show prev + (j + 1) + 1 = prev + 1 + j + 1 by omega]

/-- **The append loop.** Entries that continue a position of the log are merged in one of the three
ways of `Merge`. -/
theorem mergeEntries_spec {log : RaftLog} :
    ∀ {es : List LogEntry} {prev : ℕ}, ContiguousFrom prev es → prev ≤ log.lastIndex →
      Merge log prev es (RaftNode.mergeEntries log es) := by
  intro es
  induction es with
  | nil => intro prev _ _; exact Merge.present fun i x hi _ => absurd hi (Nat.not_lt_zero i)
  | cons e es ih =>
    intro prev hc hle
    obtain ⟨he, hes⟩ := contiguousFrom_cons.mp hc
    have hnone : Agrees log prev (e :: es) 0 := fun i x hi _ => absurd hi (Nat.not_lt_zero i)
    cases hterm : log.termAt (prev + 1) with
    | none =>
      -- the log ends at `prev`: everything is appended
      have hend : log.lastIndex = prev := by
        rw [RaftLog.termAt_succ, Option.map_eq_none_iff, List.getElem?_eq_none_iff] at hterm
        exact Nat.le_antisymm hterm hle
      have hloop : RaftNode.appendLoop (e :: es) (log, [], []) = (log, [], e :: es) :=
        appendLoop_past_end (e :: es) prev [] hc hend.le
      have hmerge : RaftNode.mergeEntries log (e :: es) =
          (⟨log.entries ++ e :: es⟩, [.persistEntries (e :: es)]) := by
        simp only [RaftNode.mergeEntries, hloop]
        rfl
      rw [hmerge]
      exact Merge.extended 0 (Nat.succ_pos _) hnone hend
    | some t =>
      by_cases ht : t = e.term
      · -- the log has this entry
        subst ht
        have hstep : RaftNode.mergeEntries log (e :: es) = RaftNode.mergeEntries log es := by
          simp only [RaftNode.mergeEntries, RaftNode.appendLoop, he, hterm, if_true]
        rw [hstep]
        exact Merge.cons hterm (ih hes (RaftLog.le_lastIndex_of_termAt hterm))
      · -- a conflict: the log is cut, so that the rest starts where it ends
        have hcut : (log.truncateFrom (prev + 1)).lastIndex ≤ prev + 1 := by
          unfold RaftLog.lastIndex
          rw [RaftLog.entries_truncateFrom_succ]
          exact (List.length_take_le _ _).trans (Nat.le_succ _)
        have hloop : RaftNode.appendLoop (e :: es) (log, [], []) =
            (log.truncateFrom (prev + 1), [.persistTruncate (prev + 1)], e :: es) := by
          simp only [RaftNode.appendLoop, he, hterm, if_neg ht, List.nil_append]
          exact appendLoop_past_end es (prev + 1) [e] hes hcut
        have hmerge : RaftNode.mergeEntries log (e :: es) =
            (⟨log.entries.take prev ++ e :: es⟩,
              [.persistTruncate (prev + 1), .persistEntries (e :: es)]) := by
          simp only [RaftNode.mergeEntries, hloop, List.isEmpty_cons, Bool.false_eq_true, if_false]
          rw [RaftLog.appendEntries, RaftLog.entries_truncateFrom_succ]
          rfl
        rw [hmerge]
        exact Merge.replaced 0 (Nat.succ_pos _) hnone t hterm ht

/-! ## Batches -/

/-- A batch that writes to the storage before it does anything else. -/
def StoresFirst (batch : List Effect) : Prop :=
  ∃ stores rest, batch = stores ++ rest ∧ (∀ e ∈ stores, e.isStore = true) ∧
    ∀ e ∈ rest, e.isStore = false

theorem StoresFirst.of_idle {batch : List Effect} (h : ∀ e ∈ batch, e.isStore = false) :
    StoresFirst batch := ⟨[], batch, rfl, fun _ he => absurd he List.not_mem_nil, h⟩

theorem StoresFirst.singleton (e : Effect) : StoresFirst [e] := by
  cases he : e.isStore with
  | true => exact ⟨[e], [], rfl, by simpa using he, by simp⟩
  | false => exact StoresFirst.of_idle (by simpa using he)

theorem StoresFirst.cons {e : Effect} {batch : List Effect} (he : e.isStore = true)
    (h : StoresFirst batch) : StoresFirst (e :: batch) := by
  obtain ⟨stores, rest, rfl, hs, hr⟩ := h
  refine ⟨e :: stores, rest, rfl, fun x hx => ?_, hr⟩
  rcases List.mem_cons.mp hx with rfl | hx
  · exact he
  · exact hs x hx

theorem Effect.not_isStore_of_isSend {e : Effect} (h : e.isSend = true) : e.isStore = false := by
  cases e with
  | send dst msg => rfl
  | _ => cases h

theorem Effect.not_isStore_of_isApply {e : Effect} (h : e.isApply = true) :
    e.isStore = false := by
  cases e with
  | apply entry => rfl
  | _ => cases h

theorem Effect.not_isSend_of_isApply {e : Effect} (h : e.isApply = true) : e.isSend = false := by
  cases e with
  | apply entry => rfl
  | _ => cases h

theorem Effect.not_isSend_of_isStore {e : Effect} (h : e.isStore = true) : e.isSend = false := by
  cases e with
  | send dst msg => cases h
  | _ => rfl

theorem appendLoop_isStore {es : List LogEntry} :
    ∀ {log : RaftLog} {effects : List Effect} {acc : List LogEntry},
      (∀ e ∈ effects, e.isStore = true) →
        ∀ e ∈ (RaftNode.appendLoop es (log, effects, acc)).2.1, e.isStore = true := by
  induction es with
  | nil => intro log effects acc h; exact h
  | cons x es ih =>
    intro log effects acc h
    unfold RaftNode.appendLoop
    split
    · split
      · exact ih h
      · refine ih fun e he => ?_
        rcases List.mem_append.mp he with he | he
        · exact h e he
        · rw [List.mem_singleton.mp he]
          rfl
    · exact ih h

namespace RaftNode

theorem mergeEntries_isStore {log : RaftLog} {es : List LogEntry} {e : Effect}
    (h : e ∈ (mergeEntries log es).2) : e.isStore = true := by
  have hloop : ∀ e ∈ (appendLoop es (log, [], [])).2.1, e.isStore = true :=
    appendLoop_isStore fun e he => by cases he
  unfold mergeEntries at h
  simp only at h
  split at h
  · exact hloop e h
  · rcases List.mem_append.mp h with h | h
    · exact hloop e h
    · rw [List.mem_singleton.mp h]
      rfl

theorem broadcastAppend_isSend {n : RaftNode} {e : Effect} (h : e ∈ n.broadcastAppend) :
    e.isSend = true := by
  unfold broadcastAppend at h
  obtain ⟨p, _, rfl⟩ := List.mem_map.mp h
  rfl

theorem broadcastAppend_alone {n : RaftNode} (h : n.peers = []) : n.broadcastAppend = [] := by
  simp [broadcastAppend, h]

theorem tryCommit_isApply {n : RaftNode} {e : Effect} (h : e ∈ n.tryCommit.2) :
    e.isApply = true := by
  rcases n.tryCommit_cases with ⟨heq, _⟩ | ⟨_, _, i, _, _, _, _, heq, _⟩
  · rw [heq] at h
    cases h
  · rw [heq] at h
    exact applyLoop_isApply h

theorem learned_isApply {n : RaftNode} {c : ℕ} {e : Effect} (h : e ∈ (n.learned c).2) :
    e.isApply = true := by
  unfold learned at h
  split at h
  · exact applyLoop_isApply h
  · cases h

theorem tryWin_isSend {n : RaftNode} {e : Effect} (h : e ∈ n.tryWin.2) : e.isSend = true := by
  unfold tryWin at h
  split at h
  · split at h
    · cases h
    · exact broadcastAppend_isSend h
  · cases h

/-- Replies of a term that has been reached cause no storage call. -/
theorem onRequestVoteResp_idle {n : RaftNode} {src : NodeId} {resp : RequestVoteResp}
    (h : resp.term ≤ n.currentTerm) {e : Effect} (he : e ∈ (n.onRequestVoteResp src resp).2) :
    e.isStore = false := by
  rcases onRequestVoteResp_cases src h with heq | ⟨votes, _, _, _, heq⟩
  · rw [heq] at he
    cases he
  · rw [heq] at he
    exact Effect.not_isStore_of_isSend (tryWin_isSend he)

theorem onAppendEntriesResp_idle {n : RaftNode} {src : NodeId} {resp : AppendEntriesResp}
    (h : resp.term ≤ n.currentTerm) {e : Effect} (he : e ∈ (n.onAppendEntriesResp src resp).2) :
    e.isStore = false := by
  rcases onAppendEntriesResp_cases src h with
    heq | ⟨_, _, _, _, ⟨_, heq⟩ | ⟨_, heq⟩⟩
  · rw [heq] at he
    cases he
  · rw [heq] at he
    exact Effect.not_isStore_of_isApply (tryCommit_isApply he)
  · rw [heq, List.mem_singleton] at he
    rw [he]
    rfl

theorem onTick_storesFirst (n : RaftNode) : StoresFirst n.onTick.2 := by
  rcases n.onTick_cases with ⟨t, heq⟩ | ⟨t, _, heq⟩ | ⟨_, heq⟩
  · rw [heq]
    exact StoresFirst.of_idle (by simp)
  · rw [heq]
    exact StoresFirst.of_idle fun e he => Effect.not_isStore_of_isSend (broadcastAppend_isSend he)
  · rw [heq, startElection_eq]
    split
    · exact StoresFirst.singleton _
    · refine StoresFirst.cons rfl (StoresFirst.of_idle fun e he => ?_)
      obtain ⟨p, _, rfl⟩ := List.mem_map.mp he
      rfl

theorem onPropose_storesFirst (n : RaftNode) (cmd : Command) :
    StoresFirst (n.onPropose cmd).2 := by
  cases hrole : n.role with
  | leader nextIndex matchIndex =>
    rw [onPropose_of_leader hrole]
    refine StoresFirst.cons rfl (StoresFirst.of_idle fun e he => ?_)
    rcases List.mem_append.mp he with he | he
    · exact Effect.not_isStore_of_isSend (broadcastAppend_isSend he)
    · exact Effect.not_isStore_of_isApply (tryCommit_isApply he)
  | _ =>
    rw [onPropose_of_not_leader (by rw [hrole]; rfl)]
    exact StoresFirst.singleton _

theorem onAppendEntries_storesFirst {n : RaftNode} {src : NodeId} {req : AppendEntriesReq}
    (h : req.term ≤ n.currentTerm) : StoresFirst (n.onAppendEntries src req).2 := by
  rcases Nat.lt_or_eq_of_le h with hlt | heq
  · rw [onAppendEntries_of_stale hlt]
    exact StoresFirst.singleton _
  · by_cases hp : n.log.termAt req.prevLogIndex = some req.prevLogTerm
    · rw [onAppendEntries_of_match heq hp, List.append_assoc]
      refine ⟨_, _, rfl, fun e he => mergeEntries_isStore he, fun e he => ?_⟩
      rcases List.mem_append.mp he with he | he
      · exact Effect.not_isStore_of_isApply (learned_isApply he)
      · rw [List.mem_singleton.mp he]
        rfl
    · rw [onAppendEntries_of_mismatch heq hp]
      exact StoresFirst.singleton _

theorem onRequestVote_storesFirst {n : RaftNode} {src : NodeId} {req : RequestVoteReq}
    (h : req.term ≤ n.currentTerm) : StoresFirst (n.onRequestVote src req).2 := by
  rw [onRequestVote_eq h]
  split
  · exact StoresFirst.cons rfl (StoresFirst.singleton _)
  · exact StoresFirst.singleton _

theorem onMessage_storesFirst {n : RaftNode} {src : NodeId} {msg : Message}
    (h : msg.term ≤ n.currentTerm) : StoresFirst (n.step (.message src msg)).2 := by
  cases msg with
  | requestVote req => exact onRequestVote_storesFirst h
  | requestVoteResp resp => exact StoresFirst.of_idle fun e he => onRequestVoteResp_idle h he
  | appendEntries req => exact onAppendEntries_storesFirst h
  | appendEntriesResp resp => exact StoresFirst.of_idle fun e he => onAppendEntriesResp_idle h he

/-- **Vec order is the contract.** Every batch of `step` has its storage calls in front. -/
theorem step_storesFirst (n : RaftNode) (ev : Event) : StoresFirst (n.step ev).2 := by
  cases ev with
  | tick => exact n.onTick_storesFirst
  | propose cmd => exact n.onPropose_storesFirst cmd
  | message src msg =>
    by_cases h : msg.term ≤ n.currentTerm
    · exact onMessage_storesFirst h
    · rw [step_higher (Nat.not_le.mp h)]
      exact StoresFirst.cons rfl (onMessage_storesFirst le_rfl)

end RaftNode

end MyK8s.Raft
