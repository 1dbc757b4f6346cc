import MyK8s.Raft.Log

/-!
# The Raft state machine

`src/raft/message.rs` and `src/raft/core.rs`: the two RPCs and their replies, and the pure state
machine `RaftNode::step`, from a node and an event to the node after it and a batch of effects,
in the order in which the shell must run them.

Every handler takes the node and returns the node with its effects; `self.f()` in the middle of a
handler is a call on the node as it stands there. A `HashSet` of voters is a `Finset`, a
`HashMap` from peers to indices a partial function.
-/

namespace MyK8s.Raft

/-! ## Messages -/

structure RequestVoteReq where
  term : ℕ
  candidateId : NodeId
  lastLogIndex : ℕ
  lastLogTerm : ℕ
  deriving DecidableEq, Repr

structure RequestVoteResp where
  term : ℕ
  voteGranted : Bool
  deriving DecidableEq, Repr

structure AppendEntriesReq where
  term : ℕ
  leaderId : NodeId
  prevLogIndex : ℕ
  prevLogTerm : ℕ
  entries : List LogEntry
  leaderCommit : ℕ
  deriving DecidableEq, Repr

structure AppendEntriesResp where
  term : ℕ
  success : Bool
  matchIndex : ℕ
  deriving DecidableEq, Repr

inductive Message
  | requestVote (req : RequestVoteReq)
  | requestVoteResp (resp : RequestVoteResp)
  | appendEntries (req : AppendEntriesReq)
  | appendEntriesResp (resp : AppendEntriesResp)
  deriving DecidableEq, Repr

/-! ## Node, events and effects -/

/-- Leader heartbeats every `HEARTBEAT_TICKS` ticks. -/
def heartbeatTicks : ℕ := 3

abbrev PeerMap := NodeId → Option ℕ

/-- Leader bookkeeping lives in the variant: it cannot exist unless the node leads. -/
inductive Role
  | follower
  | candidate (votes : Finset NodeId)
  | leader (nextIndex matchIndex : PeerMap)

inductive Event
  | tick
  | message (src : NodeId) (msg : Message)
  | propose (cmd : Command)
  deriving DecidableEq, Repr

inductive Effect
  | send (dst : NodeId) (msg : Message)
  | persist
  | persistTruncate (start : ℕ)
  | persistEntries (entries : List LogEntry)
  | apply (entry : LogEntry)
  | proposeRejected (leaderHint : Option NodeId)
  deriving DecidableEq, Repr

structure RaftNode where
  id : NodeId
  peers : List NodeId
  role : Role
  currentTerm : ℕ
  votedFor : Option NodeId
  log : RaftLog
  commitIndex : ℕ
  lastApplied : ℕ
  ticksSinceReset : ℕ
  electionTimeoutTicks : ℕ
  leaderHint : Option NodeId

def Role.isLeader : Role → Bool
  | .leader _ _ => true
  | _ => false

def Role.isCandidate : Role → Bool
  | .candidate _ => true
  | _ => false

namespace RaftNode

def new (id : NodeId) (peers : List NodeId) (electionTimeoutTicks : ℕ) : RaftNode where
  id := id
  peers := peers
  role := .follower
  currentTerm := 0
  votedFor := none
  log := RaftLog.new
  commitIndex := 0
  lastApplied := 0
  ticksSinceReset := 0
  electionTimeoutTicks := electionTimeoutTicks
  leaderHint := none

def setElectionTimeout (n : RaftNode) (ticks : ℕ) : RaftNode :=
  { n with electionTimeoutTicks := ticks }

/-- `peers.len().div_ceil(2) + 1`, a majority of peers and self together. -/
def majority (n : RaftNode) : ℕ := (n.peers.length + 1) / 2 + 1

/-! ## Replication messages -/

/-- `append_for`: everything from the peer's next index on. -/
def appendFor (n : RaftNode) (peer : NodeId) : Effect :=
  let next := match n.role with
    | .leader nextIndex _ => (nextIndex peer).getD (n.log.lastIndex + 1)
    | _ => n.log.lastIndex + 1
  let prevIndex := next - 1
  .send peer (.appendEntries
    { term := n.currentTerm
      leaderId := n.id
      prevLogIndex := prevIndex
      prevLogTerm := (n.log.termAt prevIndex).getD 0
      entries := n.log.entriesFrom next
      leaderCommit := n.commitIndex })

def broadcastAppend (n : RaftNode) : List Effect := n.peers.map n.appendFor

/-! ## Elections -/

/-- `try_win`: a candidate with a majority of votes becomes leader and announces itself. -/
def tryWin (n : RaftNode) : RaftNode × List Effect :=
  match n.role with
  | .candidate votes =>
    if votes.card < n.majority then (n, [])
    else
      let next := n.log.lastIndex + 1
      let n' := { n with
        role := .leader (fun p => if p ∈ n.peers then some next else none)
          (fun p => if p ∈ n.peers then some 0 else none)
        leaderHint := some n.id
        ticksSinceReset := 0 }
      (n', n'.broadcastAppend)
  | _ => (n, [])

def startElection (n : RaftNode) : RaftNode × List Effect :=
  let n' := { n with
    currentTerm := n.currentTerm + 1
    votedFor := some n.id
    role := .candidate {n.id}
    ticksSinceReset := 0
    leaderHint := none }
  let req : RequestVoteReq :=
    { term := n'.currentTerm
      candidateId := n'.id
      lastLogIndex := n'.log.lastIndex
      lastLogTerm := n'.log.lastTerm }
  let requests := n'.peers.map (fun p => Effect.send p (.requestVote req))
  let (n'', won) := n'.tryWin
  (n'', .persist :: requests ++ won)

/-- `maybe_step_down`: a higher term makes the node a follower of that term, vote forgotten. The
leader hint stays as it is. -/
def maybeStepDown (n : RaftNode) (msgTerm : ℕ) : RaftNode × Option Effect :=
  if msgTerm ≤ n.currentTerm then (n, none)
  else
    ({ n with
        currentTerm := msgTerm
        votedFor := none
        role := .follower
        ticksSinceReset := 0 }, some .persist)

/-- `(last_log_term, last_log_index) >= (log.last_term(), log.last_index())`, lexicographically. -/
def logOk (n : RaftNode) (req : RequestVoteReq) : Bool :=
  n.log.lastTerm < req.lastLogTerm ||
    (req.lastLogTerm == n.log.lastTerm && n.log.lastIndex ≤ req.lastLogIndex)

def onRequestVote (n : RaftNode) (src : NodeId) (req : RequestVoteReq) :
    RaftNode × List Effect :=
  let (n, stepDown) := n.maybeStepDown req.term
  let canVote := n.votedFor.isNone || n.votedFor == some req.candidateId
  let grant := req.term == n.currentTerm && n.logOk req && canVote
  let (n, persist) :=
    if grant then
      ({ n with votedFor := some req.candidateId, ticksSinceReset := 0 }, [Effect.persist])
    else (n, [])
  (n, stepDown.toList ++ persist ++
    [.send src (.requestVoteResp { term := n.currentTerm, voteGranted := grant })])

def onRequestVoteResp (n : RaftNode) (src : NodeId) (resp : RequestVoteResp) :
    RaftNode × List Effect :=
  let (n, stepDown) := n.maybeStepDown resp.term
  match n.role with
  | .candidate votes =>
    if resp.term = n.currentTerm ∧ resp.voteGranted = true then
      let (n', won) := { n with role := .candidate (insert src votes) }.tryWin
      (n', stepDown.toList ++ won)
    else (n, stepDown.toList)
  | _ => (n, stepDown.toList)

/-! ## Ticks -/

def onTick (n : RaftNode) : RaftNode × List Effect :=
  let n := { n with ticksSinceReset := n.ticksSinceReset + 1 }
  match n.role with
  | .leader _ _ =>
    if n.ticksSinceReset ≥ heartbeatTicks then
      let n := { n with ticksSinceReset := 0 }
      (n, n.broadcastAppend)
    else (n, [])
  | _ =>
    if n.ticksSinceReset ≥ n.electionTimeoutTicks then n.startElection
    else (n, [])

/-! ## Applying and committing -/

/-- The `while last_applied < commit_index` loop, for the given number of rounds. -/
def applyLoop (log : RaftLog) : ℕ → ℕ → List Effect
  | 0, _ => []
  | rounds + 1, applied =>
    ((log.get (applied + 1)).map Effect.apply).toList ++ applyLoop log rounds (applied + 1)

/-- `advance_applied`: emit `Apply` for everything committed and not yet applied, in order. -/
def advanceApplied (n : RaftNode) : RaftNode × List Effect :=
  ({ n with lastApplied := max n.lastApplied n.commitIndex },
    applyLoop n.log (n.commitIndex - n.lastApplied) n.lastApplied)

/-- The replicas that hold index `i`: self and the peers matched that far. -/
def holders (n : RaftNode) (matchIndex : PeerMap) (i : ℕ) : ℕ :=
  1 + (n.peers.filter (fun p => (matchIndex p).getD 0 ≥ i)).length

/-- `(commit_index + 1..=last_index).rev()`. -/
def uncommitted (n : RaftNode) : List ℕ :=
  (List.range' (n.commitIndex + 1) (n.log.lastIndex - n.commitIndex)).reverse

/-- Index `i` is an entry of the current term held by a majority. -/
def committable (n : RaftNode) (matchIndex : PeerMap) (i : ℕ) : Bool :=
  n.log.termAt i == some n.currentTerm && n.majority ≤ n.holders matchIndex i

/-- `try_commit`: advance `commit_index` to the highest majority-held entry of the own term. -/
def tryCommit (n : RaftNode) : RaftNode × List Effect :=
  match n.role with
  | .leader _ matchIndex =>
    let newCommit := (n.uncommitted.find? (n.committable matchIndex)).getD n.commitIndex
    if newCommit > n.commitIndex then { n with commitIndex := newCommit }.advanceApplied
    else (n, [])
  | _ => (n, [])

/-! ## Log replication -/

/-- The `for entry in req.entries` loop: the log, the effects emitted and the entries to append,
before and after. A conflicting entry truncates the log at once; what follows it is then missing
and is appended too. -/
def appendLoop : List LogEntry → RaftLog × List Effect × List LogEntry →
    RaftLog × List Effect × List LogEntry
  | [], acc => acc
  | e :: es, (log, effects, toAppend) =>
    match log.termAt e.index with
    | some t =>
      if t = e.term then appendLoop es (log, effects, toAppend)
      else appendLoop es
        (log.truncateFrom e.index, effects ++ [.persistTruncate e.index], toAppend ++ [e])
    | none => appendLoop es (log, effects, toAppend ++ [e])

/-- The loop and the append after it: the new log and the effects that persist it. -/
def mergeEntries (log : RaftLog) (es : List LogEntry) : RaftLog × List Effect :=
  let (log, effects, toAppend) := appendLoop es (log, [], [])
  if toAppend.isEmpty then (log, effects)
  else (log.appendEntries toAppend, effects ++ [.persistEntries toAppend])

def rejectAppend (n : RaftNode) (src : NodeId) : Effect :=
  .send src (.appendEntriesResp { term := n.currentTerm, success := false, matchIndex := 0 })

def onAppendEntries (n : RaftNode) (src : NodeId) (req : AppendEntriesReq) :
    RaftNode × List Effect :=
  let (n, stepDown) := n.maybeStepDown req.term
  if req.term < n.currentTerm then (n, stepDown.toList ++ [n.rejectAppend src])
  else
    let n := { n with
      role := if n.role.isCandidate then .follower else n.role
      ticksSinceReset := 0
      leaderHint := some req.leaderId }
    if n.log.termAt req.prevLogIndex ≠ some req.prevLogTerm then
      (n, stepDown.toList ++ [n.rejectAppend src])
    else
      let newMatch := req.prevLogIndex + req.entries.length
      let (log, persists) := mergeEntries n.log req.entries
      let n := { n with log := log }
      let (n, applies) :=
        if req.leaderCommit > n.commitIndex then
          { n with commitIndex := min req.leaderCommit n.log.lastIndex }.advanceApplied
        else (n, [])
      (n, stepDown.toList ++ persists ++ applies ++
        [.send src (.appendEntriesResp
          { term := n.currentTerm, success := true, matchIndex := newMatch })])

def onPropose (n : RaftNode) (cmd : Command) : RaftNode × List Effect :=
  match n.role with
  | .leader _ _ =>
    let (log, index) := n.log.append n.currentTerm cmd
    let n := { n with log := log }
    -- `expect("just appended")`: the entry is there
    let stored := Effect.persistEntries (n.log.get index).toList
    let (n', applies) := n.tryCommit
    (n', stored :: n.broadcastAppend ++ applies)
  | _ => (n, [.proposeRejected n.leaderHint])

def onAppendEntriesResp (n : RaftNode) (src : NodeId) (resp : AppendEntriesResp) :
    RaftNode × List Effect :=
  let (n, stepDown) := n.maybeStepDown resp.term
  if resp.term < n.currentTerm then (n, stepDown.toList)
  else
    match n.role with
    | .leader nextIndex matchIndex =>
      if resp.success then
        -- a reordered stale ack can stand still, never regress
        let m := max ((matchIndex src).getD 0) resp.matchIndex
        let n := { n with
          role := .leader (Function.update nextIndex src (some (m + 1)))
            (Function.update matchIndex src (some m)) }
        let (n', applies) := n.tryCommit
        (n', stepDown.toList ++ applies)
      else
        let ni := max ((nextIndex src).getD 2 - 1) 1
        let n := { n with role := .leader (Function.update nextIndex src (some ni)) matchIndex }
        (n, stepDown.toList ++ [n.appendFor src])
    | _ => (n, stepDown.toList)

/-- `RaftNode::step`. -/
def step (n : RaftNode) : Event → RaftNode × List Effect
  | .tick => n.onTick
  | .message src (.requestVote req) => n.onRequestVote src req
  | .message src (.requestVoteResp resp) => n.onRequestVoteResp src resp
  | .message src (.appendEntries req) => n.onAppendEntries src req
  | .message src (.appendEntriesResp resp) => n.onAppendEntriesResp src resp
  | .propose cmd => n.onPropose cmd

end RaftNode

end MyK8s.Raft
