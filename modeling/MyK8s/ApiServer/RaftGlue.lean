import MyK8s.Raft.Shell

/-!
# Raft under the apiserver: the leadership gate

`src/apiserver/raft_glue.rs`: `RaftProposer::ensure_leader` reads the leader watch. It lets a
request through where the watch names this replica, and sends it to the leader it names otherwise.

`ensureLeader_agrees_iff`: along a run the gate is open exactly while the node leads, if and only if
no event of the run sets hint and role apart. A leader that steps down does.
-/

namespace MyK8s.ApiServer

open Raft

/-! ## The gate -/

/-- `handlers::ApiError`. -/
inductive ApiError
  | notFound (name : String)
  | alreadyExists (name : String)
  | conflict (current provided : String)
  | badRequest (msg : String)
  | internal (msg : String)
  | redirect (url : String)
  deriving DecidableEq, Repr

/-- What `ensure_leader` reads of a `RaftProposer`. -/
structure RaftProposer where
  id : NodeId
  leaderRx : Option NodeId
  peerApis : NodeId → Option String

def RaftProposer.ensureLeader (p : RaftProposer) : Except ApiError Unit :=
  match p.leaderRx with
  | some l =>
    if l = p.id then .ok ()
    else
      match p.peerApis l with
      | some url => .error (.redirect url)
      | none => .error (.internal s!"unknown leader {l}")
  | none => .error (.internal "no leader elected yet; retry")

theorem RaftProposer.ensureLeader_ok_iff (p : RaftProposer) :
    p.ensureLeader = .ok () ↔ p.leaderRx = some p.id := by
  unfold ensureLeader
  cases hl : p.leaderRx with
  | none => simp
  | some l =>
    by_cases h : l = p.id
    · simp [h]
    · cases hu : p.peerApis l with
      | none => simp [h, hu]
      | some url => simp [h, hu]

/-- The proposer that `spawn_raft` returns with a shell, at the time of the state `s` of it. -/
def proposerOf {σ : Type} (s : RaftShell σ) (id : NodeId) (peerApis : NodeId → Option String) :
    RaftProposer where
  id := id
  leaderRx := s.leaderWatch
  peerApis := peerApis

/-! ## The gate and the role -/

section Gate

variable {σ : Type} {api : StorageApi σ} {id : NodeId}

/-- The gate is open exactly if the node leads. -/
def GateAgrees (s : RaftShell σ) (id : NodeId) (peerApis : NodeId → Option String) : Prop :=
  (proposerOf s id peerApis).ensureLeader = .ok () ↔ s.node.role.isLeader = true

/-- The shell has published the hint of its node, which carries its identity. -/
structure Published (s : RaftShell σ) (id : NodeId) : Prop where
  id : s.node.id = id
  watch : s.leaderWatch = s.node.leaderHint

theorem Published.agrees_iff {s : RaftShell σ} (h : Published s id)
    (peerApis : NodeId → Option String) : GateAgrees s id peerApis ↔ s.node.HintAgrees := by
  unfold GateAgrees RaftNode.HintAgrees
  rw [RaftProposer.ensureLeader_ok_iff]
  simp only [proposerOf]
  rw [h.watch, h.id]

theorem Published.turn {s : RaftShell σ} (h : Published s id) (input : Event × ℕ) :
    Published (s.turn api input) id where
  id := by rw [RaftShell.turn_node, RaftNode.stepShell_id, h.id]
  watch := s.turn_leaderWatch api input

theorem published_new (peers : List NodeId) (timeout : ℕ) (disk : RaftStorage) :
    Published (RaftShell.new id peers timeout disk) id := ⟨rfl, rfl⟩

theorem published_run {s : RaftShell σ} (h : Published s id) (inputs : List (Event × ℕ)) :
    Published (s.run api inputs) id := by
  have hstep : ∀ (s : RaftShell σ) (input : Event × ℕ), Published s id → True →
      Published (s.turn api input) id := fun _ input hs _ => hs.turn input
  exact Runs.invariant_of_ok hstep h (fun _ _ _ => trivial) inputs List.prefix_rfl

/-- **The leadership gate.** In every run of a shell the gate is open in exactly the states in which
the node leads, if and only if every event of the run keeps hint and role in agreement. -/
theorem ensureLeader_agrees_iff (api : StorageApi RaftStorage) (id : NodeId) (peers : List NodeId)
    (timeout : ℕ) (disk : RaftStorage) (peerApis : NodeId → Option String)
    (inputs : List (Event × ℕ)) :
    (∀ past, past <+: inputs →
      GateAgrees ((RaftShell.new id peers timeout disk).run api past) id peerApis) ↔
    ∀ past input, past ++ [input] <+: inputs →
      ((RaftShell.new id peers timeout disk).run api past).node.KeepsHint input.1 := by
  have hstep : ∀ (s : RaftShell RaftStorage) (input : Event × ℕ), s.node.HintAgrees →
      ((s.turn api input).node.HintAgrees ↔ s.node.KeepsHint input.1) :=
    fun s input h => RaftNode.hintAgrees_stepShell_iff h input.1 input.2
  have hnew : (RaftShell.new id peers timeout disk).node.HintAgrees := by
    unfold RaftNode.HintAgrees
    simp [RaftShell.new, recover, RaftNode.new, Role.isLeader]
  refine Iff.trans ?_ (Runs.invariant_iff_ok hstep hnew inputs)
  refine forall₂_congr fun past _ => ?_
  exact (published_run (published_new peers timeout disk) past).agrees_iff peerApis

/-- Node 1 of three, elected by node 2 in term 1, hears a candidate of term 2. -/
def deposed : List (Event × ℕ) :=
  [(.tick, 10), (.message 2 (.requestVoteResp ⟨1, true⟩), 10),
    (.message 3 (.requestVote ⟨2, 3, 0, 0⟩), 10)]

/-- The node is a follower of term 2 and its gate is open. -/
theorem ensureLeader_open_to_follower :
    let s := (RaftShell.new 1 [2, 3] 1 RaftStorage.fresh).run RaftStorage.api deposed
    (proposerOf s 1 fun _ => none).ensureLeader = .ok () ∧
      s.node.role.isLeader = false ∧ s.node.currentTerm = 2 := by
  decide +kernel

end Gate

end MyK8s.ApiServer
