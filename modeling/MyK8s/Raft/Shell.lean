import MyK8s.Lib.Runs
import MyK8s.Raft.Node

/-!
# The event loop and the leader watch

The loop of `RaftShell::run`: a step of the state machine, its batch, and then the node's
`leader_hint` on the leader watch. Those who read the watch take the node for the leader when the
hint names the node itself.

A node that steps down keeps the hint it had, so a leader that hears of a higher term goes on naming
itself. `hintAgrees_step_iff` says on which events hint and role stay in agreement.
-/

namespace MyK8s.Raft

/-! ## The loop -/

structure RaftShell (σ : Type) where
  node : RaftNode
  storage : σ
  leaderWatch : Option NodeId

namespace RaftShell

variable {σ : Type}

/-- `RaftShell::new`, on the watch channel of `spawn_raft`, which starts with no leader. -/
def new (id : NodeId) (peers : List NodeId) (timeout : ℕ) (disk : RaftStorage) :
    RaftShell RaftStorage where
  node := recover id peers timeout disk
  storage := disk
  leaderWatch := none

/-- One turn of the loop in `run`. `send_if_modified` writes the watch where it differs. -/
def turn (api : StorageApi σ) (s : RaftShell σ) (input : Event × ℕ) : RaftShell σ :=
  let (node, effects) := stepShell s.node input.1 input.2
  let (storage, _) := execute api node s.storage effects
  { node := node
    storage := storage
    leaderWatch := if s.leaderWatch ≠ node.leaderHint then node.leaderHint else s.leaderWatch }

/-- The shell after the turns of a run. -/
def run (api : StorageApi σ) (s : RaftShell σ) (inputs : List (Event × ℕ)) : RaftShell σ :=
  inputs.foldl (turn api) s

theorem turn_node (api : StorageApi σ) (s : RaftShell σ) (input : Event × ℕ) :
    (s.turn api input).node = (stepShell s.node input.1 input.2).1 := rfl

/-- After a turn the watch shows the hint of the node. -/
theorem turn_leaderWatch (api : StorageApi σ) (s : RaftShell σ) (input : Event × ℕ) :
    (s.turn api input).leaderWatch = (s.turn api input).node.leaderHint := by
  unfold turn
  simp only
  split
  · rfl
  · rename_i h
    exact not_not.mp h

end RaftShell

/-! ## Hint and role -/

namespace RaftNode

/-- The node names itself as the leader exactly when it is. -/
def HintAgrees (n : RaftNode) : Prop := n.leaderHint = some n.id ↔ n.role.isLeader = true

/-- The event is none of those that set hint and role apart: a message of a higher term to a leader,
or an AppendEntries message that counts and whose `leader_id` is the node's own while it does not
lead the term, or another's while it does. -/
def KeepsHint (n : RaftNode) : Event → Prop
  | .message _ (.appendEntries req) => n.currentTerm ≤ req.term →
    (req.leaderId = n.id ↔ n.role.isLeader = true ∧ req.term = n.currentTerm)
  | .message _ msg => n.currentTerm < msg.term → n.role.isLeader = false
  | _ => True

/-- Identity, hint and leadership are as before. -/
structure SameHint (n n' : RaftNode) : Prop where
  id : n'.id = n.id
  hint : n'.leaderHint = n.leaderHint
  leads : n'.role.isLeader = n.role.isLeader

/-- The node has just won an election. -/
structure Won (n n' : RaftNode) : Prop where
  id : n'.id = n.id
  hint : n'.leaderHint = some n.id
  leads : n'.role.isLeader = true

section Hint

variable {n n' : RaftNode}

theorem SameHint.agrees_iff (h : SameHint n n') : n'.HintAgrees ↔ n.HintAgrees := by
  unfold HintAgrees
  rw [h.id, h.hint, h.leads]

theorem Won.agrees (h : Won n n') : n'.HintAgrees := by
  unfold HintAgrees
  simp [h.id, h.hint, h.leads]

theorem sameHint_tryCommit (n : RaftNode) : SameHint n n.tryCommit.1 := by
  obtain ⟨c, a, heq⟩ := n.tryCommit_frame
  rw [heq]
  exact ⟨rfl, rfl, rfl⟩

theorem won_elected (n : RaftNode) : Won n n.elected := ⟨rfl, rfl, rfl⟩

theorem startElection_agrees (n : RaftNode) : n.startElection.1.HintAgrees := by
  rw [startElection_eq]
  split
  · exact (won_elected n.standing).agrees
  · unfold HintAgrees
    simp [standing, Role.isLeader]

theorem onTick_agrees (h : n.HintAgrees) : n.onTick.1.HintAgrees := by
  rcases n.onTick_cases with ⟨t, heq⟩ | ⟨t, _, heq⟩ | ⟨_, heq⟩
  · rw [heq]
    exact h
  · rw [heq]
    exact h
  · rw [heq]
    exact startElection_agrees _

theorem onPropose_agrees (h : n.HintAgrees) (cmd : Command) :
    (n.onPropose cmd).1.HintAgrees := by
  cases hrole : n.role with
  | leader nextIndex matchIndex =>
    rw [onPropose_of_leader hrole]
    exact (sameHint_tryCommit _).agrees_iff.mpr h
  | _ =>
    rw [onPropose_of_not_leader (by rw [hrole]; rfl)]
    exact h

/-- At a term that has been reached only an AppendEntries message touches the hint, unless the node
wins an election. -/
theorem onMessage_hint (src : NodeId) {msg : Message} (hle : msg.term ≤ n.currentTerm)
    (hae : ∀ req, msg ≠ .appendEntries req) :
    SameHint n (n.step (.message src msg)).1 ∨
      (n.role.isCandidate = true ∧ Won n (n.step (.message src msg)).1) := by
  cases msg with
  | appendEntries req => exact absurd rfl (hae req)
  | requestVote req =>
    rw [step, onRequestVote_eq hle]
    split
    · exact Or.inl ⟨rfl, rfl, rfl⟩
    · exact Or.inl ⟨rfl, rfl, rfl⟩
  | requestVoteResp resp =>
    rw [step]
    rcases onRequestVoteResp_cases src hle with heq | ⟨votes, hrole, _, _, heq⟩
    · rw [heq]
      exact Or.inl ⟨rfl, rfl, rfl⟩
    · rw [heq]
      set m : RaftNode := { n with role := .candidate (insert src votes) }
      have hm : m.role = .candidate (insert src votes) := rfl
      rcases Nat.lt_or_ge (insert src votes).card m.majority with hlt | hge
      · rw [tryWin_of_lt hm hlt]
        exact Or.inl ⟨rfl, rfl, by rw [hrole]; rfl⟩
      · rw [tryWin_of_majority hm hge]
        exact Or.inr ⟨by rw [hrole]; rfl, ⟨rfl, rfl, rfl⟩⟩
  | appendEntriesResp resp =>
    rw [step]
    rcases onAppendEntriesResp_cases src hle with
      heq | ⟨nextIndex, matchIndex, hrole, _, ⟨_, heq⟩ | ⟨_, heq⟩⟩
    · rw [heq]
      exact Or.inl ⟨rfl, rfl, rfl⟩
    · rw [heq]
      obtain ⟨hid, hhint, hleads⟩ :=
        sameHint_tryCommit (n.acknowledged nextIndex matchIndex src resp.matchIndex)
      exact Or.inl ⟨hid, hhint, by rw [hleads, hrole]; rfl⟩
    · rw [heq]
      exact Or.inl ⟨rfl, rfl, by rw [hrole]; rfl⟩

/-- An AppendEntries message of the node's term sets the hint and leaves leadership alone. -/
theorem onAppendEntries_hint (src : NodeId) {req : AppendEntriesReq}
    (hterm : req.term = n.currentTerm) :
    let n' := (n.onAppendEntries src req).1
    n'.id = n.id ∧ n'.leaderHint = some req.leaderId ∧ n'.role.isLeader = n.role.isLeader := by
  have hheard : (n.heard req.leaderId).role.isLeader = n.role.isLeader := by
    unfold heard
    cases n.role with
    | _ => rfl
  by_cases hp : n.log.termAt req.prevLogIndex = some req.prevLogTerm
  · rw [onAppendEntries_of_match hterm hp]
    unfold learned
    split
    · exact ⟨rfl, rfl, hheard⟩
    · exact ⟨rfl, rfl, hheard⟩
  · rw [onAppendEntries_of_mismatch hterm hp]
    exact ⟨rfl, rfl, hheard⟩

theorem onAppendEntries_agrees_iff (src : NodeId) {req : AppendEntriesReq}
    (hterm : req.term = n.currentTerm) :
    (n.onAppendEntries src req).1.HintAgrees ↔ (req.leaderId = n.id ↔ n.role.isLeader = true) := by
  obtain ⟨hid, hhint, hleads⟩ := onAppendEntries_hint src hterm
  unfold HintAgrees
  rw [hid, hhint, hleads, Option.some_inj]

/-- **One step.** From agreement, hint and role agree again exactly if the event keeps them. -/
theorem hintAgrees_step_iff (h : n.HintAgrees) (ev : Event) :
    (n.step ev).1.HintAgrees ↔ n.KeepsHint ev := by
  cases ev with
  | tick => exact iff_of_true (onTick_agrees h) trivial
  | propose cmd => exact iff_of_true (onPropose_agrees h cmd) trivial
  | message src msg =>
    by_cases hae : ∃ req, msg = .appendEntries req
    · obtain ⟨req, rfl⟩ := hae
      unfold KeepsHint
      rcases Nat.lt_trichotomy req.term n.currentTerm with hlt | heq | hgt
      · rw [step, onAppendEntries_of_stale hlt]
        exact iff_of_true h fun hle => absurd hle (Nat.not_le.mpr hlt)
      · rw [step, onAppendEntries_agrees_iff src heq]
        simp [heq]
      · have hlt : n.currentTerm < (Message.appendEntries req).term := hgt
        have hagrees : ((n.adopt req.term).onAppendEntries src req).1.HintAgrees ↔ _ :=
          onAppendEntries_agrees_iff src rfl
        rw [step_higher hlt, step]
        refine hagrees.trans ?_
        simp [adopt, Role.isLeader, hgt.le, hgt.ne']
    · have hkeeps : n.KeepsHint (.message src msg) ↔
          (n.currentTerm < msg.term → n.role.isLeader = false) := by
        cases msg with
        | appendEntries req => exact absurd ⟨req, rfl⟩ hae
        | _ => rfl
      have hae' : ∀ req, msg ≠ .appendEntries req := fun req hreq => hae ⟨req, hreq⟩
      rw [hkeeps]
      by_cases hle : msg.term ≤ n.currentTerm
      · refine iff_of_true ?_ fun hlt => absurd hlt (Nat.not_lt.mpr hle)
        rcases onMessage_hint src hle hae' with hsame | ⟨_, hwon⟩
        · exact hsame.agrees_iff.mpr h
        · exact hwon.agrees
      · -- the node steps down and keeps the hint it had
        have hlt := Nat.not_le.mp hle
        rw [step_higher hlt]
        rcases onMessage_hint (n := n.adopt msg.term) src le_rfl hae' with hsame | ⟨hc, _⟩
        · rw [hsame.agrees_iff]
          unfold HintAgrees at h ⊢
          change (n.leaderHint = some n.id ↔ false = true) ↔ _
          rw [h]
          simp [hlt]
        · cases hc

theorem startElection_id (n : RaftNode) : n.startElection.1.id = n.id := by
  rw [startElection_eq]
  split
  · rfl
  · rfl

/-- A node keeps its identity. -/
theorem step_id (n : RaftNode) (ev : Event) : (n.step ev).1.id = n.id := by
  have reached : ∀ (m : RaftNode) (src : NodeId) (msg : Message), msg.term ≤ m.currentTerm →
      (m.step (.message src msg)).1.id = m.id := by
    intro m src msg hle
    by_cases hae : ∃ req, msg = .appendEntries req
    · obtain ⟨req, rfl⟩ := hae
      rcases Nat.lt_or_eq_of_le hle with hlt | heq
      · rw [step, onAppendEntries_of_stale hlt]
      · exact (onAppendEntries_hint src heq).1
    · rcases onMessage_hint src hle fun req hreq => hae ⟨req, hreq⟩ with h | ⟨_, h⟩
      · exact h.id
      · exact h.id
  cases ev with
  | tick =>
    rw [step]
    rcases n.onTick_cases with ⟨t, heq⟩ | ⟨t, _, heq⟩ | ⟨_, heq⟩
    · rw [heq]
    · rw [heq]
    · rw [heq, startElection_id]
  | propose cmd =>
    rw [step]
    cases hrole : n.role with
    | leader nextIndex matchIndex =>
      rw [onPropose_of_leader hrole]
      exact (sameHint_tryCommit _).id
    | _ => rw [onPropose_of_not_leader (by rw [hrole]; rfl)]
  | message src msg =>
    by_cases hle : msg.term ≤ n.currentTerm
    · exact reached n src msg hle
    · rw [step_higher (Nat.not_le.mp hle)]
      exact reached (n.adopt msg.term) src msg le_rfl

theorem stepShell_id (n : RaftNode) (ev : Event) (timeout : ℕ) :
    (stepShell n ev timeout).1.id = n.id := by
  rw [← n.step_id ev]
  unfold stepShell
  simp only
  split
  · rfl
  · rfl

theorem hintAgrees_stepShell_iff (h : n.HintAgrees) (ev : Event) (timeout : ℕ) :
    (stepShell n ev timeout).1.HintAgrees ↔ n.KeepsHint ev := by
  rw [← hintAgrees_step_iff h ev]
  unfold stepShell
  simp only
  split
  · rfl
  · rfl

end Hint

end RaftNode

end MyK8s.Raft
