import MyK8s.Raft.Delivery

/-!
# Log repair

A leader that does not know where a follower's log stops to agree with its own probes: a rejected
AppendEntries moves `next_index` back by one, and the next message carries one entry more. The walk
is spread over `append_for`, `on_append_entries` and `on_append_entries_resp`, on two nodes;
`Exchange.round` is one turn of it and `Exchange.log_repair` says that it ends.
-/

namespace MyK8s.Raft

namespace RaftNode

section Replies

variable {n : RaftNode} {nextIndex matchIndex : PeerMap} {src : NodeId} {resp : AppendEntriesResp}

theorem onAppendEntriesResp_of_success (hrole : n.role = .leader nextIndex matchIndex)
    (hterm : resp.term = n.currentTerm) (hs : resp.success = true) :
    n.onAppendEntriesResp src resp =
      (n.acknowledged nextIndex matchIndex src resp.matchIndex).tryCommit := by
  unfold onAppendEntriesResp
  simp only [maybeStepDown_of_le hterm.le, if_neg (Nat.not_lt.mpr hterm.ge), hrole, hs, if_true]
  rfl

theorem onAppendEntriesResp_of_failure (hrole : n.role = .leader nextIndex matchIndex)
    (hterm : resp.term = n.currentTerm) (hs : resp.success = false) :
    n.onAppendEntriesResp src resp =
      (n.backedUp nextIndex matchIndex src, [(n.backedUp nextIndex matchIndex src).appendFor src]) := by
  unfold onAppendEntriesResp
  simp only [maybeStepDown_of_le hterm.le, if_neg (Nat.not_lt.mpr hterm.ge), hrole, hs,
    Bool.false_eq_true, if_false]
  rfl

end Replies

/-- The match index that a leader has for the peer. -/
def matchFor (n : RaftNode) (peer : NodeId) : Option ℕ :=
  match n.role with
  | .leader _ matchIndex => matchIndex peer
  | _ => none

end RaftNode

/-- The reply to an AppendEntries message in a batch. -/
def Effect.appendReply (effects : List Effect) : Option AppendEntriesResp :=
  effects.findSome? fun
    | .send _ (.appendEntriesResp resp) => some resp
    | _ => none

theorem Effect.appendReply_concat {effects : List Effect} (h : ∀ e ∈ effects, e.isSend = false)
    (dst : NodeId) (resp : AppendEntriesResp) :
    Effect.appendReply (effects ++ [.send dst (.appendEntriesResp resp)]) = some resp := by
  unfold appendReply
  rw [List.findSome?_append, List.findSome?_eq_none_iff.mpr fun e he => ?_]
  · rfl
  · cases e with
    | send dst msg => cases h _ he
    | _ => rfl

/-- A leader and a follower. -/
structure Exchange where
  leader : RaftNode
  follower : RaftNode

namespace Exchange

/-- The leader's message to the follower `p` is delivered, and the reply to it; the flag of the reply
tells whether the message was accepted. -/
def round (p : NodeId) (x : Exchange) : Exchange × Bool :=
  match x.leader.appendFor p with
  | .send _ msg =>
    let (follower, effects) := x.follower.step (.message x.leader.id msg)
    match Effect.appendReply effects with
    | some resp =>
      ({ leader := (x.leader.step (.message p (.appendEntriesResp resp))).1, follower := follower },
        resp.success)
    | none => (x, false)
  | _ => (x, false)

/-- The nodes after the given number of rounds. -/
def after (p : NodeId) : ℕ → Exchange → Exchange
  | 0, x => x
  | k + 1, x => after p k (x.round p).1

/-- The leader probes the follower `p` at `next`, in the term that both are in. -/
structure Probing (p : NodeId) (log : RaftLog) (next : ℕ) (x : Exchange) : Prop where
  kept : x.leader.log = log
  books : ∃ nextIndex matchIndex, x.leader.role = .leader nextIndex matchIndex ∧
    nextIndex p = some next ∧ (matchIndex p).getD 0 ≤ log.lastIndex
  pos : 1 ≤ next
  le : next ≤ log.lastIndex + 1
  term : x.follower.currentTerm = x.leader.currentTerm
  coherent : Coherent log.entries
  matching : LogMatching x.follower.log log

/-- The follower `p` has the log of the leader, and the leader knows. -/
structure Repaired (p : NodeId) (log : RaftLog) (x : Exchange) : Prop where
  kept : x.leader.log = log
  agrees : ∀ j, 1 ≤ j → j ≤ log.lastIndex → x.follower.log.get j = log.get j
  matched : x.leader.matchFor p = some log.lastIndex

section Round

variable {p : NodeId} {log : RaftLog} {next : ℕ} {x : Exchange}

theorem Probing.nextFor (h : Probing p log next x) : x.leader.nextFor p = next := by
  obtain ⟨nextIndex, matchIndex, hrole, hnext, _⟩ := h.books
  unfold RaftNode.nextFor
  rw [hrole]
  simp only [hnext, Option.getD_some]

/-- The message of a round. -/
def probe (x : Exchange) (next : ℕ) : AppendEntriesReq where
  term := x.leader.currentTerm
  leaderId := x.leader.id
  prevLogIndex := next - 1
  prevLogTerm := (x.leader.log.termAt (next - 1)).getD 0
  entries := x.leader.log.entriesFrom next
  leaderCommit := x.leader.commitIndex

theorem Probing.appendFor (h : Probing p log next x) :
    x.leader.appendFor p = .send p (.appendEntries (x.probe next)) := by
  rw [RaftNode.appendFor_eq, h.nextFor]
  rfl

theorem Probing.length (h : Probing p log next x) :
    (x.probe next).prevLogIndex + (x.probe next).entries.length = log.lastIndex := by
  obtain ⟨prev, rfl⟩ : ∃ prev, next = prev + 1 := ⟨next - 1, by have := h.pos; omega⟩
  have hle := h.le
  show prev + 1 - 1 + (x.leader.log.entriesFrom (prev + 1)).length = log.lastIndex
  rw [RaftLog.entriesFrom_succ, List.length_drop, h.kept]
  unfold RaftLog.lastIndex at hle ⊢
  omega

/-- A rejected message was not the one that builds on nothing, and moves the index back. -/
theorem Probing.rejected (h : Probing p log next x)
    (hprev : x.follower.log.termAt (x.probe next).prevLogIndex ≠ some (x.probe next).prevLogTerm) :
    (x.round p).2 = false ∧ 1 < next ∧ Probing p log (next - 1) (x.round p).1 := by
  obtain ⟨nextIndex, matchIndex, hrole, hnext, hmatched⟩ := h.books
  have hpos : 1 < next := by
    by_contra hle
    obtain rfl : next = 1 := by have := h.pos; omega
    exact hprev rfl
  have hround : x.round p = ({
      leader := x.leader.backedUp nextIndex matchIndex p
      follower := x.follower.heard x.leader.id }, false) := by
    unfold round
    simp only [h.appendFor, RaftNode.step]
    rw [RaftNode.onAppendEntries_of_mismatch h.term.symm hprev]
    simp only [RaftNode.rejectAppend, Effect.appendReply, List.findSome?_cons]
    rw [RaftNode.onAppendEntriesResp_of_failure hrole h.term rfl]
    rfl
  rw [hround]
  refine ⟨rfl, hpos, ?_⟩
  have hle := h.le
  refine ⟨h.kept, ⟨_, matchIndex, rfl, ?_, hmatched⟩, by omega, by omega, h.term, h.coherent,
    h.matching⟩
  rw [Function.update_self, hnext, Option.getD_some, max_eq_left (by omega)]

/-- An accepted message repairs the log. -/
theorem Probing.accepted (h : Probing p log next x)
    (hprev : x.follower.log.termAt (x.probe next).prevLogIndex = some (x.probe next).prevLogTerm) :
    (x.round p).2 = true ∧ Repaired p log (x.round p).1 := by
  obtain ⟨nextIndex, matchIndex, hrole, hnext, hmatched⟩ := h.books
  have hround : x.round p = ({
      leader := (x.leader.acknowledged nextIndex matchIndex p log.lastIndex).tryCommit.1
      follower := (x.follower.onAppendEntries x.leader.id (x.probe next)).1 }, true) := by
    unfold round
    simp only [h.appendFor, RaftNode.step]
    rw [RaftNode.onAppendEntries_of_match h.term.symm hprev]
    unfold RaftNode.ackAppend
    rw [Effect.appendReply_concat fun e he => ?_]
    · simp only [h.length]
      rw [RaftNode.onAppendEntriesResp_of_success hrole h.term rfl]
    · rcases List.mem_append.mp he with he | he
      · exact Effect.not_isSend_of_isStore (RaftNode.mergeEntries_isStore he)
      · exact Effect.not_isSend_of_isApply (RaftNode.learned_isApply he)
  rw [hround]
  obtain ⟨c, a, hcommit⟩ :=
    (x.leader.acknowledged nextIndex matchIndex p log.lastIndex).tryCommit_frame
  have hpre : log.entries <+: (x.follower.onAppendEntries x.leader.id (x.probe next)).1.log.entries := by
    have hpre := @RaftNode.prefix_of_accepts x.leader x.follower x.leader.id p (x.probe next)
      h.appendFor (h.kept ▸ h.coherent) (h.nextFor ▸ h.pos) (by rw [h.nextFor, h.kept]; exact h.le)
      (h.kept ▸ h.matching) ⟨h.term.le, hprev⟩
    rwa [h.kept] at hpre
  refine ⟨rfl, ?_, fun j hj hle => ?_, ?_⟩
  · rw [hcommit]
    exact h.kept
  · obtain ⟨k, rfl⟩ : ∃ k, j = k + 1 := ⟨j - 1, by omega⟩
    obtain ⟨s, hs⟩ := hpre
    rw [RaftLog.get_succ, RaftLog.get_succ, ← hs, List.getElem?_append_left hle]
  · rw [hcommit]
    show Function.update matchIndex p (some (max ((matchIndex p).getD 0) log.lastIndex)) p = _
    rw [Function.update_self, max_eq_right hmatched]

/-- From a probe at `next`, fewer than `next` messages are rejected before one is accepted. -/
theorem Probing.repaired {next : ℕ} : ∀ {x : Exchange}, Probing p log next x →
    ∃ r < next, (∀ k < r, ((x.after p k).round p).2 = false) ∧
      ((x.after p r).round p).2 = true ∧ Repaired p log (x.after p (r + 1)) := by
  induction next with
  | zero => intro x h; exact absurd h.pos (by omega)
  | succ next ih =>
    intro x h
    by_cases hprev : x.follower.log.termAt (x.probe (next + 1)).prevLogIndex =
        some (x.probe (next + 1)).prevLogTerm
    · obtain ⟨hflag, hrepaired⟩ := h.accepted hprev
      exact ⟨0, Nat.succ_pos _, fun k hk => absurd hk (Nat.not_lt_zero k), hflag, hrepaired⟩
    · obtain ⟨hflag, _, hprobing⟩ := h.rejected hprev
      obtain ⟨r, hr, hrejected, haccepted, hrepaired⟩ := ih hprobing
      refine ⟨r + 1, by omega, fun k hk => ?_, haccepted, hrepaired⟩
      cases k with
      | zero => exact hflag
      | succ k => exact hrejected k (by omega)

end Round

/-- **Log repair terminates.** Whatever the two logs, as long as they match, and wherever
`next_index` starts: fewer than `next_index` messages are rejected, then one is accepted, and from
there the follower agrees with the leader at every index of its log, as the match index says. -/
theorem log_repair (leader follower : RaftNode) (p : NodeId) {nextIndex matchIndex : PeerMap}
    {next : ℕ} (hrole : leader.role = .leader nextIndex matchIndex) (hnext : nextIndex p = some next)
    (hpos : 1 ≤ next) (hle : next ≤ leader.log.lastIndex + 1)
    (hmatched : (matchIndex p).getD 0 ≤ leader.log.lastIndex)
    (hterm : follower.currentTerm = leader.currentTerm) (hcoherent : Coherent leader.log.entries)
    (hmatching : LogMatching follower.log leader.log) :
    let x : Exchange := ⟨leader, follower⟩
    ∃ r < next, (∀ k < r, ((x.after p k).round p).2 = false) ∧
      ((x.after p r).round p).2 = true ∧ (x.after p (r + 1)).leader.log = leader.log ∧
      (∀ j, 1 ≤ j → j ≤ leader.log.lastIndex →
        (x.after p (r + 1)).follower.log.get j = leader.log.get j) ∧
      (x.after p (r + 1)).leader.matchFor p = some leader.log.lastIndex := by
  intro x
  have hprobing : Probing p leader.log next x :=
    ⟨rfl, ⟨nextIndex, matchIndex, hrole, hnext, hmatched⟩, hpos, hle, hterm, hcoherent, hmatching⟩
  obtain ⟨r, hr, hrejected, haccepted, hrepaired⟩ := hprobing.repaired
  exact ⟨r, hr, hrejected, haccepted, hrepaired.kept, hrepaired.agrees, hrepaired.matched⟩

/-- A leader of term 3, and a follower with two entries of the leader before it. -/
def diverged : Exchange where
  leader := { RaftNode.new 1 [2, 3] 10 with
    role := .leader (fun _ => some 3) (fun _ => some 0)
    currentTerm := 3
    log := ⟨[⟨1, 1, [7]⟩, ⟨3, 2, [8]⟩]⟩ }
  follower := { RaftNode.new 2 [1, 3] 10 with
    currentTerm := 3
    log := ⟨[⟨1, 1, [7]⟩, ⟨2, 2, [9]⟩, ⟨2, 3, [9]⟩]⟩ }

theorem diverged_matching : LogMatching diverged.follower.log diverged.leader.log := by
  intro i e e' he he' ht j hj
  match i, he, he' with
  | 0, he, _ => cases he
  | 1, _, _ =>
    obtain rfl | rfl : j = 0 ∨ j = 1 := by omega
    · rfl
    · rfl
  | 2, he, he' =>
    cases he
    cases he'
    cases ht
  | _ + 3, _, he' => cases he'

/-- One rejection, and the two entries are replaced. -/
theorem log_repair_diverged : ∃ r < 3, (diverged.after 2 (r + 1)).leader.matchFor 2 = some 2 := by
  obtain ⟨r, hr, -, -, -, -, hmatched⟩ := log_repair diverged.leader diverged.follower 2
    rfl rfl (by decide) (by decide) (by decide) rfl (by decide) diverged_matching
  exact ⟨r, hr, hmatched⟩

end Exchange

end MyK8s.Raft
