import MyK8s.Raft.Shell

/-!
# Election timeouts

The generator of `src/raft/node.rs` and the part of `RaftShell::run` that uses it: a node that has
become a candidate in a step draws its next election timeout.

A candidate whose election times out opens the next one inside the core and is a candidate before and
after the step, so nothing is drawn there. `rearms_iff` says that those are the elections without a
fresh timeout, and all of them.
-/

namespace MyK8s.Raft

/-! ## The generator -/

structure XorShift where
  state : UInt64
  deriving DecidableEq, Repr

def electionTickMin : ℕ := 10

def electionTickJitter : UInt64 := 10

namespace XorShift

def next (g : XorShift) : UInt64 × XorShift :=
  let x := max g.state 1
  let x := x ^^^ (x <<< 13)
  let x := x ^^^ (x >>> 7)
  let x := x ^^^ (x <<< 17)
  (x, ⟨x⟩)

/-- `ELECTION_TICK_MIN + (rng.next() % ELECTION_TICK_JITTER) as u32`. -/
def electionTimeout (g : XorShift) : ℕ × XorShift :=
  let (x, g) := g.next
  (electionTickMin + (x % electionTickJitter).toNat, g)

end XorShift

/-! ## The loop -/

/-- The node of a shell, and its generator. -/
structure ArmedNode where
  node : RaftNode
  rng : XorShift

namespace ArmedNode

/-- `RaftShell::new`: the seed is mixed with the node's id, and the first timeout drawn. -/
def new (id : NodeId) (peers : List NodeId) (seed : UInt64) (disk : RaftStorage) : ArmedNode :=
  let rng : XorShift := ⟨seed + UInt64.ofNat id * 0x9E3779B97F4A7C15⟩
  let (timeout, rng) := rng.electionTimeout
  { node := recover id peers timeout disk, rng := rng }

/-- One turn of the loop in `run`, and the timeout that it draws, if it draws one. -/
def turn (s : ArmedNode) (ev : Event) : ArmedNode × Option ℕ :=
  let wasCandidate := s.node.role.isCandidate
  let node := (s.node.step ev).1
  if !wasCandidate && node.role.isCandidate then
    let (timeout, rng) := s.rng.electionTimeout
    ({ node := node.setElectionTimeout timeout, rng := rng }, some timeout)
  else ({ s with node := node }, none)

/-- The node and the generator after the turns of a run. -/
def run (s : ArmedNode) (events : List Event) : ArmedNode :=
  events.foldl (fun s ev => (s.turn ev).1) s

theorem turn_eq (s : ArmedNode) (ev : Event) :
    s.turn ev =
      if s.node.role.isCandidate = false ∧ (s.node.step ev).1.role.isCandidate = true then
        ({ node := (s.node.step ev).1.setElectionTimeout s.rng.electionTimeout.1
           rng := s.rng.electionTimeout.2 }, some s.rng.electionTimeout.1)
      else ({ s with node := (s.node.step ev).1 }, none) := by
  unfold turn
  simp only [Bool.and_eq_true, Bool.not_eq_true']

/-- The turn is that of the shell, fed with what the generator gives. -/
theorem turn_node (s : ArmedNode) (ev : Event) :
    (s.turn ev).1.node = (stepShell s.node ev s.rng.electionTimeout.1).1 := by
  rw [turn_eq]
  unfold stepShell
  split
  · rename_i hc
    exact (if_pos hc).symm
  · rename_i hc
    exact (if_neg hc).symm

end ArmedNode

/-! ## Peers -/

namespace RaftNode

theorem startElection_peers (n : RaftNode) : n.startElection.1.peers = n.peers := by
  rw [startElection_eq]
  split <;> rfl

theorem tryWin_peers (n : RaftNode) : n.tryWin.1.peers = n.peers := by
  unfold tryWin
  split
  · split <;> rfl
  · rfl

theorem onMessage_peers {n : RaftNode} {src : NodeId} {msg : Message}
    (h : msg.term ≤ n.currentTerm) : (n.step (.message src msg)).1.peers = n.peers := by
  cases msg with
  | requestVote req =>
    rw [step, onRequestVote_eq h]
    split <;> rfl
  | requestVoteResp resp =>
    rw [step]
    rcases onRequestVoteResp_cases src h with heq | ⟨votes, _, _, _, heq⟩
    · rw [heq]
    · rw [heq, tryWin_peers]
  | appendEntries req =>
    rw [step]
    rcases Nat.lt_or_eq_of_le h with hlt | hterm
    · rw [onAppendEntries_of_stale hlt]
    by_cases hprev : n.log.termAt req.prevLogIndex = some req.prevLogTerm
    · rw [onAppendEntries_of_match hterm hprev]
      unfold learned
      split <;> rfl
    · rw [onAppendEntries_of_mismatch hterm hprev]
      rfl
  | appendEntriesResp resp =>
    rw [step]
    rcases onAppendEntriesResp_cases src h with heq | ⟨_, _, _, _, ⟨_, heq⟩ | ⟨_, heq⟩⟩
    · rw [heq]
    · obtain ⟨c, a, hcommit⟩ := tryCommit_frame (n.acknowledged _ _ src resp.matchIndex)
      rw [heq, hcommit]
      rfl
    · rw [heq]
      rfl

/-- The peers of a node are those it was made with. -/
theorem step_peers (n : RaftNode) (ev : Event) : (n.step ev).1.peers = n.peers := by
  cases ev with
  | tick =>
    rw [step]
    rcases n.onTick_cases with ⟨t, heq⟩ | ⟨t, _, heq⟩ | ⟨_, heq⟩
    · rw [heq]
    · rw [heq]
    · rw [heq, startElection_peers]
  | propose cmd =>
    rw [step]
    cases hrole : n.role with
    | leader nextIndex matchIndex =>
      obtain ⟨c, a, hcommit⟩ := (n.appended cmd).tryCommit_frame
      rw [onPropose_of_leader hrole, hcommit]
      rfl
    | _ => rw [onPropose_of_not_leader (by rw [hrole]; rfl)]
  | message src msg =>
    by_cases h : msg.term ≤ n.currentTerm
    · exact onMessage_peers h
    · rw [step_higher (Nat.not_le.mp h)]
      exact onMessage_peers (n := n.adopt msg.term) le_rfl

end RaftNode

/-! ## Elections without a fresh timeout -/

namespace RaftNode

/-- The step opens an election that it does not win at once. -/
def Stands (n : RaftNode) (ev : Event) : Prop :=
  ev = .tick ∧ n.currentTerm < (n.step ev).1.currentTerm ∧ (n.step ev).1.role.isLeader = false

/-- The tick brings the node to its election timeout. -/
def TimesOut (n : RaftNode) (ev : Event) : Prop :=
  ev = .tick ∧ n.electionTimeoutTicks ≤ n.ticksSinceReset + 1

/-- Among peers, the elections opened are those of the nodes that do not lead and time out; they end
as candidates. -/
theorem stands_iff {n : RaftNode} (hpeers : n.peers ≠ []) (ev : Event) :
    n.Stands ev ↔ n.TimesOut ev ∧ n.role.isLeader = false := by
  unfold Stands TimesOut
  rw [and_assoc]
  refine and_congr_right fun hev => ?_
  subst hev
  rw [step]
  unfold onTick
  cases hrole : n.role with
  | leader nextIndex matchIndex =>
    simp only [Role.isLeader, Bool.true_eq_false, and_false, iff_false]
    split
    · exact fun h => absurd h.1 (lt_irrefl _)
    · exact fun h => absurd h.1 (lt_irrefl _)
  | _ =>
    simp only
    split
    · rename_i ht
      rw [startElection_eq, if_neg hpeers]
      exact iff_of_true ⟨Nat.lt_succ_self _, rfl⟩ ⟨ht, rfl⟩
    · rename_i ht
      exact iff_of_false (fun h => absurd h.1 (lt_irrefl _)) fun h => ht h.1

theorem candidate_of_stands {n : RaftNode} (hpeers : n.peers ≠ []) {ev : Event} (h : n.Stands ev) :
    (n.step ev).1.role.isCandidate = true := by
  obtain ⟨rfl, hterm, hlead⟩ := h
  rw [step] at hterm hlead ⊢
  rcases n.onTick_cases with ⟨t, heq⟩ | ⟨t, _, heq⟩ | ⟨_, heq⟩
  · rw [heq] at hterm
    exact absurd hterm (lt_irrefl _)
  · rw [heq] at hterm
    exact absurd hterm (lt_irrefl _)
  · rw [heq, startElection_eq, if_neg hpeers]
    rfl

end RaftNode

namespace ArmedNode

/-- An election that the event opens is followed by the draw of a timeout. -/
def Rearms (s : ArmedNode) (ev : Event) : Prop :=
  s.node.Stands ev → (s.turn ev).2.isSome = true

/-- Only a candidate that times out is left without a fresh timeout. -/
theorem rearms_step {s : ArmedNode} (hpeers : s.node.peers ≠ []) (ev : Event) :
    s.Rearms ev ↔ ¬ (s.node.role.isCandidate = true ∧ s.node.TimesOut ev) := by
  unfold Rearms
  rw [turn_eq]
  constructor
  · rintro h ⟨hc, hout⟩
    have hlead : s.node.role.isLeader = false := by
      cases hrole : s.node.role with
      | leader nextIndex matchIndex => rw [hrole] at hc; cases hc
      | _ => rfl
    have hdrawn := h ((RaftNode.stands_iff hpeers ev).mpr ⟨hout, hlead⟩)
    rw [if_neg (fun hno => by rw [hc] at hno; cases hno.1)] at hdrawn
    cases hdrawn
  · intro h hstands
    have hout := ((RaftNode.stands_iff hpeers ev).mp hstands).1
    have hc : s.node.role.isCandidate = false := Bool.eq_false_iff.mpr fun hc => h ⟨hc, hout⟩
    rw [if_pos ⟨hc, RaftNode.candidate_of_stands hpeers hstands⟩]
    rfl

theorem turn_peers (s : ArmedNode) (ev : Event) :
    (s.turn ev).1.node.peers = s.node.peers := by
  rw [turn_eq]
  split
  · exact s.node.step_peers ev
  · exact s.node.step_peers ev

theorem run_peers (s : ArmedNode) (events : List Event) :
    (s.run events).node.peers = s.node.peers := by
  induction events using List.reverseRecOn with
  | nil => rfl
  | append_singleton past ev ih =>
    unfold run at ih ⊢
    rw [List.foldl_concat, turn_peers, ih]

/-- **Fresh timeouts.** In a run of a node with peers every election is followed by a fresh timeout
if and only if no tick of it brings a node that is a candidate already to its election timeout. -/
theorem rearms_iff (id : NodeId) (peers : List NodeId) (seed : UInt64) (disk : RaftStorage)
    (hpeers : peers ≠ []) (events : List Event) :
    (∀ past ev, past ++ [ev] <+: events → ((new id peers seed disk).run past).Rearms ev) ↔
      ∀ past ev, past ++ [ev] <+: events →
        ¬ (((new id peers seed disk).run past).node.role.isCandidate = true ∧
          ((new id peers seed disk).run past).node.TimesOut ev) := by
  refine forall_congr' fun past => forall_congr' fun ev => imp_congr_right fun _ => ?_
  refine rearms_step ?_ ev
  rw [run_peers]
  exact hpeers

/-- The first election of node 1, on its 19th tick. -/
theorem rearms_first_election :
    ((new 1 [2, 3] 0 .fresh).run (List.replicate 18 .tick)).Rearms .tick := by
  refine (rearms_iff 1 [2, 3] 0 .fresh (by decide) (List.replicate 19 .tick)).mpr ?_ _ .tick
    List.prefix_rfl
  intro past ev hp hcontra
  have hfollower : ∀ k < 19, ((new 1 [2, 3] 0 .fresh).run
      (List.replicate k .tick)).node.role.isCandidate = false := by
    decide +kernel
  obtain ⟨hlen, hticks⟩ := List.prefix_replicate_iff.mp hp
  rw [List.length_append, List.length_singleton] at hlen
  have hpast : past = List.replicate past.length .tick := by
    refine List.eq_replicate_of_mem fun e he => ?_
    have hmem : e ∈ past ++ [ev] := List.mem_append_left _ he
    rw [hticks] at hmem
    exact List.eq_of_mem_replicate hmem
  rw [hpast, hfollower _ (by omega)] at hcontra
  cases hcontra.1

/-- Node 1 draws 19 and then 14 ticks; the tick after the 32nd opens its second election. -/
theorem second_election_keeps_timeout :
    ¬ ((new 1 [2, 3] 0 .fresh).run (List.replicate 32 .tick)).Rearms .tick := by
  intro h
  have hdrawn := h ⟨rfl, by decide +kernel, by decide +kernel⟩
  exact absurd hdrawn (by decide +kernel)

end ArmedNode

end MyK8s.Raft
