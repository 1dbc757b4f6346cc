import MyK8s.Raft.Bookkeeping

/-!
# Some members on their own

What some members of a cluster can do while all the others stand still: handle an event to its end, wait
until a timeout or a heartbeat is due, and, where they are a majority, elect one of them.
-/

namespace MyK8s.Raft

open Consensus (IsMajority)

/-- A move of a member of `Q` with what is there: not a crash, not a command from outside, and no packet
of a node that is not in `Q`. -/
def Move.Within (Q : Finset NodeId) : Move → Prop
  | .event v .tick _ => v ∈ Q
  | .event v (.message src _) _ => v ∈ Q ∧ src ∈ Q
  | .exec v => v ∈ Q
  | _ => False

namespace Cluster

/-- The members of `Q` alone get from one state to the other. -/
def ReachesWithin (cfg : Config) (Q : Finset NodeId) : Cluster → Cluster → Prop :=
  Relation.ReflTransGen fun w w' => ∃ m, Move.Within Q m ∧ w.step cfg m = some w'

/-- The batches of the members of `Q` have been run. -/
def Calm (Q : Finset NodeId) (w : Cluster) : Prop := ∀ u ∈ Q, (w.replicas u).pending = []

/-- Node `v` has come to `r.1` and has sent what is sent in `r.2`; nothing else has changed. -/
structure Turned (w : Cluster) (v : NodeId) (r : RaftNode × List Effect) (w' : Cluster) : Prop where
  node : (w'.replicas v).node = r.1
  idle : (w'.replicas v).pending = []
  others : ∀ u ≠ v, w'.replicas u = w.replicas u
  network : w.network ⊆ w'.network
  sent : ∀ dst msg, .send dst msg ∈ r.2 → ⟨v, dst, msg⟩ ∈ w'.network

section Turns

variable {cfg : Config} {Q : Finset NodeId} {w w' w₁ : Cluster} {v : NodeId}

theorem ReachesWithin.reaches (h : ReachesWithin cfg Q w w') : Reaches cfg w w' := by
  induction h with
  | refl => exact .refl
  | tail _ hstep ih =>
    obtain ⟨m, -, hm⟩ := hstep
    exact ih.tail ⟨m, hm⟩

theorem ReachesWithin.reachable (h : ReachesWithin cfg Q w w') (hw : Reachable cfg w) : Reachable cfg w' :=
  hw.trans h.reaches

theorem Turned.calm {r : RaftNode × List Effect} (h : Turned w v r w') (hcalm : Calm Q w) : Calm Q w' := by
  intro u hu
  by_cases huv : u = v
  · rw [huv]
    exact h.idle
  · rw [h.others u huv]
    exact hcalm u hu

/-- The turns of one node, one after the other. -/
theorem Turned.after {r r' : RaftNode × List Effect} (h : Turned w v r w₁) (h' : Turned w₁ v r' w') :
    Turned w v r' w' where
  node := h'.node
  idle := h'.idle
  others u hu := (h'.others u hu).trans (h.others u hu)
  network := List.Subset.trans h.network h'.network
  sent := h'.sent

/-- A member runs the rest of its batch. -/
theorem exists_drained (hids : v ∈ cfg.ids) (hv : v ∈ Q) (pending : List Effect) :
    ∀ w : Cluster, (w.replicas v).pending = pending →
      ∃ w', ReachesWithin cfg Q w w' ∧ Turned w v ((w.replicas v).node, pending) w' := by
  induction pending with
  | nil =>
    exact fun w hp => ⟨w, .refl, rfl, hp, fun _ _ => rfl, List.Subset.refl _, fun _ _ h => nomatch h⟩
  | cons e rest ih =>
    intro w hp
    have hstep : w.step cfg (.exec v) =
        some { w.set v (runEffect (w.replicas v) e rest) with
          network := w.network ++ packets v e } := by
      simp only [step, hp, if_pos hids]
    set w₁ : Cluster := { w.set v (runEffect (w.replicas v) e rest) with
      network := w.network ++ packets v e } with hw₁
    have hself : w₁.replicas v = runEffect (w.replicas v) e rest := set_replicas_self w v _
    obtain ⟨w', hreach, hturn⟩ := ih w₁ (by rw [hself]; rfl)
    rw [hself] at hturn
    refine ⟨w', .head ⟨.exec v, hv, hstep⟩ hreach, hturn.node, hturn.idle, fun u hu => ?_, ?_, ?_⟩
    · exact (hturn.others u hu).trans (set_replicas_of_ne w hu _)
    · exact List.Subset.trans (List.subset_append_left _ _) hturn.network
    · intro dst msg hm
      rcases List.mem_cons.mp hm with rfl | hm
      · exact hturn.network (List.mem_append_right _ List.mem_cons_self)
      · exact hturn.sent dst msg hm

/-- All members run the rest of their batches. -/
theorem exists_calm (hQ : Q ⊆ cfg.ids) (w : Cluster) : ∃ w', ReachesWithin cfg Q w w' ∧ Calm Q w' := by
  have hall : ∀ s ⊆ Q, ∃ w', ReachesWithin cfg Q w w' ∧ Calm s w' := by
    intro s
    induction s using Finset.induction_on with
    | empty => exact fun _ => ⟨w, .refl, fun u hu => absurd hu (Finset.notMem_empty u)⟩
    | insert v s _ ih =>
      intro hs
      obtain ⟨hv, hs⟩ := Finset.insert_subset_iff.mp hs
      obtain ⟨w₁, hreach, hcalm⟩ := ih hs
      obtain ⟨w₂, hreach', hturn⟩ := exists_drained (hQ hv) hv _ w₁ rfl
      refine ⟨w₂, hreach.trans hreach', fun u hu => ?_⟩
      rcases Finset.mem_insert.mp hu with rfl | hu
      · exact hturn.idle
      · exact hturn.calm hcalm u hu
  exact hall Q (Finset.Subset.refl Q)

theorem stepShell_self (n : RaftNode) (ev : Event) :
    stepShell n ev (n.step ev).1.electionTimeoutTicks = n.step ev := by
  unfold stepShell
  simp only
  split <;> rfl

/-- An event can be handled, and the batch run. -/
theorem exists_handled (hids : v ∈ cfg.ids) (hv : v ∈ Q) (hidle : (w.replicas v).pending = []) {ev : Event}
    (hoffers : w.offers v ev = true) :
    ∃ timeout w₁ w', w.step cfg (.event v ev timeout) = some w₁ ∧ ReachesWithin cfg Q w₁ w' ∧
      Turned w v ((w.replicas v).node.step ev) w' := by
  have hstep : w.step cfg (.event v ev ((w.replicas v).node.step ev).1.electionTimeoutTicks) =
      some (w.set v { w.replicas v with
        node := ((w.replicas v).node.step ev).1, pending := ((w.replicas v).node.step ev).2 }) := by
    simp only [step, if_pos (And.intro hids (And.intro hidle hoffers)), stepShell_self]
  have hself := set_replicas_self w v { w.replicas v with
    node := ((w.replicas v).node.step ev).1, pending := ((w.replicas v).node.step ev).2 }
  obtain ⟨w', hreach, hturn⟩ := exists_drained hids hv _ _ (congrArg Replica.pending hself)
  rw [hself] at hturn
  refine ⟨_, _, w', hstep, hreach, hturn.node, hturn.idle, fun u hu => ?_, hturn.network, hturn.sent⟩
  exact (hturn.others u hu).trans (set_replicas_of_ne w hu _)

theorem exists_ticked (hQ : Q ⊆ cfg.ids) (hcalm : Calm Q w) (hv : v ∈ Q) :
    ∃ w', ReachesWithin cfg Q w w' ∧ Turned w v (w.replicas v).node.onTick w' := by
  obtain ⟨timeout, w₁, w', hstep, hreach, hturn⟩ :=
    @exists_handled cfg Q w v (hQ hv) hv (hcalm v hv) .tick rfl
  exact ⟨w', .head ⟨.event v .tick timeout, hv, hstep⟩ hreach, hturn⟩

theorem exists_delivered (hQ : Q ⊆ cfg.ids) (hcalm : Calm Q w) (hv : v ∈ Q) {src : NodeId} (hsrc : src ∈ Q)
    {msg : Message} (hp : ⟨src, v, msg⟩ ∈ w.network) :
    ∃ w', ReachesWithin cfg Q w w' ∧ Turned w v ((w.replicas v).node.step (.message src msg)) w' := by
  obtain ⟨timeout, w₁, w', hstep, hreach, hturn⟩ :=
    @exists_handled cfg Q w v (hQ hv) hv (hcalm v hv) (.message src msg) (decide_eq_true hp)
  exact ⟨w', .head ⟨.event v (.message src msg) timeout, ⟨hv, hsrc⟩, hstep⟩ hreach, hturn⟩

end Turns

end Cluster

/-! ## Waiting -/

namespace RaftNode

variable {n : RaftNode}

theorem onTick_of_early (hl : n.role.isLeader = false) (h : n.ticksSinceReset + 1 < n.electionTimeoutTicks) :
    n.onTick = ({ n with ticksSinceReset := n.ticksSinceReset + 1 }, []) := by
  unfold onTick
  cases hrole : n.role with
  | leader nextIndex matchIndex =>
    rw [hrole] at hl
    cases hl
  | _ => simp only [ge_iff_le, if_neg (Nat.not_le.mpr h)]

theorem onTick_of_due (hl : n.role.isLeader = false) (h : n.electionTimeoutTicks ≤ n.ticksSinceReset + 1) :
    n.onTick = n.startElection := by
  unfold onTick
  cases hrole : n.role with
  | leader nextIndex matchIndex =>
    rw [hrole] at hl
    cases hl
  | _ =>
    simp only [ge_iff_le, if_pos h]
    rfl

theorem onTick_of_leader (hl : n.role.isLeader = true) :
    n.onTick = if heartbeatTicks ≤ n.ticksSinceReset + 1
      then ({ n with ticksSinceReset := 0 }, n.broadcastAppend)
      else ({ n with ticksSinceReset := n.ticksSinceReset + 1 }, []) := by
  obtain ⟨id, peers, role, term, vote, log, commit, applied, ticks, timeout, hint⟩ := n
  cases role with
  | leader nextIndex matchIndex =>
    simp only [onTick, ge_iff_le]
    split <;> rfl
  | _ => cases hl

end RaftNode

namespace Cluster

section Waiting

variable {cfg : Config} {Q : Finset NodeId} {w : Cluster} {v : NodeId}

/-- A member that does not lead waits for its timeout. -/
theorem exists_campaign (hQ : Q ⊆ cfg.ids) (hv : v ∈ Q) (k : ℕ) :
    ∀ {w : Cluster}, Calm Q w → (w.replicas v).node.role.isLeader = false →
      (w.replicas v).node.electionTimeoutTicks ≤ (w.replicas v).node.ticksSinceReset + k →
        ∃ w', ReachesWithin cfg Q w w' ∧ Turned w v (w.replicas v).node.startElection w' := by
  induction k with
  | zero =>
    intro w hcalm hl hk
    obtain ⟨w', hreach, hturn⟩ := exists_ticked hQ hcalm hv
    rw [RaftNode.onTick_of_due hl (by omega)] at hturn
    exact ⟨w', hreach, hturn⟩
  | succ k ih =>
    intro w hcalm hl hk
    obtain ⟨w₁, hreach, hturn⟩ := exists_ticked hQ hcalm hv
    rcases Nat.lt_or_ge ((w.replicas v).node.ticksSinceReset + 1)
      (w.replicas v).node.electionTimeoutTicks with hearly | hdue
    · rw [RaftNode.onTick_of_early hl hearly] at hturn
      have hnode := hturn.node
      have hleft : (w.replicas v).node.electionTimeoutTicks ≤
          (w.replicas v).node.ticksSinceReset + 1 + k := by omega
      obtain ⟨w', hreach', hturn'⟩ := ih (hturn.calm hcalm) (by rw [hnode]; exact hl)
        (by rw [hnode]; exact hleft)
      rw [hnode] at hturn'
      exact ⟨w', hreach.trans hreach', hturn.after hturn'⟩
    · rw [RaftNode.onTick_of_due hl hdue] at hturn
      exact ⟨w₁, hreach, hturn⟩

/-- A leader waits for its next heartbeat. -/
theorem exists_heartbeat (hQ : Q ⊆ cfg.ids) (hv : v ∈ Q) (k : ℕ) :
    ∀ {w : Cluster}, Calm Q w → (w.replicas v).node.role.isLeader = true →
      heartbeatTicks ≤ (w.replicas v).node.ticksSinceReset + k →
        ∃ w', ReachesWithin cfg Q w w' ∧ Turned w v
          ({ (w.replicas v).node with ticksSinceReset := 0 }, (w.replicas v).node.broadcastAppend) w' := by
  induction k with
  | zero =>
    intro w hcalm hl hk
    obtain ⟨w', hreach, hturn⟩ := exists_ticked hQ hcalm hv
    rw [RaftNode.onTick_of_leader hl, if_pos (by omega)] at hturn
    exact ⟨w', hreach, hturn⟩
  | succ k ih =>
    intro w hcalm hl hk
    obtain ⟨w₁, hreach, hturn⟩ := exists_ticked hQ hcalm hv
    rw [RaftNode.onTick_of_leader hl] at hturn
    split at hturn
    · exact ⟨w₁, hreach, hturn⟩
    · have hnode := hturn.node
      have hleft : heartbeatTicks ≤ (w.replicas v).node.ticksSinceReset + 1 + k := by omega
      obtain ⟨w', hreach', hturn'⟩ := ih (hturn.calm hcalm) (by rw [hnode]; exact hl)
        (by rw [hnode]; exact hleft)
      rw [hnode] at hturn'
      exact ⟨w', hreach.trans hreach', hturn.after hturn'⟩

end Waiting

end Cluster

/-! ## Elections -/

namespace RaftNode

section Votes

variable {n : RaftNode} {src : NodeId}

/-- A request of a higher term is granted where the log of the candidate is as good. -/
theorem request_of_higher {req : RequestVoteReq} (h : n.currentTerm < req.term) :
    (n.step (.message src (.requestVote req))).1.currentTerm = req.term ∧
      (n.step (.message src (.requestVote req))).1.role = .follower ∧
      (n.logOk req = true → .send src (.requestVoteResp ⟨req.term, true⟩) ∈
        (n.step (.message src (.requestVote req))).2) := by
  rw [@step_higher n src (.requestVote req) h]
  have heq := @onRequestVote_eq (n.adopt req.term) src req le_rfl
  show ((n.adopt req.term).onRequestVote src req).1.currentTerm = req.term ∧
    ((n.adopt req.term).onRequestVote src req).1.role = .follower ∧
    (n.logOk req = true → _ ∈ _ :: ((n.adopt req.term).onRequestVote src req).2)
  rw [heq]
  split
  · exact ⟨rfl, rfl, fun _ => List.mem_cons_of_mem _ (List.mem_cons_of_mem _ List.mem_cons_self)⟩
  · rename_i hgrants
    refine ⟨rfl, rfl, fun hlog => absurd ?_ hgrants⟩
    have hlog' : (n.adopt req.term).logOk req = true := hlog
    unfold grants
    rw [hlog']
    simp [adopt]

/-- The node leads, or it is a candidate with the votes of `voters` that has no majority yet. -/
def Polled (n : RaftNode) (voters : Finset NodeId) : Prop :=
  n.role.isLeader = true ∨
    ∃ votes, n.role = .candidate votes ∧ voters ⊆ votes ∧ votes.card < n.majority

theorem Polled.leader {voters : Finset NodeId} (h : n.Polled voters) (hmajority : n.majority ≤ voters.card) :
    n.role.isLeader = true := by
  rcases h with hl | ⟨votes, -, hsub, hlt⟩
  · exact hl
  · have := Finset.card_le_card hsub
    omega

theorem Polled.vote {voters : Finset NodeId} {resp : RequestVoteResp} (h : n.Polled voters)
    (hterm : resp.term = n.currentTerm) (hgranted : resp.voteGranted = true) :
    (n.onRequestVoteResp src resp).1.Polled (insert src voters) := by
  rcases h with hl | ⟨votes, hrole, hsub, -⟩
  · rcases onRequestVoteResp_cases src hterm.le with heq | ⟨votes, hrole, -⟩
    · rw [heq]
      exact .inl hl
    · rw [hrole] at hl
      cases hl
  · have heq : n.onRequestVoteResp src resp = { n with role := .candidate (insert src votes) }.tryWin := by
      unfold onRequestVoteResp
      simp only [maybeStepDown_of_le hterm.le, hrole, if_pos (And.intro hterm hgranted)]
      rfl
    rw [heq]
    rcases Nat.lt_or_ge (insert src votes).card n.majority with hlt | hge
    · rw [@tryWin_of_lt { n with role := .candidate (insert src votes) } _ rfl hlt]
      exact .inr ⟨_, rfl, Finset.insert_subset_insert src hsub, hlt⟩
    · rw [@tryWin_of_majority { n with role := .candidate (insert src votes) } _ rfl hge]
      exact .inl rfl

/-- A node that stands has its own vote. -/
theorem polled_startElection (n : RaftNode) : n.startElection.1.Polled {n.id} := by
  rw [startElection_eq]
  split
  · exact .inl rfl
  · rename_i hpeers
    refine .inr ⟨{n.id}, rfl, Finset.Subset.refl _, ?_⟩
    rw [Finset.card_singleton]
    by_contra hle
    exact hpeers (majority_le_one.mp (Nat.not_lt.mp hle))

theorem startElection_term (n : RaftNode) : n.startElection.1.currentTerm = n.currentTerm + 1 := by
  rw [startElection_eq]
  split <;> rfl

theorem request_mem_startElection {p : NodeId} (hp : p ∈ n.peers) :
    .send p (.requestVote n.standing.voteRequest) ∈ n.startElection.2 := by
  rw [startElection_eq, if_neg (List.ne_nil_of_mem hp)]
  exact List.mem_cons_of_mem _ (List.mem_map_of_mem hp)

/-- How good a log is: the term of its last entry, then its length. -/
def rank (n : RaftNode) : ℕ ×ₗ ℕ := toLex (n.log.lastTerm, n.log.lastIndex)

theorem logOk_of_rank_le {m : RaftNode} (h : n.rank ≤ m.rank) : n.logOk m.standing.voteRequest = true := by
  rcases (Prod.Lex.le_iff).mp h with hlt | ⟨heq, hle⟩
  · have hlt' : n.log.lastTerm < m.log.lastTerm := hlt
    simp [logOk, voteRequest, standing, hlt']
  · have heq' : n.log.lastTerm = m.log.lastTerm := heq
    have hle' : n.log.lastIndex ≤ m.log.lastIndex := hle
    simp [logOk, voteRequest, standing, heq', hle']

end Votes

end RaftNode

namespace Cluster

section Elections

variable {cfg : Config} {Q : Finset NodeId} {w : Cluster} {c u : NodeId} {req : RequestVoteReq}

theorem exists_requested (hQ : Q ⊆ cfg.ids) (hcalm : Calm Q w) (hc : c ∈ Q) (hu : u ∈ Q)
    (hp : ⟨c, u, .requestVote req⟩ ∈ w.network) (hlt : (w.replicas u).node.currentTerm < req.term) :
    ∃ w', ReachesWithin cfg Q w w' ∧ Calm Q w' ∧ w.network ⊆ w'.network ∧
      (∀ x ≠ u, w'.replicas x = w.replicas x) ∧ (w'.replicas u).node.currentTerm = req.term ∧
      (w'.replicas u).node.role = .follower ∧
      ((w.replicas u).node.logOk req = true → ⟨u, c, .requestVoteResp ⟨req.term, true⟩⟩ ∈ w'.network) := by
  obtain ⟨w', hreach, hturn⟩ := exists_delivered hQ hcalm hu hc hp
  obtain ⟨hterm, hrole, hgranted⟩ := @RaftNode.request_of_higher (w.replicas u).node c req hlt
  refine ⟨w', hreach, hturn.calm hcalm, hturn.network, hturn.others, ?_, ?_, fun hlog => ?_⟩
  · rw [hturn.node, hterm]
  · rw [hturn.node, hrole]
  · exact hturn.sent c _ (hgranted hlog)

/-- Requests of a term above theirs make followers of the members. -/
theorem exists_followers (hQ : Q ⊆ cfg.ids) (hcalm : Calm Q w) (hc : c ∈ Q)
    (hsent : ∀ u ∈ Q.erase c, ⟨c, u, .requestVote req⟩ ∈ w.network)
    (hlt : ∀ u ∈ Q.erase c, (w.replicas u).node.currentTerm < req.term) (s : Finset NodeId) :
    s ⊆ Q.erase c → ∃ w', ReachesWithin cfg Q w w' ∧ Calm Q w' ∧ w.network ⊆ w'.network ∧
      (∀ u ∉ s, w'.replicas u = w.replicas u) ∧
      ∀ u ∈ s, (w'.replicas u).node.currentTerm = req.term ∧ (w'.replicas u).node.role = .follower := by
  induction s using Finset.induction_on with
  | empty =>
    exact fun _ => ⟨w, .refl, hcalm, List.Subset.refl _, fun _ _ => rfl,
      fun u hu => absurd hu (Finset.notMem_empty u)⟩
  | insert v s hv ih =>
    intro hs
    obtain ⟨hvQ, hs⟩ := Finset.insert_subset_iff.mp hs
    obtain ⟨w₁, hreach, hcalm₁, hnet, hothers, hdone⟩ := ih hs
    have hsame := hothers v hv
    obtain ⟨w₂, hreach', hcalm₂, hnet', hothers', hterm, hrole, -⟩ :=
      exists_requested hQ hcalm₁ hc (Finset.mem_of_mem_erase hvQ) (hnet (hsent v hvQ))
        (hsame ▸ hlt v hvQ)
    refine ⟨w₂, hreach.trans hreach', hcalm₂, List.Subset.trans hnet hnet', fun u hu => ?_, fun u hu => ?_⟩
    · rw [Finset.mem_insert, not_or] at hu
      exact (hothers' u hu.1).trans (hothers u hu.2)
    · rcases Finset.mem_insert.mp hu with rfl | hu
      · exact ⟨hterm, hrole⟩
      · rw [hothers' u (fun heq => hv (heq ▸ hu))]
        exact hdone u hu

/-- A candidate collects the votes of members whose term is below its own and whose log is no better. -/
theorem exists_polled (hQ : Q ⊆ cfg.ids) (hcalm : Calm Q w) (hc : c ∈ Q)
    (hterm : (w.replicas c).node.currentTerm = req.term) (hpolled : (w.replicas c).node.Polled {c})
    (hsent : ∀ u ∈ Q.erase c, ⟨c, u, .requestVote req⟩ ∈ w.network)
    (hlt : ∀ u ∈ Q.erase c, (w.replicas u).node.currentTerm < req.term)
    (hlog : ∀ u ∈ Q.erase c, (w.replicas u).node.logOk req = true) (s : Finset NodeId) :
    s ⊆ Q.erase c → ∃ w', ReachesWithin cfg Q w w' ∧ Calm Q w' ∧ w.network ⊆ w'.network ∧
      (∀ u ∉ s, u ≠ c → w'.replicas u = w.replicas u) ∧
      (∀ u ∈ s, (w'.replicas u).node.currentTerm = req.term) ∧
      (w'.replicas c).node.currentTerm = req.term ∧ (w'.replicas c).node.Polled (insert c s) := by
  induction s using Finset.induction_on with
  | empty =>
    exact fun _ => ⟨w, .refl, hcalm, List.Subset.refl _, fun _ _ _ => rfl,
      fun u hu => absurd hu (Finset.notMem_empty u), hterm, hpolled⟩
  | insert v s hv ih =>
    intro hs
    obtain ⟨hvQ, hs⟩ := Finset.insert_subset_iff.mp hs
    obtain ⟨hvc, hvQ'⟩ := Finset.mem_erase.mp hvQ
    obtain ⟨w₁, hreach, hcalm₁, hnet, hothers, hdone, hterm₁, hpolled₁⟩ := ih hs
    have hsame := hothers v hv hvc
    obtain ⟨w₂, hreach₂, hcalm₂, hnet₂, hothers₂, hterm₂, -, hgranted⟩ :=
      exists_requested hQ hcalm₁ hc hvQ' (hnet (hsent v hvQ)) (hsame ▸ hlt v hvQ)
    have hreply := hgranted (hsame ▸ hlog v hvQ)
    have hcand := hothers₂ c (Ne.symm hvc)
    obtain ⟨w₃, hreach₃, hturn⟩ := exists_delivered hQ hcalm₂ hc hvQ' hreply
    have hle : req.term ≤ (w₂.replicas c).node.currentTerm := by rw [hcand, hterm₁]
    have hnode : (w₃.replicas c).node =
        ((w₂.replicas c).node.onRequestVoteResp v ⟨req.term, true⟩).1 := hturn.node
    refine ⟨w₃, (hreach.trans hreach₂).trans hreach₃, hturn.calm hcalm₂,
      List.Subset.trans (List.Subset.trans hnet hnet₂) hturn.network, fun u hu huc => ?_, fun u hu => ?_, ?_, ?_⟩
    · rw [Finset.mem_insert, not_or] at hu
      exact ((hturn.others u huc).trans (hothers₂ u hu.1)).trans (hothers u hu.2 huc)
    · have huc : u ≠ c := fun heq => by
        rcases Finset.mem_insert.mp hu with rfl | hu
        · exact hvc heq
        · exact (Finset.mem_erase.mp (hs hu)).1 heq
      rw [hturn.others u huc]
      rcases Finset.mem_insert.mp hu with rfl | hu
      · exact hterm₂
      · rw [hothers₂ u (fun heq => hv (heq ▸ hu))]
        exact hdone u hu
    · have hkept := (@RaftNode.onRequestVoteResp_durable (w₂.replicas c).node v ⟨req.term, true⟩ hle).1
      rw [hnode]
      exact (congrArg HardState.currentTerm hkept).trans (by rw [hcand]; exact hterm₁)
    · rw [hnode, Finset.insert_comm]
      refine RaftNode.Polled.vote ?_ ?_ rfl
      · rw [hcand]
        exact hpolled₁
      · rw [hcand, hterm₁]

theorem exists_standing (h : Reachable cfg w) (hu : u ∈ cfg.ids) :
    ∃ g, Standing cfg g u (w.replicas u).node := by
  obtain ⟨g, hinv⟩ := exists_inv h
  obtain ⟨_, g', _, _, _, hstand, _⟩ := settle hinv hu
  exact ⟨g', hstand⟩

theorem majority_le (hQ : IsMajority cfg.ids Q) (hu : u ∈ cfg.ids) {n : RaftNode} (hpeers : n.peers = cfg.peers u) :
    n.majority ≤ Q.card := by
  have hcard := cfg.card_peers hu
  have hmajority := hQ.2
  unfold RaftNode.majority
  rw [hpeers]
  omega

/-- The requests of a member that stands are on their way to the others. -/
theorem Turned.requests (hQ : Q ⊆ cfg.ids) (hc : c ∈ Q) {w' : Cluster}
    (hpeers : (w.replicas c).node.peers = cfg.peers c)
    (h : Turned w c (w.replicas c).node.startElection w') :
    ∀ u ∈ Q.erase c, ⟨c, u, .requestVote (w.replicas c).node.standing.voteRequest⟩ ∈ w'.network := by
  intro u hu
  obtain ⟨huc, huQ⟩ := Finset.mem_erase.mp hu
  refine h.sent u _ (RaftNode.request_mem_startElection ?_)
  rw [hpeers]
  exact (cfg.mem_peers c (hQ hc) u).mpr ⟨hQ huQ, huc⟩

/-- A member with the best log is elected, where all terms are the same and no member leads. -/
theorem exists_elected (h : Reachable cfg w) (hQ : IsMajority cfg.ids Q) (hcalm : Calm Q w) {t : ℕ}
    (hterm : ∀ u ∈ Q, (w.replicas u).node.currentTerm = t)
    (hrole : ∀ u ∈ Q, (w.replicas u).node.role.isLeader = false) :
    ∃ w', ReachesWithin cfg Q w w' ∧ Calm Q w' ∧
      ∃ v ∈ Q, w'.LeaderOf v (t + 1) ∧ ∀ u ∈ Q, (w'.replicas u).node.currentTerm ≤ t + 1 := by
  have hne : Q.Nonempty := by
    have := hQ.2
    exact Finset.card_pos.mp (by omega)
  obtain ⟨c, hc, hbest⟩ := Q.exists_max_image (fun u => (w.replicas u).node.rank) hne
  obtain ⟨g, hstand⟩ := exists_standing h (hQ.1 hc)
  obtain ⟨w₁, hreach, hturn⟩ := exists_campaign hQ.1 hc _ hcalm (hrole c hc) (Nat.le_add_left _ _)
  have hstood : (w.replicas c).node.startElection.1.currentTerm = t + 1 := by
    rw [RaftNode.startElection_term, hterm c hc]
  have hreq : (w.replicas c).node.standing.voteRequest.term = t + 1 := by
    show (w.replicas c).node.currentTerm + 1 = t + 1
    rw [hterm c hc]
  have hothers : ∀ u ∈ Q.erase c, w₁.replicas u = w.replicas u := fun u hu =>
    hturn.others u (Finset.mem_erase.mp hu).1
  obtain ⟨w₂, hreach', hcalm₂, -, -, hdone, hterm₂, hpolled⟩ :=
    @exists_polled cfg Q w₁ c (w.replicas c).node.standing.voteRequest hQ.1 (hturn.calm hcalm) hc
      (by rw [hturn.node, hstood, hreq])
      (by
        rw [hturn.node]
        have := (w.replicas c).node.polled_startElection
        rwa [hstand.books.id] at this)
      (hturn.requests hQ.1 hc hstand.books.peers)
      (fun u hu => by
        rw [hothers u hu, hreq, hterm u (Finset.mem_of_mem_erase hu)]
        exact Nat.lt_succ_self t)
      (fun u hu => by
        rw [hothers u hu]
        exact RaftNode.logOk_of_rank_le (hbest u (Finset.mem_of_mem_erase hu)))
      (Q.erase c) (Finset.Subset.refl _)
  rw [Finset.insert_erase hc] at hpolled
  rw [hreq] at hterm₂ hdone
  obtain ⟨g₂, hstand₂⟩ := exists_standing (hreach'.reachable (hreach.reachable h)) (hQ.1 hc)
  refine ⟨w₂, hreach.trans hreach', hcalm₂, c, hc,
    ⟨hpolled.leader (majority_le hQ (hQ.1 hc) hstand₂.books.peers), hterm₂⟩, fun u hu => ?_⟩
  by_cases huc : u = c
  · rw [huc, hterm₂]
  · exact (hdone u (Finset.mem_erase.mpr ⟨huc, hu⟩)).le

/-- **Election.** A majority can get a leader whose term none of its members has passed. -/
theorem exists_leader (h : Reachable cfg w) (hQ : IsMajority cfg.ids Q) (hcalm : Calm Q w) :
    ∃ w', ReachesWithin cfg Q w w' ∧ Calm Q w' ∧ ∃ v ∈ Q, ∃ t, w'.LeaderOf v t ∧
      ∀ u ∈ Q, (w'.replicas u).node.currentTerm ≤ t := by
  have hne : Q.Nonempty := by
    have := hQ.2
    exact Finset.card_pos.mp (by omega)
  obtain ⟨d, hd, hmax⟩ := Q.exists_max_image (fun u => (w.replicas u).node.currentTerm) hne
  cases hl : (w.replicas d).node.role.isLeader with
  | true => exact ⟨w, .refl, hcalm, d, hd, _, ⟨hl, rfl⟩, hmax⟩
  | false =>
    -- whoever leads an older term steps down when `d` stands, and then all terms are the same
    obtain ⟨g, hstand⟩ := exists_standing h (hQ.1 hd)
    obtain ⟨w₁, hreach, hturn⟩ := exists_campaign hQ.1 hd _ hcalm hl (Nat.le_add_left _ _)
    obtain ⟨w₂, hreach', hcalm₂, -, hothers, hdone⟩ :=
      @exists_followers cfg Q w₁ d (w.replicas d).node.standing.voteRequest hQ.1 (hturn.calm hcalm) hd
        (hturn.requests hQ.1 hd hstand.books.peers)
        (fun u hu => by
          obtain ⟨hud, huQ⟩ := Finset.mem_erase.mp hu
          rw [hturn.others u hud]
          exact Nat.lt_succ_of_le (hmax u huQ))
        (Q.erase d) (Finset.Subset.refl _)
    have hd₂ : (w₂.replicas d).node = (w.replicas d).node.startElection.1 := by
      rw [hothers d (Finset.notMem_erase d Q), hturn.node]
    have hterm : ∀ u ∈ Q, (w₂.replicas u).node.currentTerm = (w.replicas d).node.currentTerm + 1 := by
      intro u hu
      by_cases hud : u = d
      · rw [hud, hd₂, RaftNode.startElection_term]
      · exact (hdone u (Finset.mem_erase.mpr ⟨hud, hu⟩)).1
    cases hl₂ : (w₂.replicas d).node.role.isLeader with
    | true =>
      exact ⟨w₂, hreach.trans hreach', hcalm₂, d, hd, _, ⟨hl₂, hterm d hd⟩, fun u hu => (hterm u hu).le⟩
    | false =>
      have hrole : ∀ u ∈ Q, (w₂.replicas u).node.role.isLeader = false := by
        intro u hu
        by_cases hud : u = d
        · rw [hud, hl₂]
        · rw [(hdone u (Finset.mem_erase.mpr ⟨hud, hu⟩)).2]
          rfl
      obtain ⟨w₃, hreach₃, hcalm₃, v, hv, hlead, hle⟩ :=
        exists_elected (hreach'.reachable (hreach.reachable h)) hQ hcalm₂ hterm hrole
      exact ⟨w₃, (hreach.trans hreach').trans hreach₃, hcalm₃, v, hv, _, hlead, hle⟩

end Elections

end Cluster

end MyK8s.Raft
