import MyK8s.Raft.Quorum
import MyK8s.Raft.Repair

/-!
# A majority is enough

From every state that a cluster can be in, any majority of its members can get a command applied, without
the others and without a restart: a leader is elected (`exists_leader`), it takes the command, brings the
logs of the members in line with its own one after the other (`exists_matched`), and tells them what is
committed (`exists_informed`).
-/

namespace MyK8s.Raft

open Consensus (IsMajority)

namespace RaftLog

variable {l l' : RaftLog} {i : ℕ}

theorem termAt_of_get (h : l.get i = l'.get i) : l.termAt i = l'.termAt i := by
  cases i with
  | zero => rfl
  | succ k =>
    rw [get_succ, get_succ] at h
    rw [termAt_succ, termAt_succ, h]

theorem exists_termAt (h : i ≤ l.lastIndex) : ∃ t, l.termAt i = some t := by
  cases i with
  | zero => exact ⟨0, rfl⟩
  | succ k =>
    rw [termAt_succ, List.getElem?_eq_getElem h]
    exact ⟨_, rfl⟩

theorem prefix_of_get (h : ∀ i ≤ l.lastIndex, l'.get i = l.get i) : l.entries <+: l'.entries := by
  have htake : l'.entries.take l.lastIndex = l.entries :=
    (take_eq_of_get h).trans (List.take_of_length_le le_rfl)
  rw [← htake]
  exact List.take_prefix _ _

end RaftLog

namespace RaftNode

variable {n : RaftNode} {src p : NodeId} {req : AppendEntriesReq}

/-- The message of `append_for`. -/
def appendReq (n : RaftNode) (peer : NodeId) : AppendEntriesReq where
  term := n.currentTerm
  leaderId := n.id
  prevLogIndex := n.nextFor peer - 1
  prevLogTerm := (n.log.termAt (n.nextFor peer - 1)).getD 0
  entries := n.log.entriesFrom (n.nextFor peer)
  leaderCommit := n.commitIndex

theorem verified_appendReq (hpos : 1 ≤ n.nextFor p) (hle : n.nextFor p ≤ n.log.lastIndex + 1) :
    (n.appendReq p).verified = n.log.lastIndex := by
  obtain ⟨prev, hprev⟩ : ∃ prev, n.nextFor p = prev + 1 := ⟨n.nextFor p - 1, by omega⟩
  have hlen : (n.log.entriesFrom (n.nextFor p)).length = n.log.lastIndex - prev := by
    rw [hprev, RaftLog.entriesFrom_succ, List.length_drop]
    rfl
  show n.nextFor p - 1 + (n.log.entriesFrom (n.nextFor p)).length = _
  rw [hlen]
  omega

/-- A message that starts at the first entry is accepted. -/
theorem accepts_of_first {m : RaftNode} (hterm : m.currentTerm ≤ n.currentTerm) (h : n.nextFor p = 1) :
    m.Accepts (n.appendReq p) := by
  refine ⟨hterm, ?_⟩
  show m.log.termAt (n.nextFor p - 1) = some ((n.log.termAt (n.nextFor p - 1)).getD 0)
  rw [h]
  rfl

/-- What a node answers to a message that is not of an old term. -/
theorem onAppendEntries_reply (hterm : n.currentTerm ≤ req.term) :
    (n.Accepts req → .send src (.appendEntriesResp ⟨req.term, true, req.verified⟩) ∈
      (n.onAppendEntries src req).2) ∧
    (¬ n.Accepts req → .send src (.appendEntriesResp ⟨req.term, false, 0⟩) ∈
      (n.onAppendEntries src req).2) := by
  obtain ⟨m, hm, hlog, -, -, heffects⟩ := exists_level src hterm
  have hsub : ∀ e ∈ (m.onAppendEntries src req).2, e ∈ (n.onAppendEntries src req).2 := by
    intro e he
    rcases heffects with heq | heq
    · rwa [heq]
    · rw [heq]
      exact List.mem_cons_of_mem _ he
  constructor
  · rintro ⟨-, hprev⟩
    refine hsub _ ?_
    rw [onAppendEntries_of_match hm (hlog ▸ hprev), hm]
    exact List.mem_append_right _ List.mem_cons_self
  · intro hrefuses
    refine hsub _ ?_
    rw [onAppendEntries_of_mismatch hm (fun hprev => hrefuses ⟨hterm, hlog ▸ hprev⟩), hm]
    exact List.mem_cons_self

theorem tryCommit_settled (n : RaftNode) : n.tryCommit.1.Settled := by
  rcases n.tryCommit_cases with ⟨heq, hsettled⟩ | ⟨_, _, i, _, _, _, _, heq, hsettled⟩
  · rw [heq]
    exact hsettled
  · rw [heq]
    exact hsettled

theorem exists_role_of_isLeader (hl : n.role.isLeader = true) :
    ∃ nextIndex matchIndex, n.role = .leader nextIndex matchIndex := by
  cases hrole : n.role with
  | leader nextIndex matchIndex => exact ⟨nextIndex, matchIndex, rfl⟩
  | _ =>
    rw [hrole] at hl
    cases hl

theorem nextFor_of_leader {nextIndex matchIndex : PeerMap} {peer : NodeId} {x : ℕ}
    (hrole : n.role = .leader nextIndex matchIndex) (hx : nextIndex peer = some x) : n.nextFor peer = x := by
  unfold nextFor
  rw [hrole]
  simp only [hx, Option.getD_some]

/-- The leader that has been given a command: it leads on, with the command at the end of its log. -/
theorem proposed_spec (hl : n.role.isLeader = true) (cmd : Command) :
    (n.step (.propose cmd)).1.role.isLeader = true ∧
      (n.step (.propose cmd)).1.currentTerm = n.currentTerm ∧
      (n.step (.propose cmd)).1.log.entries = n.log.entries ++ [⟨n.currentTerm, n.log.lastIndex + 1, cmd⟩] ∧
      (n.step (.propose cmd)).1.Settled := by
  obtain ⟨nextIndex, matchIndex, hrole⟩ := exists_role_of_isLeader hl
  have hnode : (n.step (.propose cmd)).1 = (n.appended cmd).tryCommit.1 := by
    rw [step, onPropose_of_leader hrole]
  rw [hnode]
  obtain ⟨c, a, hcommit⟩ := (n.appended cmd).tryCommit_frame
  refine ⟨?_, ?_, ?_, (n.appended cmd).tryCommit_settled⟩ <;> rw [hcommit]
  · exact hl
  · rfl
  · rfl

/-- What is left of a leader when a peer has answered: it leads on, with the same log. -/
structure Answered (n : RaftNode) (src : NodeId) (n' : RaftNode) : Prop where
  lead : n'.role.isLeader = true
  term : n'.currentTerm = n.currentTerm
  log : n'.log = n.log
  matched : ∀ p ≠ src, n'.matchFor p = n.matchFor p

section Answers

variable {nextIndex matchIndex : PeerMap} (hrole : n.role = .leader nextIndex matchIndex)

include hrole in
theorem answered_success {m k : ℕ} (hm : matchIndex src = some m) (hle : m ≤ k) :
    n.Answered src (n.onAppendEntriesResp src ⟨n.currentTerm, true, k⟩).1 ∧
      (n.onAppendEntriesResp src ⟨n.currentTerm, true, k⟩).1.matchFor src = some k := by
  rw [onAppendEntriesResp_of_success hrole rfl rfl]
  obtain ⟨c, a, hcommit⟩ := (n.acknowledged nextIndex matchIndex src k).tryCommit_frame
  rw [hcommit]
  refine ⟨⟨rfl, rfl, rfl, fun p hp => ?_⟩, ?_⟩
  · simp only [matchFor, acknowledged, hrole, Function.update_of_ne hp]
  · simp only [matchFor, acknowledged, Function.update_self, hm, Option.getD_some, max_eq_right hle]

include hrole in
theorem answered_failure {x : ℕ} (hx : nextIndex src = some x) (hpos : 1 < x) :
    n.Answered src (n.onAppendEntriesResp src ⟨n.currentTerm, false, 0⟩).1 ∧
      (n.onAppendEntriesResp src ⟨n.currentTerm, false, 0⟩).1.nextFor src < x := by
  rw [onAppendEntriesResp_of_failure hrole rfl rfl]
  refine ⟨⟨rfl, rfl, rfl, fun p _ => ?_⟩, ?_⟩
  · simp only [matchFor, backedUp, hrole]
  · simp only [nextFor, backedUp, Function.update_self, hx, Option.getD_some]
    omega

end Answers

/-- A member that has the log of the leader learns what the leader has committed. -/
theorem commit_of_informed {m : RaftNode} (hterm : m.currentTerm = n.currentTerm) (hc : Coherent n.log.entries)
    (hpos : 1 ≤ n.nextFor p) (hle : n.nextFor p ≤ n.log.lastIndex + 1)
    (hget : ∀ i ≤ n.log.lastIndex, m.log.get i = n.log.get i) (hcommit : n.log.lastIndex ≤ n.commitIndex) :
    n.log.lastIndex ≤ (m.onAppendEntries src (n.appendReq p)).1.commitIndex := by
  have hpre := RaftLog.prefix_of_get hget
  have hacc : m.Accepts (n.appendReq p) := by
    obtain ⟨t, ht⟩ := RaftLog.exists_termAt (show n.nextFor p - 1 ≤ n.log.lastIndex by omega)
    refine ⟨hterm.le, ?_⟩
    show m.log.termAt (n.nextFor p - 1) = some ((n.log.termAt (n.nextFor p - 1)).getD 0)
    rw [RaftLog.termAt_of_get (hget _ (by omega)), ht]
    rfl
  obtain ⟨hlog, hcommit'⟩ := @onAppendEntries_of_accepts m src (n.appendReq p) hacc
  have hsame := (@late_append n m src p (n.appendReq p) rfl hc hterm.ge hpre).1
  rw [← hlog, hsame] at hcommit'
  have hlen : n.log.lastIndex ≤ m.log.lastIndex := hpre.length_le
  rw [hcommit']
  show n.log.lastIndex ≤ if n.commitIndex > m.commitIndex then min n.commitIndex m.log.lastIndex else m.commitIndex
  split <;> omega

end RaftNode

namespace Cluster

section Replication

variable {cfg : Config} {Q : Finset NodeId} {w w' : Cluster} {v u p : NodeId}

/-- The books of a leader, on one of its peers. -/
theorem books_of_leader (h : Reachable cfg w) (hv : v ∈ cfg.ids) {nextIndex matchIndex : PeerMap}
    (hrole : (w.replicas v).node.role = .leader nextIndex matchIndex) (hp : p ∈ cfg.peers v) :
    ∃ x m, nextIndex p = some x ∧ matchIndex p = some m ∧ w.BookedTruly v p x m := by
  obtain ⟨g, hinv⟩ := exists_inv h
  exact bookedTruly hinv hv hrole hp

/-- Node `v` leads on with the same log, and what it knows of the nodes other than `u` is as before. -/
structure LeadsOn (w : Cluster) (v u : NodeId) (w' : Cluster) : Prop where
  lead : (w'.replicas v).node.role.isLeader = true
  term : (w'.replicas v).node.currentTerm = (w.replicas v).node.currentTerm
  log : (w'.replicas v).node.log = (w.replicas v).node.log
  matched : ∀ p ≠ u, (w'.replicas v).node.matchFor p = (w.replicas v).node.matchFor p
  others : ∀ x ≠ u, x ≠ v → w'.replicas x = w.replicas x

theorem LeadsOn.trans {w₁ : Cluster} (h : LeadsOn w v u w₁) (h' : LeadsOn w₁ v u w') : LeadsOn w v u w' where
  lead := h'.lead
  term := h'.term.trans h.term
  log := h'.log.trans h.log
  matched p hp := (h'.matched p hp).trans (h.matched p hp)
  others x hu hv := (h'.others x hu hv).trans (h.others x hu hv)

/-- A heartbeat to `u` and the answer: then `u` has the log of the leader, or the leader looks further back. -/
theorem exists_round (h : Reachable cfg w) (hQ : Q ⊆ cfg.ids) (hcalm : Calm Q w) (hv : v ∈ Q) (hu : u ∈ Q)
    (hne : u ≠ v) (hl : (w.replicas v).node.role.isLeader = true)
    (hterm : (w.replicas u).node.currentTerm ≤ (w.replicas v).node.currentTerm) :
    ∃ w', ReachesWithin cfg Q w w' ∧ Calm Q w' ∧ LeadsOn w v u w' ∧
      (w'.replicas u).node.currentTerm = (w.replicas v).node.currentTerm ∧
      ((w'.replicas v).node.matchFor u = some (w.replicas v).node.log.lastIndex ∨
        (w'.replicas v).node.nextFor u < (w.replicas v).node.nextFor u) := by
  obtain ⟨g, hstand⟩ := exists_standing h (hQ hv)
  have hpeer : u ∈ cfg.peers v := (cfg.mem_peers v (hQ hv) u).mpr ⟨hQ hu, hne⟩
  obtain ⟨nextIndex, matchIndex, hrole⟩ := RaftNode.exists_role_of_isLeader hl
  obtain ⟨x, m, hx, hm, hbooked⟩ := books_of_leader h (hQ hv) hrole hpeer
  set n := (w.replicas v).node with hn
  have hnext : n.nextFor u = x := RaftNode.nextFor_of_leader hrole hx
  obtain ⟨w₁, hreach₁, hturn₁⟩ := exists_heartbeat hQ hv _ hcalm hl (Nat.le_add_left _ _)
  have hp : ⟨v, u, .appendEntries (n.appendReq u)⟩ ∈ w₁.network :=
    hturn₁.sent u _ (List.mem_map.mpr ⟨u, by rw [hstand.books.peers]; exact hpeer, rfl⟩)
  obtain ⟨w₂, hreach₂, hturn₂⟩ := exists_delivered hQ (hturn₁.calm hcalm) hu hv hp
  rw [hturn₁.others u hne] at hturn₂
  have hterm₂ : (w₂.replicas u).node.currentTerm = n.currentTerm := by
    rw [hturn₂.node]
    exact RaftNode.onAppendEntries_term hterm
  have hlead₂ : (w₂.replicas v).node = { n with ticksSinceReset := 0 } := by
    rw [hturn₂.others v (Ne.symm hne), hturn₁.node]
  have hcalm₂ := hturn₂.calm (hturn₁.calm hcalm)
  obtain ⟨haccepted, hrefused⟩ :=
    @RaftNode.onAppendEntries_reply (w.replicas u).node v (n.appendReq u) hterm
  have hleadsOn : ∀ w₃ r, Turned w₂ v r w₃ → ({ n with ticksSinceReset := 0 } : RaftNode).Answered u r.1 →
      LeadsOn w v u w₃ := by
    intro w₃ r hturn hanswered
    refine ⟨?_, ?_, ?_, fun p hp => ?_, fun y hyu hyv => ?_⟩
    · rw [hturn.node, hanswered.lead]
    · rw [hturn.node, hanswered.term]
    · rw [hturn.node, hanswered.log]
    · rw [hturn.node, hanswered.matched p hp]
      rfl
    · rw [hturn.others y hyv, hturn₂.others y hyu, hturn₁.others y hyv]
  by_cases hacc : (w.replicas u).node.Accepts (n.appendReq u)
  · obtain ⟨w₃, hreach₃, hturn₃⟩ := exists_delivered hQ hcalm₂ hv hu (hturn₂.sent v _ (haccepted hacc))
    rw [hlead₂, RaftNode.verified_appendReq (hnext ▸ hbooked.next_pos) (hnext ▸ hbooked.next_le)] at hturn₃
    obtain ⟨hanswered, hmatched⟩ :=
      @RaftNode.answered_success { n with ticksSinceReset := 0 } u nextIndex matchIndex hrole m _ hm hbooked.match_le
    refine ⟨w₃, (hreach₁.trans hreach₂).trans hreach₃, hturn₃.calm hcalm₂, hleadsOn w₃ _ hturn₃ hanswered, ?_, .inl ?_⟩
    · rw [hturn₃.others u hne, hterm₂]
    · rw [hturn₃.node]
      exact hmatched
  · have hpos : 1 < x := by
      have := hbooked.next_pos
      by_contra hle
      exact hacc (RaftNode.accepts_of_first hterm (by omega))
    obtain ⟨w₃, hreach₃, hturn₃⟩ := exists_delivered hQ hcalm₂ hv hu (hturn₂.sent v _ (hrefused hacc))
    rw [hlead₂] at hturn₃
    obtain ⟨hanswered, hback⟩ :=
      @RaftNode.answered_failure { n with ticksSinceReset := 0 } u nextIndex matchIndex hrole x hx hpos
    refine ⟨w₃, (hreach₁.trans hreach₂).trans hreach₃, hturn₃.calm hcalm₂, hleadsOn w₃ _ hturn₃ hanswered, ?_, .inr ?_⟩
    · rw [hturn₃.others u hne, hterm₂]
    · rw [hturn₃.node, hnext]
      exact hback

/-- Heartbeats and their answers bring the log of a member in line. -/
theorem exists_matched (hQ : Q ⊆ cfg.ids) (hv : v ∈ Q) (hu : u ∈ Q) (hne : u ≠ v) (k : ℕ) :
    ∀ {w : Cluster}, Reachable cfg w → Calm Q w → (w.replicas v).node.role.isLeader = true →
      (w.replicas u).node.currentTerm ≤ (w.replicas v).node.currentTerm →
        (w.replicas v).node.nextFor u ≤ k →
          ∃ w', ReachesWithin cfg Q w w' ∧ Calm Q w' ∧ LeadsOn w v u w' ∧
            (w'.replicas u).node.currentTerm = (w.replicas v).node.currentTerm ∧
            (w'.replicas v).node.matchFor u = some (w.replicas v).node.log.lastIndex := by
  induction k with
  | zero =>
    intro w h hcalm hl hterm hk
    obtain ⟨w', hreach, hcalm', hleads, hterm', hmatched | hback⟩ := exists_round h hQ hcalm hv hu hne hl hterm
    · exact ⟨w', hreach, hcalm', hleads, hterm', hmatched⟩
    · omega
  | succ k ih =>
    intro w h hcalm hl hterm hk
    obtain ⟨w₁, hreach, hcalm₁, hleads, hterm₁, hmatched | hback⟩ := exists_round h hQ hcalm hv hu hne hl hterm
    · exact ⟨w₁, hreach, hcalm₁, hleads, hterm₁, hmatched⟩
    · obtain ⟨w', hreach', hcalm', hleads', hterm', hmatched⟩ := ih (hreach.reachable h) hcalm₁ hleads.lead
        (by rw [hterm₁, hleads.term]) (by omega)
      refine ⟨w', hreach.trans hreach', hcalm', hleads.trans hleads', ?_, ?_⟩
      · rw [hterm', hleads.term]
      · rw [hmatched, hleads.log]

/-- The logs of all members are brought in line. -/
theorem exists_all_matched (h : Reachable cfg w) (hQ : Q ⊆ cfg.ids) (hcalm : Calm Q w) (hv : v ∈ Q)
    (hl : (w.replicas v).node.role.isLeader = true)
    (hterm : ∀ u ∈ Q, (w.replicas u).node.currentTerm ≤ (w.replicas v).node.currentTerm) (s : Finset NodeId) :
    s ⊆ Q.erase v → ∃ w', ReachesWithin cfg Q w w' ∧ Calm Q w' ∧
      (w'.replicas v).node.role.isLeader = true ∧
      (w'.replicas v).node.currentTerm = (w.replicas v).node.currentTerm ∧
      (w'.replicas v).node.log = (w.replicas v).node.log ∧
      (∀ u ∉ s, u ≠ v → w'.replicas u = w.replicas u) ∧
      ∀ u ∈ s, (w'.replicas u).node.currentTerm = (w.replicas v).node.currentTerm ∧
        (w'.replicas v).node.matchFor u = some (w.replicas v).node.log.lastIndex := by
  induction s using Finset.induction_on with
  | empty =>
    exact fun _ => ⟨w, .refl, hcalm, hl, rfl, rfl, fun _ _ _ => rfl, fun u hu => absurd hu (Finset.notMem_empty u)⟩
  | insert p s hp ih =>
    intro hs
    obtain ⟨hpQ, hs⟩ := Finset.insert_subset_iff.mp hs
    obtain ⟨hpv, hpQ⟩ := Finset.mem_erase.mp hpQ
    obtain ⟨w₁, hreach, hcalm₁, hl₁, hterm₁, hlog₁, hothers, hdone⟩ := ih hs
    obtain ⟨w₂, hreach₂, hcalm₂, hleads, hterm₂, hmatched⟩ := exists_matched hQ hv hpQ hpv _
      (hreach.reachable h) hcalm₁ hl₁ (by rw [hothers p hp hpv, hterm₁]; exact hterm p hpQ) le_rfl
    refine ⟨w₂, hreach.trans hreach₂, hcalm₂, hleads.lead, hleads.term.trans hterm₁, hleads.log.trans hlog₁,
      fun u hu huv => ?_, fun u hu => ?_⟩
    · rw [Finset.mem_insert, not_or] at hu
      exact (hleads.others u hu.1 huv).trans (hothers u hu.2 huv)
    · rcases Finset.mem_insert.mp hu with rfl | hu
      · rw [hterm₂, hmatched, hterm₁, hlog₁]
        exact ⟨rfl, rfl⟩
      · have hup : u ≠ p := fun heq => hp (heq ▸ hu)
        rw [hleads.others u hup (Finset.mem_erase.mp (hs hu)).1, hleads.matched u hup]
        exact hdone u hu

/-- What a majority holds is committed. -/
theorem commit_of_matched (hQ : IsMajority cfg.ids Q) (hv : v ∈ Q) {n : RaftNode} (hpeers : n.peers = cfg.peers v)
    (hl : n.role.isLeader = true) (hsettled : n.Settled) (hlast : n.log.termAt n.log.lastIndex = some n.currentTerm)
    (hmatched : ∀ u ∈ Q.erase v, n.matchFor u = some n.log.lastIndex) : n.log.lastIndex ≤ n.commitIndex := by
  by_contra hlt
  obtain ⟨nextIndex, matchIndex, hrole⟩ := RaftNode.exists_role_of_isLeader hl
  have hnot := hsettled nextIndex matchIndex hrole n.log.lastIndex (Nat.not_le.mp hlt) le_rfl
  have hsub : Q.erase v ⊆ (n.peers.filter fun p => decide ((matchIndex p).getD 0 ≥ n.log.lastIndex)).toFinset := by
    intro u hu
    obtain ⟨huv, huQ⟩ := Finset.mem_erase.mp hu
    have hm : matchIndex u = some n.log.lastIndex := by
      have := hmatched u hu
      rwa [RaftNode.matchFor, hrole] at this
    rw [List.mem_toFinset, List.mem_filter, hpeers, hm]
    exact ⟨(cfg.mem_peers v (hQ.1 hv) u).mpr ⟨hQ.1 huQ, huv⟩, decide_eq_true le_rfl⟩
  have hcard : n.majority ≤ n.holders matchIndex n.log.lastIndex := by
    calc n.majority ≤ Q.card := majority_le hQ (hQ.1 hv) hpeers
      _ = 1 + (Q.erase v).card := by rw [← Finset.card_erase_add_one hv, Nat.add_comm]
      _ ≤ n.holders matchIndex n.log.lastIndex :=
        Nat.add_le_add_left ((Finset.card_le_card hsub).trans (List.toFinset_card_le _)) 1
  have hyes : n.committable matchIndex n.log.lastIndex = true := by
    simp [RaftNode.committable, hlast, hcard]
  rw [hyes] at hnot
  cases hnot

/-- The leader gets all of its log committed, where the last entry is of its own term. -/
theorem exists_committed (h : Reachable cfg w) (hQ : IsMajority cfg.ids Q) (hcalm : Calm Q w) (hv : v ∈ Q)
    (hl : (w.replicas v).node.role.isLeader = true) (hsettled : (w.replicas v).node.Settled)
    (hlast : (w.replicas v).node.log.termAt (w.replicas v).node.log.lastIndex =
      some (w.replicas v).node.currentTerm)
    (hterm : ∀ u ∈ Q, (w.replicas u).node.currentTerm ≤ (w.replicas v).node.currentTerm) :
    ∃ w', ReachesWithin cfg Q w w' ∧ Calm Q w' ∧ (w'.replicas v).node.role.isLeader = true ∧
      (w'.replicas v).node.currentTerm = (w.replicas v).node.currentTerm ∧
      (w'.replicas v).node.log = (w.replicas v).node.log ∧
      (w'.replicas v).node.log.lastIndex ≤ (w'.replicas v).node.commitIndex ∧
      ∀ u ∈ Q.erase v, (w'.replicas u).node.currentTerm = (w'.replicas v).node.currentTerm ∧
        (w'.replicas v).node.matchFor u = some (w'.replicas v).node.log.lastIndex := by
  rcases (Q.erase v).eq_empty_or_nonempty with hnone | ⟨p, hp⟩
  · have hnobody : ∀ u ∈ Q.erase v, False := by
      rw [hnone]
      exact fun u hu => absurd hu (Finset.notMem_empty u)
    obtain ⟨g, hstand⟩ := exists_standing h (hQ.1 hv)
    exact ⟨w, .refl, hcalm, hl, rfl, rfl, commit_of_matched hQ hv hstand.books.peers hl hsettled hlast
      fun u hu => (hnobody u hu).elim, fun u hu => (hnobody u hu).elim⟩
  · obtain ⟨w', hreach, hcalm', hl', hterm', hlog', -, hdone⟩ :=
      exists_all_matched h hQ.1 hcalm hv hl hterm (Q.erase v) (Finset.Subset.refl _)
    obtain ⟨g, hstand⟩ := exists_standing (hreach.reachable h) (hQ.1 hv)
    obtain ⟨hpv, hpQ⟩ := Finset.mem_erase.mp hp
    have hpeers : cfg.peers v ≠ [] := List.ne_nil_of_mem ((cfg.mem_peers v (hQ.1 hv) p).mpr ⟨hQ.1 hpQ, hpv⟩)
    rw [← hterm', ← hlog'] at hdone
    refine ⟨w', hreach, hcalm', hl', hterm', hlog', ?_, hdone⟩
    refine commit_of_matched hQ hv hstand.books.peers hl' (hstand.settled hpeers) ?_ fun u hu => (hdone u hu).2
    rw [hlog', hlast, hterm']

/-- The members learn what the leader has committed. -/
theorem exists_informed (h : Reachable cfg w) (hQ : Q ⊆ cfg.ids) (hcalm : Calm Q w) (hv : v ∈ Q)
    (hl : (w.replicas v).node.role.isLeader = true)
    (hcommit : (w.replicas v).node.log.lastIndex ≤ (w.replicas v).node.commitIndex)
    (hmatched : ∀ u ∈ Q.erase v, (w.replicas u).node.currentTerm = (w.replicas v).node.currentTerm ∧
      (w.replicas v).node.matchFor u = some (w.replicas v).node.log.lastIndex) (s : Finset NodeId) :
    s ⊆ Q.erase v → ∃ w', ReachesWithin cfg Q w w' ∧ Calm Q w' ∧
      (∃ t, (w'.replicas v).node = { (w.replicas v).node with ticksSinceReset := t }) ∧
      (∀ u ∉ s, u ≠ v → w'.replicas u = w.replicas u) ∧
      ∀ u ∈ s, (w'.replicas u).node.currentTerm = (w.replicas v).node.currentTerm ∧
        (w.replicas v).node.log.lastIndex ≤ (w'.replicas u).node.commitIndex := by
  induction s using Finset.induction_on with
  | empty =>
    exact fun _ => ⟨w, .refl, hcalm, ⟨_, rfl⟩, fun _ _ _ => rfl, fun u hu => absurd hu (Finset.notMem_empty u)⟩
  | insert p s hp ih =>
    intro hs
    obtain ⟨hpQ, hs⟩ := Finset.insert_subset_iff.mp hs
    obtain ⟨hpterm, hpmatched⟩ := hmatched p hpQ
    obtain ⟨hpv, hpQ⟩ := Finset.mem_erase.mp hpQ
    obtain ⟨w₁, hreach₁, hcalm₁, ⟨t, hnode₁⟩, hothers₁, hdone₁⟩ := ih hs
    have hreachable := hreach₁.reachable h
    obtain ⟨g, hstand⟩ := exists_standing hreachable (hQ hv)
    have hpeer : p ∈ cfg.peers v := (cfg.mem_peers v (hQ hv) p).mpr ⟨hQ hpQ, hpv⟩
    have hl₁ : (w₁.replicas v).node.role.isLeader = true := by rw [hnode₁]; exact hl
    have hsame := hothers₁ p hp hpv
    -- the books of the leader say that `p` has its log
    obtain ⟨hpos, hle, hget⟩ : 1 ≤ (w₁.replicas v).node.nextFor p ∧
        (w₁.replicas v).node.nextFor p ≤ (w₁.replicas v).node.log.lastIndex + 1 ∧
        ∀ i ≤ (w₁.replicas v).node.log.lastIndex,
          (w₁.replicas p).node.log.get i = (w₁.replicas v).node.log.get i := by
      have hm : (w₁.replicas v).node.matchFor p = some (w₁.replicas v).node.log.lastIndex := by
        rw [hnode₁]
        exact hpmatched
      obtain ⟨nextIndex, matchIndex, hrole⟩ := RaftNode.exists_role_of_isLeader hl₁
      obtain ⟨x, m, hx, hm', hbooked⟩ := books_of_leader hreachable (hQ hv) hrole hpeer
      rw [RaftNode.matchFor, hrole] at hm
      obtain rfl := Option.some.inj (hm'.symm.trans hm)
      have hnext : (w₁.replicas v).node.nextFor p = x := RaftNode.nextFor_of_leader hrole hx
      refine ⟨hnext ▸ hbooked.next_pos, hnext ▸ hbooked.next_le, fun i hi => ?_⟩
      refine hbooked.agrees ?_ _ List.mem_cons_self i hi
      rw [hsame, hnode₁]
      exact hpterm
    obtain ⟨w₂, hreach₂, hturn₂⟩ := exists_heartbeat hQ hv _ hcalm₁ hl₁ (Nat.le_add_left _ _)
    have hsent : ⟨v, p, .appendEntries ((w₁.replicas v).node.appendReq p)⟩ ∈ w₂.network :=
      hturn₂.sent p _ (List.mem_map.mpr ⟨p, by rw [hstand.books.peers]; exact hpeer, rfl⟩)
    obtain ⟨w₃, hreach₃, hturn₃⟩ := exists_delivered hQ (hturn₂.calm hcalm₁) hpQ hv hsent
    rw [hturn₂.others p hpv] at hturn₃
    have hterm₁ : (w₁.replicas p).node.currentTerm = (w₁.replicas v).node.currentTerm := by
      rw [hsame, hnode₁]
      exact hpterm
    refine ⟨w₃, (hreach₁.trans hreach₂).trans hreach₃, hturn₃.calm (hturn₂.calm hcalm₁), ⟨0, ?_⟩,
      fun u hu huv => ?_, fun u hu => ?_⟩
    · rw [hturn₃.others v (Ne.symm hpv), hturn₂.node, hnode₁]
    · rw [Finset.mem_insert, not_or] at hu
      rw [hturn₃.others u hu.1, hturn₂.others u huv, hothers₁ u hu.2 huv]
    · rcases Finset.mem_insert.mp hu with rfl | hu
      · rw [hturn₃.node]
        constructor
        · have hadopted := @RaftNode.onAppendEntries_term (w₁.replicas u).node v
            ((w₁.replicas v).node.appendReq u) hterm₁.le
          refine hadopted.trans ?_
          show (w₁.replicas v).node.currentTerm = _
          rw [hnode₁]
        · have hlearned := @RaftNode.commit_of_informed (w₁.replicas v).node v u (w₁.replicas u).node hterm₁
            hstand.coherent hpos hle hget (by rw [hnode₁]; exact hcommit)
          have hlog : (w₁.replicas v).node.log = (w.replicas v).node.log := by rw [hnode₁]
          rw [hlog] at hlearned
          exact hlearned
      · have hup : u ≠ p := fun heq => hp (heq ▸ hu)
        rw [hturn₃.others u hup, hturn₂.others u (Finset.mem_erase.mp (hs hu)).1]
        exact hdone₁ u hu

/-- A member whose commit index has come to the end of the leader's log has applied that log. -/
theorem applied_of_informed (h : Reachable cfg w) (hv : v ∈ cfg.ids) (hu : u ∈ cfg.ids)
    (hl : (w.replicas v).node.role.isLeader = true)
    (hterm : (w.replicas u).node.currentTerm ≤ (w.replicas v).node.currentTerm)
    (hpending : (w.replicas u).pending = [])
    (hcommit : (w.replicas v).node.log.lastIndex ≤ (w.replicas u).node.commitIndex) :
    (w.replicas u).applied = (w.replicas v).node.log.entries := by
  obtain ⟨g, hinv⟩ := exists_inv h
  obtain ⟨_, _, _, _, _, _, hemitted, _⟩ := settle hinv hu
  obtain ⟨_, g', _, hinv', _, hstand, hstand'⟩ := settle_two hinv hu hv
  obtain ⟨r, hr, _, hlog, _⟩ := leader_reign hstand'.peer hl
  have hpre := hinv'.ledger.safe_in_log hstand.peer.commit_safe hterm hr
  rw [hlog] at hpre
  have happlied : (w.replicas u).applied =
      (w.replicas u).node.log.entries.take (w.replicas u).node.commitIndex := by
    rw [← hemitted, emittedSinceRestart, hpending]
    exact (List.append_nil _).symm
  rw [happlied]
  refine hpre.eq_of_length_le ?_
  have hle : (w.replicas u).node.commitIndex ≤ (w.replicas u).node.log.entries.length := hstand.peer.commit_le
  show _ ≤ ((w.replicas u).node.log.entries.take (w.replicas u).node.commitIndex).length
  rw [List.length_take_of_le hle]
  exact hcommit

/-- Node `v` leads the members in term `t`, and none of them is busy or further on. -/
structure Led (Q : Finset NodeId) (w : Cluster) (v : NodeId) (t : ℕ) : Prop where
  calm : Calm Q w
  member : v ∈ Q
  lead : w.LeaderOf v t
  term : ∀ u ∈ Q, (w.replicas u).node.currentTerm ≤ t

/-- The members come to be led. -/
theorem exists_led (h : Reachable cfg w) (hQ : IsMajority cfg.ids Q) :
    ∃ w' v t, ReachesWithin cfg Q w w' ∧ Led Q w' v t := by
  obtain ⟨w₁, hreach₁, hcalm₁⟩ := exists_calm hQ.1 w
  obtain ⟨w₂, hreach₂, hcalm₂, v, hv, t, hlead, hterm⟩ := exists_leader (hreach₁.reachable h) hQ hcalm₁
  exact ⟨w₂, v, t, hreach₁.trans hreach₂, hcalm₂, hv, hlead, hterm⟩

/-- What is applied anywhere is in the log of a node that leads a majority: among the members is one that
has acknowledged it, in a term that is not beyond the leader's. -/
theorem Led.mem_log {t : ℕ} (h : Reachable cfg w) (hQ : IsMajority cfg.ids Q) (hled : Led Q w v t)
    (hu : u ∈ cfg.ids) {x : LogEntry} (hx : x ∈ w.emitted u) : x ∈ (w.replicas v).node.log.entries := by
  obtain ⟨g, hinv⟩ := exists_inv h
  obtain ⟨w', g', _, hinv', hle, hstand, _, hnode, hidle, hothers⟩ := settle hinv hu
  have hmembers : ∀ q ∈ Q, Standing cfg g' q (w.replicas q).node := by
    intro q hq
    have hsame : (w'.replicas q).node = (w.replicas q).node ∧ (w'.replicas q).pending = [] := by
      by_cases hqu : q = u
      · rw [hqu]
        exact ⟨hnode, hidle⟩
      · rw [hothers q hqu]
        exact ⟨rfl, hled.calm q hq⟩
    have hsynced := (hinv'.replicas q (hQ.1 hq)).synced_of_idle fun e he => by rw [hsame.2] at he; cases he
    have hstand_q := hsynced.standing
    rwa [hsame.1] at hstand_q
  obtain ⟨r, hr, _, hlog, _⟩ := leader_reign (hmembers v hled.member).peer hled.lead.1
  rw [hled.lead.2] at hr
  obtain ⟨t', P, hsafe, hxP⟩ := (decided_of_emitted hinv hu hle hstand).1 x hx
  rcases hsafe with rfl | ⟨t'', P', -, hcommitted, hpre⟩
  · cases hxP
  · have hin : t'' ≤ t → P' <+: r.log := fun hterm => hinv'.ledger.committed_in_log hcommitted hterm hr
    obtain ⟨-, hend, R, hR, hacked⟩ := hcommitted
    obtain ⟨q, hqQ, hqR⟩ := hQ.meet hR
    have hpos : 0 < g'.acked q t'' := (List.length_pos_iff.mpr hend.ne_nil).trans_le (hacked q hqR)
    have hterm : t'' ≤ t := ((hmembers q hqQ).peer.acked_term hpos).trans (hled.term q hqQ)
    exact hlog ▸ (hin hterm).subset (hpre.subset hxP)

/-- The leader takes a command, and the members apply its log. -/
theorem exists_replicated {t : ℕ} (h : Reachable cfg w) (hQ : IsMajority cfg.ids Q) (hled : Led Q w v t)
    (cmd : Command) :
    ∃ timeout w₁ w', w.step cfg (.event v (.propose cmd) timeout) = some w₁ ∧ ReachesWithin cfg Q w₁ w' ∧
      Led Q w' v t ∧ (w'.replicas v).node.log.entries =
        (w.replicas v).node.log.entries ++ [⟨t, (w.replicas v).node.log.lastIndex + 1, cmd⟩] ∧
      ∀ u ∈ Q, (w'.replicas u).applied = (w'.replicas v).node.log.entries := by
  obtain ⟨hcalm, hv, hlead, hterm⟩ := hled
  obtain ⟨timeout, w₁, w₂, hstep, hreach₂, hturn⟩ :=
    @exists_handled cfg Q w v (hQ.1 hv) hv (hcalm v hv) (.propose cmd) rfl
  have hreachable₂ : Reachable cfg w₂ :=
    hreach₂.reachable (h.trans (Relation.ReflTransGen.single ⟨_, hstep⟩))
  obtain ⟨hl₂, hterm₂, hlog₂, hsettled₂⟩ := RaftNode.proposed_spec hlead.1 cmd
  rw [← hturn.node] at hl₂ hterm₂ hlog₂ hsettled₂
  have hle₂ : ∀ u ∈ Q, (w₂.replicas u).node.currentTerm ≤ (w₂.replicas v).node.currentTerm := by
    intro u hu
    by_cases huv : u = v
    · rw [huv]
    · rw [hturn.others u huv, hterm₂, hlead.2]
      exact hterm u hu
  have hlast : (w₂.replicas v).node.log.termAt (w₂.replicas v).node.log.lastIndex =
      some (w₂.replicas v).node.currentTerm := by
    have hlen : (w₂.replicas v).node.log.lastIndex = (w.replicas v).node.log.lastIndex + 1 := by
      rw [RaftLog.lastIndex, hlog₂, List.length_append]
      rfl
    rw [hlen, RaftLog.termAt_succ, hlog₂, hterm₂, RaftLog.lastIndex, List.getElem?_concat_length]
    rfl
  obtain ⟨w₃, hreach₃, hcalm₃, hl₃, hterm₃, hlog₃, hcommit₃, hmatched₃⟩ :=
    exists_committed hreachable₂ hQ (hturn.calm hcalm) hv hl₂ hsettled₂ hlast hle₂
  obtain ⟨w₄, hreach₄, hcalm₄, ⟨ticks, hnode₄⟩, -, hdone₄⟩ :=
    exists_informed (hreach₃.reachable hreachable₂) hQ.1 hcalm₃ hv hl₃ hcommit₃ hmatched₃ (Q.erase v)
      (Finset.Subset.refl _)
  have hreachable₄ := hreach₄.reachable (hreach₃.reachable hreachable₂)
  have hl₄ : (w₄.replicas v).node.role.isLeader = true := by rw [hnode₄]; exact hl₃
  have hterm₄ : (w₄.replicas v).node.currentTerm = t := by
    rw [hnode₄]
    exact hterm₃.trans (hterm₂.trans hlead.2)
  have hlog₄ : (w₄.replicas v).node.log = (w₃.replicas v).node.log := by rw [hnode₄]
  have hinformed : ∀ u ∈ Q, (w₄.replicas u).node.currentTerm ≤ (w₄.replicas v).node.currentTerm ∧
      (w₄.replicas v).node.log.lastIndex ≤ (w₄.replicas u).node.commitIndex := by
    intro u hu
    by_cases huv : u = v
    · rw [huv, hnode₄]
      exact ⟨le_rfl, hcommit₃⟩
    · obtain ⟨hterm_u, hcommit_u⟩ := hdone₄ u (Finset.mem_erase.mpr ⟨huv, hu⟩)
      rw [hnode₄]
      exact ⟨hterm_u.le, hcommit_u⟩
  refine ⟨timeout, w₁, w₄, hstep, (hreach₂.trans hreach₃).trans hreach₄,
    ⟨hcalm₄, hv, ⟨hl₄, hterm₄⟩, fun u hu => hterm₄ ▸ (hinformed u hu).1⟩, ?_, fun u hu => ?_⟩
  · rw [hlog₄, hlog₃, hlog₂, hlead.2]
  · exact applied_of_informed hreachable₄ (hQ.1 hv) (hQ.1 hu) hl₄ (hinformed u hu).1 (hcalm₄ u hu)
      (hinformed u hu).2

/-- **Progress.** From every state that a cluster can be in, a majority of its members gets a new command
applied by all of them, on its own and without a restart: a member `v` comes to lead, and when it has been
given the command, all members come to have applied its log, with the command at the end. -/
theorem majority_progress (h : Reachable cfg w) (hQ : IsMajority cfg.ids Q) (cmd : Command) :
    ∃ w₁ v t timeout w₂ w₃, v ∈ Q ∧ ReachesWithin cfg Q w w₁ ∧ w₁.LeaderOf v t ∧
      w₁.step cfg (.event v (.propose cmd) timeout) = some w₂ ∧ ReachesWithin cfg Q w₂ w₃ ∧
      ∀ u ∈ Q, (w₃.replicas u).pending = [] ∧ (w₃.replicas u).applied =
        (w₁.replicas v).node.log.entries ++ [⟨t, (w₁.replicas v).node.log.lastIndex + 1, cmd⟩] := by
  obtain ⟨w₁, v, t, hreach₁, hled₁⟩ := exists_led h hQ
  obtain ⟨timeout, w₂, w₃, hstep, hreach₃, hled₃, hlog, happlied⟩ :=
    exists_replicated (hreach₁.reachable h) hQ hled₁ cmd
  refine ⟨w₁, v, t, timeout, w₂, w₃, hled₁.member, hreach₁, hled₁.lead, hstep, hreach₃, fun u hu => ?_⟩
  rw [happlied u hu, hlog]
  exact ⟨hled₃.calm u hu, rfl⟩

/-- The two nodes that did not lead go on without the one that did. -/
theorem majority_progress_trio :
    ∃ w log, Reaches trio afterCommit w ∧ ∀ u ∈ ({2, 3} : Finset NodeId),
      ((w.replicas u).applied.map LogEntry.command) = log ++ [[9]] := by
  have hmajority : IsMajority trio.ids {2, 3} := ⟨by decide, by decide⟩
  obtain ⟨w₁, v, t, timeout, w₂, w₃, -, hreach, -, hstep, hreach', happlied⟩ :=
    majority_progress reachable_afterCommit hmajority [9]
  refine ⟨w₃, (w₁.replicas v).node.log.entries.map LogEntry.command,
    (hreach.reaches.tail ⟨_, hstep⟩).trans hreach'.reaches, fun u hu => ?_⟩
  rw [(happlied u hu).2, List.map_append]
  rfl

end Replication

end Cluster

end MyK8s.Raft
