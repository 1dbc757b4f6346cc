import MyK8s.Raft.Simulation

/-!
# Crashes inside a batch

When a node crashes between two storage calls of a batch, some of them done and some not, the disk
mirrors neither the node before the step nor, in general, the node after it. It always mirrors a
node that the ledger allows (`crash_simulates`): one that has adopted the new term and no more,
one that has voted, or a follower whose log was cut at a conflict and not yet extended.
-/

namespace MyK8s.Raft

open Consensus

/-! ## Batches cut between two storage calls -/

/-- The batch was left after `done`, with storage calls on both sides. -/
structure Interrupted (batch done rest : List Effect) : Prop where
  split : batch = done ++ rest
  stores : ∀ e ∈ done, e.isStore = true
  more : ∃ e ∈ rest, e.isStore = true
  ne_nil : done ≠ []

section Interrupted

variable {done rest stores idle : List Effect}

/-- The cut lies inside the storage calls at the front of the batch. -/
theorem Interrupted.front (h : Interrupted (stores ++ idle) done rest)
    (hidle : ∀ e ∈ idle, e.isStore = false) : ∃ s, s ≠ [] ∧ stores = done ++ s := by
  obtain ⟨e, he, hstore⟩ := h.more
  rcases List.append_eq_append_iff.mp h.split with ⟨l, hl, hl'⟩ | ⟨l, hl, hl'⟩
  · -- everything behind the cut is idle
    have := hidle e (by rw [hl']; exact List.mem_append_right _ he)
    rw [hstore] at this
    cases this
  · refine ⟨l, ?_, hl⟩
    rintro rfl
    rw [List.nil_append] at hl'
    have := hidle e (hl' ▸ he)
    rw [hstore] at this
    cases this

theorem not_interrupted_of_idle (hidle : ∀ e ∈ idle, e.isStore = false) :
    ¬ Interrupted idle done rest := by
  intro h
  have h' : Interrupted ([] ++ idle) done rest := h
  obtain ⟨s, _, hs⟩ := h'.front hidle
  exact h.ne_nil (List.append_eq_nil_iff.mp hs.symm).1

/-- A batch with a single storage call is not cut between two. -/
theorem not_interrupted_of_single {e : Effect} (hidle : ∀ e ∈ idle, e.isStore = false) :
    ¬ Interrupted (e :: idle) done rest := by
  intro h
  have h' : Interrupted ([e] ++ idle) done rest := h
  obtain ⟨s, hs, heq⟩ := h'.front hidle
  have hlen := congrArg List.length heq
  have h1 := List.length_pos_iff.mpr hs
  have h2 := List.length_pos_iff.mpr h.ne_nil
  rw [List.length_append, List.length_singleton] at hlen
  omega

end Interrupted

namespace RaftNode

variable {n : RaftNode} {done rest : List Effect}

theorem onTick_not_interrupted : ¬ Interrupted n.onTick.2 done rest := by
  rcases n.onTick_cases with ⟨t, heq⟩ | ⟨t, _, heq⟩ | ⟨_, heq⟩
  · rw [heq]
    exact not_interrupted_of_idle (by simp)
  · rw [heq]
    exact not_interrupted_of_idle fun e he =>
      Effect.not_isStore_of_isSend (broadcastAppend_isSend he)
  · rw [heq, startElection_eq]
    split
    · exact not_interrupted_of_single (by simp)
    · refine not_interrupted_of_single fun e he => ?_
      obtain ⟨p, _, rfl⟩ := List.mem_map.mp he
      rfl

theorem onPropose_not_interrupted (cmd : Command) :
    ¬ Interrupted (n.onPropose cmd).2 done rest := by
  cases hrole : n.role with
  | leader nextIndex matchIndex =>
    rw [onPropose_of_leader hrole]
    refine not_interrupted_of_single fun e he => ?_
    rcases List.mem_append.mp he with he | he
    · exact Effect.not_isStore_of_isSend (broadcastAppend_isSend he)
    · exact Effect.not_isStore_of_isApply (tryCommit_isApply he)
  | _ =>
    rw [onPropose_of_not_leader (by rw [hrole]; rfl)]
    exact not_interrupted_of_idle (by simp)

/-- At a term that has been reached, only the replacement of a conflicting suffix takes two storage
calls: the truncation is done, the append is not. -/
theorem onMessage_interrupted {src : NodeId} {msg : Message} (hle : msg.term ≤ n.currentTerm)
    (hctg : (Event.message src msg).Contiguous)
    (h : Interrupted (n.step (.message src msg)).2 done rest) :
    ∃ req j, msg = .appendEntries req ∧ req.term = n.currentTerm ∧
      n.log.termAt req.prevLogIndex = some req.prevLogTerm ∧
      done = [.persistTruncate (req.prevLogIndex + j + 1)] ∧
      ∃ (hj : j < req.entries.length) (t : ℕ),
        n.log.termAt (req.prevLogIndex + j + 1) = some t ∧ t ≠ req.entries[j].term := by
  cases msg with
  | requestVoteResp resp =>
    exact absurd h (not_interrupted_of_idle fun e he => onRequestVoteResp_idle hle he)
  | appendEntriesResp resp =>
    exact absurd h (not_interrupted_of_idle fun e he => onAppendEntriesResp_idle hle he)
  | requestVote req =>
    rw [step, onRequestVote_eq hle] at h
    split at h
    · exact absurd h (not_interrupted_of_single (by simp [voteReply]))
    · exact absurd h (not_interrupted_of_idle (by simp [voteReply]))
  | appendEntries req =>
    rw [step] at h
    rcases Nat.lt_or_eq_of_le hle with hlt | hterm
    · rw [onAppendEntries_of_stale hlt] at h
      exact absurd h (not_interrupted_of_idle (by simp [rejectAppend]))
    by_cases hprev : n.log.termAt req.prevLogIndex = some req.prevLogTerm
    · rw [onAppendEntries_of_match hterm hprev, List.append_assoc] at h
      have hmerge := mergeEntries_spec hctg (RaftLog.le_lastIndex_of_termAt hprev)
      obtain ⟨s, hs, hstores⟩ := h.front fun e he => by
        rcases List.mem_append.mp he with he | he
        · exact Effect.not_isStore_of_isApply (learned_isApply he)
        · rw [List.mem_singleton.mp he]
          rfl
      have hdone := List.length_pos_iff.mpr h.ne_nil
      have hrest := List.length_pos_iff.mpr hs
      generalize mergeEntries n.log req.entries = res at hmerge hstores
      cases hmerge with
      | present hag =>
        exact absurd (List.append_eq_nil_iff.mp hstores.symm).1 h.ne_nil
      | extended j hj hag hend =>
        have hlen := congrArg List.length hstores
        rw [List.length_append, List.length_singleton] at hlen
        omega
      | replaced j hj hag t ht hne =>
        have hlen := congrArg List.length hstores
        rw [List.length_append, List.length_cons, List.length_singleton] at hlen
        obtain ⟨x, rfl⟩ := List.length_eq_one_iff.mp (show done.length = 1 by omega)
        have hx : x = .persistTruncate (req.prevLogIndex + j + 1) := (List.cons.inj hstores).1.symm
        exact ⟨req, j, rfl, hterm, hprev, by rw [hx], hj, t, ht, hne⟩
    · rw [onAppendEntries_of_mismatch hterm hprev] at h
      exact absurd h (not_interrupted_of_idle (by simp [rejectAppend]))

end RaftNode

/-! ## The node that recovery finds -/

section Recovery

variable {cfg : Config} {v : NodeId} {g : RaftLedger} {n : RaftNode}

/-- A follower whose log has been cut at a conflict. -/
def RaftNode.cut (n : RaftNode) (k : ℕ) : RaftNode :=
  { n with
    log := ⟨n.log.entries.take k⟩
    role := .follower }

/-- Cutting at a conflict is a ledger step that acknowledges nothing new. -/
theorem cut_act {src : NodeId} {req : AppendEntriesReq}
    (hterm : req.term = n.currentTerm) (hback : Backed cfg.ids g ⟨src, v, .appendEntries req⟩)
    {j t : ℕ} (hj : j < req.entries.length)
    (ht : n.log.termAt (req.prevLogIndex + j + 1) = some t) (hne : t ≠ req.entries[j].term) :
    ∃ g', Act cfg.ids v (n.peer, g) ((n.cut (req.prevLogIndex + j)).peer, g') := by
  obtain ⟨_, _, _, _, r, hr, _, hex⟩ := hback
  rw [hterm] at hr
  exact ⟨_, Act.accept n.peer g r _ 0 hr (Nat.zero_le _) (Or.inl (List.take_prefix _ _))
    List.nil_prefix fun P hP hPr => common_before_conflict hex hj ht hne hP hPr⟩

/-- A disk that mirrored the node, after a cut: `done` is the truncation. -/
theorem mirrors_cut {m : RaftNode} {disk : RaftStorage} (hm : disk.loadLog = n.log.entries)
    (hhs : disk.loadHardState = n.hardState) (hc : Coherent n.log.entries) (k : ℕ) :
    Mirrors (diskAfter m disk [.persistTruncate (k + 1)]) (n.cut k) where
  hardState := by
    rw [loadHardState_diskAfter, if_neg (by simp), hhs]
    rfl
  log := loadLog_truncateFrom hm hc k

/-- **Crash points.** After the storage calls of a batch that have been done when some are still
to come, the disk mirrors a node reached by ledger steps, whose log is a piece of the old one. -/
theorem crash_simulates (hI : LedgerInv cfg.ids g) (hp : PeerInv cfg.ids g v n.peer)
    (hb : Books cfg g v n) {ev : Event} (hev : ev.Backed cfg.ids g v)
    {disk : RaftStorage} (hm : Mirrors disk n) {done rest : List Effect}
    (h : Interrupted (n.step ev).2 done rest) :
    ∃ k g', Mirrors (diskAfter (n.step ev).1 disk done) k ∧
      k.log.entries <+: n.log.entries ∧ Acts cfg.ids v (n.peer, g) (k.peer, g') := by
  have hc : Coherent n.log.entries := fun k e hk => (hp.log_valid k e hk).1
  cases ev with
  | tick => exact absurd h RaftNode.onTick_not_interrupted
  | propose cmd => exact absurd h (RaftNode.onPropose_not_interrupted cmd)
  | message src msg =>
    have hctg := hev.contiguous hI
    by_cases hle : msg.term ≤ n.currentTerm
    · obtain ⟨req, j, rfl, hterm, _, rfl, hj, t, ht, hne⟩ :=
        RaftNode.onMessage_interrupted hle hctg h
      obtain ⟨g', hact⟩ := cut_act hterm hev hj ht hne
      exact ⟨_, g', mirrors_cut hm.log hm.hardState hc _, List.take_prefix _ _,
        Relation.ReflTransGen.single hact⟩
    · have hlt := Nat.not_le.mp hle
      rw [RaftNode.step_higher hlt] at h ⊢
      have hadopt := adopt_simulates hb hlt
      have hs := Acts.sound hadopt.acts hI hp
      obtain ⟨e, done, rfl⟩ := List.exists_cons_of_ne_nil h.ne_nil
      obtain ⟨rfl, hsplit⟩ := List.cons.inj h.split
      -- the new term and whatever vote follows it are on disk
      set n' := ((n.adopt msg.term).step (.message src msg)).1 with hn'
      have hhs : (diskAfter n' disk [.persist]).loadHardState = n'.hardState := rfl
      have hlog : (diskAfter n' disk [.persist]).loadLog = n.log.entries := hm.log
      by_cases hdone : done = []
      · subst hdone
        by_cases hae : ∃ req, msg = .appendEntries req
        · obtain ⟨req, rfl⟩ := hae
          refine ⟨n.adopt req.term, g, ⟨?_, hlog⟩, List.prefix_rfl, hadopt.acts⟩
          rw [hhs]
          exact RaftNode.onAppendEntries_hardState le_rfl
        · obtain ⟨g', hsim⟩ := onMessage_simulates hI hs.peer hadopt.books hadopt.settled le_rfl hev
          have hsame := (RaftNode.onMessage_log (n := n.adopt msg.term) src le_rfl
            fun req hreq => hae ⟨req, hreq⟩).1
          have hlog' : n'.log.entries = n.log.entries := by
            rw [hn', hsame]
            rfl
          exact ⟨n', g', ⟨hhs, hlog.trans hlog'.symm⟩, by rw [hlog'],
            hadopt.acts.trans hsim.acts⟩
      · have hinner : Interrupted ((n.adopt msg.term).step (.message src msg)).2 done rest :=
          ⟨hsplit, fun x hx => h.stores x (List.mem_cons_of_mem _ hx), h.more, hdone⟩
        obtain ⟨req, j, rfl, hterm, _, rfl, hj, t, ht, hne⟩ :=
          RaftNode.onMessage_interrupted le_rfl hctg hinner
        obtain ⟨g', hact⟩ := cut_act hterm hev hj ht hne
        refine ⟨_, g', ?_, List.take_prefix _ _,
          hadopt.acts.trans (Relation.ReflTransGen.single hact)⟩
        rw [diskAfter_cons]
        refine mirrors_cut (n := n.adopt req.term) hlog ?_ hc _
        rw [hhs]
        exact RaftNode.onAppendEntries_hardState le_rfl

end Recovery

/-! ## What a crash keeps from being applied -/

/-- The entry is part of a committed prefix. -/
def Decided (ids : Finset NodeId) (g : RaftLedger) (x : LogEntry) : Prop :=
  ∃ t P, Safe ids g t P ∧ x ∈ P

theorem Decided.mono {ids : Finset NodeId} {g g' : RaftLedger} (hle : g.Le g') {x : LogEntry}
    (h : Decided ids g x) : Decided ids g' x := by
  obtain ⟨t, P, hs, hx⟩ := h
  exact ⟨t, P, hs.mono hle le_rfl, hx⟩

theorem Effect.mem_applies {es : List Effect} {x : LogEntry} :
    x ∈ Effect.applies es ↔ .apply x ∈ es := by
  unfold Effect.applies
  rw [List.mem_filterMap]
  constructor
  · rintro ⟨e, he, hx⟩
    cases e with
    | apply y =>
      obtain rfl := Option.some.inj hx
      exact he
    | _ => cases hx
  · exact fun h => ⟨_, h, rfl⟩

namespace RaftNode

variable {n : RaftNode}

/-- With peers, an entry that has just been appended is not committed in the same step. -/
theorem onPropose_commit {nextIndex matchIndex : PeerMap} (hrole : n.role = .leader nextIndex matchIndex)
    (hne : n.peers ≠ []) (hset : n.Settled)
    (hmatch : ∀ p ∈ n.peers, (matchIndex p).getD 0 ≤ n.log.lastIndex) (cmd : Command) :
    (n.appended cmd).tryCommit = (n.appended cmd, []) := by
  rcases (n.appended cmd).tryCommit_cases with ⟨heq, _⟩ | ⟨nx, mt, i, hr, hlt, hle, hcom, _, _⟩
  · exact heq
  · have hr' : n.role = .leader nx mt := hr
    rw [hrole] at hr'
    obtain ⟨rfl, rfl⟩ := Role.leader.inj hr'
    rcases Nat.lt_or_ge n.log.lastIndex i with hnew | hold
    · -- the new entry: no peer can have it
      have := not_committable_of_unmatched (n := n.appended cmd) (i := i) hne fun p hp =>
        (hmatch p hp).trans_lt hnew
      rw [this] at hcom
      cases hcom
    · -- an older entry would have been committed before
      have hold' := hset nextIndex matchIndex hrole i hlt hold
      have hsame : (n.appended cmd).committable matchIndex i = n.committable matchIndex i := by
        obtain ⟨k, rfl⟩ : ∃ k, i = k + 1 := ⟨i - 1, by omega⟩
        have hterm : (n.appended cmd).log.termAt (k + 1) = n.log.termAt (k + 1) := by
          rw [RaftLog.termAt_succ, RaftLog.termAt_succ]
          show Option.map _ (n.log.entries ++ [_])[k]? = _
          rw [List.getElem?_append_left hold]
        unfold committable
        rw [hterm]
        rfl
      rw [hsame, hold'] at hcom
      cases hcom

end RaftNode

section Lost

variable {cfg : Config} {v : NodeId} {g : RaftLedger} {n : RaftNode} {x : LogEntry}

/-- What a leader expects its peers to hold is inside its log. -/
theorem match_le (hI : LedgerInv cfg.ids g) (hp : PeerInv cfg.ids g v n.peer)
    (hl : n.role.isLeader = true) {p : NodeId} : g.acked p n.currentTerm ≤ n.log.lastIndex := by
  obtain ⟨r, hr, _, hlog, _⟩ := leader_reign hp hl
  rcases Nat.eq_zero_or_pos (g.acked p n.currentTerm) with h0 | hpos
  · rw [h0]
    exact Nat.zero_le _
  · obtain ⟨r', hr', hle⟩ := hI.acked_le hpos
    obtain rfl := Option.some.inj (hr.symm.trans hr')
    rwa [hlog] at hle

/-- What a follower applies was shown to it as committed. -/
theorem onAppendEntries_applied (hI : LedgerInv cfg.ids g) (hp : PeerInv cfg.ids g v n.peer)
    (hb : Books cfg g v n) {src : NodeId} {req : AppendEntriesReq} (hle : req.term ≤ n.currentTerm)
    (hback : Backed cfg.ids g ⟨src, v, .appendEntries req⟩)
    (hx : .apply x ∈ (n.onAppendEntries src req).2) : Decided cfg.ids g x := by
  rcases Nat.lt_or_eq_of_le hle with hlt | hterm
  · rw [RaftNode.onAppendEntries_of_stale hlt] at hx
    cases List.mem_singleton.mp hx
  by_cases hprev : n.log.termAt req.prevLogIndex = some req.prevLogTerm
  · obtain ⟨hcap, hsafe⟩ := merged_safe hI hp hterm hprev hback
    rw [RaftNode.onAppendEntries_of_match hterm hprev] at hx
    rcases List.mem_append.mp hx with hx | hx
    · rcases List.mem_append.mp hx with hx | hx
      · cases RaftNode.mergeEntries_isStore hx
      · unfold RaftNode.learned at hx
        split at hx
        · rename_i hgt
          rw [min_eq_left hcap, ← Effect.mem_applies, applies_advanceApplied hcap] at hx
          · exact ⟨_, _, hsafe, List.mem_of_mem_drop hx⟩
          · show n.lastApplied ≤ req.leaderCommit
            rw [hb.applied]
            exact Nat.le_of_lt hgt
        · cases hx
    · cases List.mem_singleton.mp hx
  · rw [RaftNode.onAppendEntries_of_mismatch hterm hprev] at hx
    cases List.mem_singleton.mp hx

/-- Only a leader applies entries on other messages, and then it has nothing to store. -/
theorem onMessage_applied (hI : LedgerInv cfg.ids g) (hp : PeerInv cfg.ids g v n.peer)
    (hb : Books cfg g v n) {src : NodeId} {msg : Message} (hle : msg.term ≤ n.currentTerm)
    (hback : Backed cfg.ids g ⟨src, v, msg⟩)
    (h : n.role.isLeader = false ∨ ∃ e ∈ (n.step (.message src msg)).2, e.isStore = true)
    (hx : .apply x ∈ (n.step (.message src msg)).2) : Decided cfg.ids g x := by
  cases msg with
  | appendEntries req => exact onAppendEntries_applied hI hp hb hle hback hx
  | requestVote req =>
    rw [RaftNode.step, RaftNode.onRequestVote_eq hle] at hx
    split at hx
    · rcases List.mem_cons.mp hx with hx | hx
      · cases hx
      · cases List.mem_singleton.mp hx
    · cases List.mem_singleton.mp hx
  | requestVoteResp resp =>
    rw [RaftNode.step] at hx
    rcases RaftNode.onRequestVoteResp_cases src hle with heq | ⟨votes, _, _, _, heq⟩
    · rw [heq] at hx
      cases hx
    · rw [heq] at hx
      cases RaftNode.tryWin_isSend hx
  | appendEntriesResp resp =>
    rcases h with hl | ⟨e, he, hstore⟩
    · rw [RaftNode.step] at hx
      rcases RaftNode.onAppendEntriesResp_cases src hle with heq | ⟨_, _, hrole, _⟩
      · rw [heq] at hx
        cases hx
      · rw [hrole] at hl
        cases hl
    · rw [RaftNode.onAppendEntriesResp_idle hle he] at hstore
      cases hstore

/-- In a cluster with peers, what a batch with storage calls applies was decided before the step:
it is no loss if a crash keeps the storage calls from being run. -/
theorem step_applied (hI : LedgerInv cfg.ids g) (hp : PeerInv cfg.ids g v n.peer)
    (hb : Books cfg g v n) (hset : n.Settled) (hne : cfg.peers v ≠ []) {ev : Event}
    (hev : ev.Backed cfg.ids g v) (hstore : ∃ e ∈ (n.step ev).2, e.isStore = true)
    (hx : .apply x ∈ (n.step ev).2) : Decided cfg.ids g x := by
  have hpeers : n.peers ≠ [] := by rwa [hb.peers]
  cases ev with
  | tick =>
    rw [RaftNode.step] at hx
    rcases n.onTick_cases with ⟨t, heq⟩ | ⟨t, _, heq⟩ | ⟨_, heq⟩
    · rw [heq] at hx
      cases hx
    · rw [heq] at hx
      cases RaftNode.broadcastAppend_isSend hx
    · rw [heq, RaftNode.startElection_eq, if_neg hpeers] at hx
      rcases List.mem_cons.mp hx with hx | hx
      · cases hx
      · obtain ⟨p, _, hp⟩ := List.mem_map.mp hx
        cases hp
  | propose cmd =>
    rw [RaftNode.step] at hx
    cases hrole : n.role with
    | leader nextIndex matchIndex =>
      have hlead : n.role.isLeader = true := by rw [hrole]; rfl
      rw [RaftNode.onPropose_of_leader hrole, RaftNode.onPropose_commit hrole hpeers hset
        fun p hmem => ?_] at hx
      · rcases List.mem_append.mp hx with hx | hx
        · rcases List.mem_cons.mp hx with hx | hx
          · cases hx
          · cases RaftNode.broadcastAppend_isSend hx
        · cases hx
      · rw [hb.peers] at hmem
        obtain ⟨y, m, _, hm, _, _, hack⟩ := hb.tracks hrole p hmem
        rw [hm]
        exact hack.trans (match_le hI hp hlead)
    | _ =>
      rw [RaftNode.onPropose_of_not_leader (by rw [hrole]; rfl)] at hx
      cases List.mem_singleton.mp hx
  | message src msg =>
    by_cases hle : msg.term ≤ n.currentTerm
    · exact onMessage_applied hI hp hb hle hev (Or.inr hstore) hx
    · have hlt := Nat.not_le.mp hle
      have hadopt := adopt_simulates hb hlt
      have hs := Acts.sound hadopt.acts hI hp
      rw [RaftNode.step_higher hlt] at hx
      rcases List.mem_cons.mp hx with hx | hx
      · cases hx
      · exact onMessage_applied hI hs.peer hadopt.books le_rfl hev (Or.inl rfl) hx

end Lost

end MyK8s.Raft
