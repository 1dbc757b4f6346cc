import MyK8s.Raft.Bookkeeping

/-!
# What a delivery of AppendEntries leaves

The network repeats, delays and reorders messages. `duplicate_append` and `late_append` say that
`on_append_entries` does not mind: a second copy of a message is answered as the first and does
nothing else, and a message that a newer one of the same leader has overtaken leaves the log alone.
`commit_within_verified_iff` says for which messages the commit index stays inside what has been
compared with the log of the sender.
-/

namespace MyK8s.Raft

/-! ## The append loop, once more -/

section Merge

variable {log : RaftLog} {prev : ℕ} {es : List LogEntry} {res : RaftLog × List Effect}

/-- The loop does nothing to a log that has all entries. -/
theorem mergeEntries_of_agrees (hc : ContiguousFrom prev es) (hle : prev ≤ log.lastIndex)
    (h : Agrees log prev es es.length) : RaftNode.mergeEntries log es = (log, []) := by
  have hmerge := mergeEntries_spec hc hle
  generalize hres : RaftNode.mergeEntries log es = res at hmerge
  cases hmerge with
  | present _ => rfl
  | extended j hj _ hend =>
    have hlast := h j es[j] hj (List.getElem?_eq_getElem hj)
    have := RaftLog.le_lastIndex_of_termAt hlast
    omega
  | replaced j hj _ t ht hne =>
    have hterm := h j es[j] hj (List.getElem?_eq_getElem hj)
    exact absurd (Option.some.inj (ht.symm.trans hterm)) hne

/-- Either the log had all entries, or it is now what it had in common with the message and the rest
of the message behind that. -/
theorem Merge.entries_cases (h : Merge log prev es res) :
    (Agrees log prev es es.length ∧ res = (log, [])) ∨
      ∃ j < es.length, ¬ Agrees log prev es es.length ∧ Agrees log prev es j ∧
        prev + j ≤ log.lastIndex ∧
        res.1.entries = log.entries.take (prev + j) ++ es.drop j := by
  cases h with
  | present h => exact Or.inl ⟨h, rfl⟩
  | extended j hj h hend =>
    refine Or.inr ⟨j, hj, fun hall => ?_, h, hend.ge, ?_⟩
    · have hlast := hall j es[j] hj (List.getElem?_eq_getElem hj)
      have := RaftLog.le_lastIndex_of_termAt hlast
      omega
    · show log.entries ++ es.drop j = log.entries.take (prev + j) ++ es.drop j
      rw [List.take_of_length_le hend.le]
  | replaced j hj h t ht hne =>
    refine Or.inr ⟨j, hj, fun hall => ?_, h, ?_, rfl⟩
    · have hterm := hall j es[j] hj (List.getElem?_eq_getElem hj)
      exact absurd (Option.some.inj (ht.symm.trans hterm)) hne
    · have := RaftLog.le_lastIndex_of_termAt ht
      omega

/-- What the loop leaves ends where the message ends, unless it had everything. -/
theorem Merge.lastIndex_eq (h : Merge log prev es res) :
    (Agrees log prev es es.length ∧ res.1.lastIndex = log.lastIndex) ∨
      (¬ Agrees log prev es es.length ∧ res.1.lastIndex = prev + es.length) := by
  rcases h.entries_cases with ⟨hall, rfl⟩ | ⟨j, hj, hnot, _, hjle, hentries⟩
  · exact Or.inl ⟨hall, rfl⟩
  · refine Or.inr ⟨hnot, ?_⟩
    unfold RaftLog.lastIndex at hjle ⊢
    rw [hentries, List.length_append, List.length_take_of_le hjle, List.length_drop]
    omega

/-- After the loop the log has all entries. -/
theorem Merge.agrees (h : Merge log prev es res) :
    Agrees res.1 prev es es.length := by
  rcases h.entries_cases with ⟨hall, rfl⟩ | ⟨j, hj, _, hag, hjle, hentries⟩
  · exact hall
  · intro i x hi hx
    have hlen : (log.entries.take (prev + j)).length = prev + j := List.length_take_of_le hjle
    rw [RaftLog.termAt_succ, hentries]
    rcases Nat.lt_or_ge i j with hij | hij
    · have hold := hag i x hij hx
      rw [RaftLog.termAt_succ] at hold
      rw [List.getElem?_append_left (by omega), List.getElem?_take_of_lt (by omega), hold]
    · rw [List.getElem?_append_right (by omega), hlen, List.getElem?_drop,
        show j + (prev + i - (prev + j)) = i by omega, hx]
      rfl

/-- The entry that the message builds on stays. -/
theorem Merge.termAt_prev (h : Merge log prev es res) {t : ℕ} (hprev : log.termAt prev = some t) :
    res.1.termAt prev = some t := by
  rcases h.entries_cases with ⟨_, rfl⟩ | ⟨j, _, _, _, hjle, hentries⟩
  · exact hprev
  · cases prev with
    | zero => exact hprev
    | succ k =>
      have hlen : (log.entries.take (k + 1 + j)).length = k + 1 + j := List.length_take_of_le hjle
      rw [RaftLog.termAt_succ] at hprev ⊢
      rw [hentries, List.getElem?_append_left (by omega), List.getElem?_take_of_lt (by omega),
        hprev]

end Merge

/-! ## The handler in parts -/

namespace RaftNode

section Handler

variable {n : RaftNode} {src : NodeId} {req : AppendEntriesReq}

/-- A message of a higher term is handled by the node that has adopted the term. -/
theorem onAppendEntries_of_higher (h : n.currentTerm < req.term) :
    n.onAppendEntries src req =
      (((n.adopt req.term).onAppendEntries src req).1,
        .persist :: ((n.adopt req.term).onAppendEntries src req).2) :=
  @step_higher n src (.appendEntries req) h

/-- The message is not of an old term, and the log has the entry that it builds on. -/
def Accepts (n : RaftNode) (req : AppendEntriesReq) : Prop :=
  n.currentTerm ≤ req.term ∧ n.log.termAt req.prevLogIndex = some req.prevLogTerm

instance (n : RaftNode) (req : AppendEntriesReq) : Decidable (n.Accepts req) :=
  inferInstanceAs (Decidable (_ ∧ _))

theorem heard_heard (n : RaftNode) (l : NodeId) : (n.heard l).heard l = n.heard l := by
  unfold heard
  cases n.role <;> rfl

theorem learned_frame (n : RaftNode) (c : ℕ) :
    ∃ i a, (n.learned c).1 = { n with commitIndex := i, lastApplied := a } := by
  unfold learned
  split
  · exact ⟨_, _, rfl⟩
  · exact ⟨n.commitIndex, n.lastApplied, rfl⟩

@[simp] theorem learned_log (n : RaftNode) (c : ℕ) : (n.learned c).1.log = n.log := by
  unfold learned
  split <;> rfl

theorem learned_commitIndex (n : RaftNode) (c : ℕ) :
    (n.learned c).1.commitIndex =
      if c > n.commitIndex then min c n.log.lastIndex else n.commitIndex := by
  unfold learned
  split <;> rfl

/-- Once the node is level with its commit index, the loop has nothing to apply. -/
theorem advanceApplied_of_le (h : n.commitIndex ≤ n.lastApplied) : n.advanceApplied = (n, []) := by
  unfold advanceApplied
  rw [Nat.sub_eq_zero_of_le h, max_eq_left h]
  rfl

/-- News that has been heard is no news. -/
theorem learned_learned (n : RaftNode) (c : ℕ) :
    (n.learned c).1.learned c = ((n.learned c).1, []) := by
  by_cases h : c > n.commitIndex
  · have hlevel : (n.learned c).1.commitIndex ≤ (n.learned c).1.lastApplied := by
      unfold learned
      rw [if_pos h]
      exact le_max_right _ _
    have hcommit : (n.learned c).1.commitIndex = min c (n.learned c).1.log.lastIndex := by
      rw [learned_commitIndex, if_pos h, learned_log]
    generalize (n.learned c).1 = m at hlevel hcommit ⊢
    unfold learned
    rw [← hcommit, advanceApplied_of_le hlevel, ite_self]
  · have hold : n.learned c = (n, []) := if_neg h
    rw [hold]
    exact hold

/-- A message of the term or a later one is handled by a node that is at its term. -/
theorem exists_level (src : NodeId) (h : n.currentTerm ≤ req.term) :
    ∃ m : RaftNode, req.term = m.currentTerm ∧ m.log = n.log ∧ m.commitIndex = n.commitIndex ∧
      (n.onAppendEntries src req).1 = (m.onAppendEntries src req).1 ∧
        ((n.onAppendEntries src req).2 = (m.onAppendEntries src req).2 ∨
          (n.onAppendEntries src req).2 = .persist :: (m.onAppendEntries src req).2) := by
  rcases Nat.lt_or_eq_of_le h with hlt | heq
  · rw [onAppendEntries_of_higher hlt]
    exact ⟨n.adopt req.term, rfl, rfl, rfl, rfl, .inr rfl⟩
  · exact ⟨n, heq.symm, rfl, rfl, rfl, .inl rfl⟩

/-- What an accepted message does to the log and to the commit index. -/
theorem onAppendEntries_of_accepts (h : n.Accepts req) :
    (n.onAppendEntries src req).1.log = (mergeEntries n.log req.entries).1 ∧
      (n.onAppendEntries src req).1.commitIndex =
        if req.leaderCommit > n.commitIndex then
          min req.leaderCommit (mergeEntries n.log req.entries).1.lastIndex
        else n.commitIndex := by
  obtain ⟨m, hterm, hlog, hcommit, hnode, -⟩ := exists_level src h.1
  rw [hnode, ← hlog, ← hcommit, onAppendEntries_of_match hterm (hlog ▸ h.2)]
  exact ⟨learned_log _ _, learned_commitIndex _ _⟩

/-- A refused message leaves the log and the commit index alone, and applies nothing. -/
theorem onAppendEntries_of_refuses (h : ¬ n.Accepts req) :
    (n.onAppendEntries src req).1.log = n.log ∧
      (n.onAppendEntries src req).1.commitIndex = n.commitIndex ∧
      ∀ e ∈ (n.onAppendEntries src req).2, e.isSend = true ∨ e = .persist := by
  have hmismatch : ∀ m : RaftNode, req.term = m.currentTerm →
      m.log.termAt req.prevLogIndex ≠ some req.prevLogTerm →
      m.onAppendEntries src req = (m.heard req.leaderId, [m.rejectAppend src]) :=
    fun m hterm hprev => onAppendEntries_of_mismatch hterm hprev
  rcases Nat.lt_trichotomy req.term n.currentTerm with hlt | heq | hgt
  · rw [onAppendEntries_of_stale hlt]
    exact ⟨rfl, rfl, fun e he => Or.inl (by rw [List.mem_singleton.mp he]; rfl)⟩
  · rw [hmismatch n heq fun hprev => h ⟨heq.ge, hprev⟩]
    exact ⟨rfl, rfl, fun e he => Or.inl (by rw [List.mem_singleton.mp he]; rfl)⟩
  · rw [onAppendEntries_of_higher hgt,
      hmismatch (n.adopt req.term) rfl fun hprev => h ⟨hgt.le, hprev⟩]
    refine ⟨rfl, rfl, fun e he => ?_⟩
    rcases List.mem_cons.mp he with rfl | he
    · exact Or.inr rfl
    · exact Or.inl (by rw [List.mem_singleton.mp he]; rfl)

end Handler

/-! ## A second copy -/

section Duplicate

variable {n : RaftNode} {src : NodeId} {req : AppendEntriesReq}

theorem heard_learned {m : RaftNode} {l : NodeId} (h : m.heard l = m) (c : ℕ) :
    (m.learned c).1.heard l = (m.learned c).1 := by
  obtain ⟨i, a, heq⟩ := learned_frame m c
  rw [heq]
  -- `heard` touches fields that the two indices are not among
  have hrole := congrArg RaftNode.role h
  have hticks := congrArg RaftNode.ticksSinceReset h
  have hhint := congrArg RaftNode.leaderHint h
  unfold heard at hrole hticks hhint ⊢
  simp only at hrole hticks hhint ⊢
  rw [hrole, hticks, hhint]

theorem merged_of_agrees {m : RaftNode} {prev : ℕ} {es : List LogEntry}
    (hc : ContiguousFrom prev es) (hle : prev ≤ m.log.lastIndex)
    (h : Agrees m.log prev es es.length) : m.merged es = m := by
  unfold merged
  rw [mergeEntries_of_agrees hc hle h]

/-- Storage calls and applies in front of a reply: the reply is all that the batch sends. -/
theorem filter_isSend {stores applies : List Effect} {reply : Effect}
    (hs : ∀ e ∈ stores, e.isStore = true) (ha : ∀ e ∈ applies, e.isApply = true)
    (hr : reply.isSend = true) :
    (stores ++ applies ++ [reply]).filter Effect.isSend = [reply] := by
  have hstores : stores.filter Effect.isSend = [] :=
    List.filter_eq_nil_iff.mpr fun e he => by simp [Effect.not_isSend_of_isStore (hs e he)]
  have happlies : applies.filter Effect.isSend = [] :=
    List.filter_eq_nil_iff.mpr fun e he => by simp [Effect.not_isSend_of_isApply (ha e he)]
  rw [List.filter_append, List.filter_append, hstores, happlies, List.filter_singleton, hr]
  rfl

/-- At a term that has been reached, the second copy gets the reply of the first. -/
theorem duplicate_of_reached (hc : ContiguousFrom req.prevLogIndex req.entries)
    (hle : req.term ≤ n.currentTerm) :
    ∃ reply, (n.onAppendEntries src req).2.filter Effect.isSend = [reply] ∧
      (n.onAppendEntries src req).1.onAppendEntries src req =
        ((n.onAppendEntries src req).1, [reply]) := by
  rcases Nat.lt_or_eq_of_le hle with hlt | heq
  · rw [onAppendEntries_of_stale hlt]
    exact ⟨n.rejectAppend src, rfl, onAppendEntries_of_stale hlt⟩
  by_cases hprev : n.log.termAt req.prevLogIndex = some req.prevLogTerm
  · -- accepted: the log has everything now, and the commit index is as the message wants it
    have hspec := mergeEntries_spec hc (RaftLog.le_lastIndex_of_termAt hprev)
    rw [onAppendEntries_of_match heq hprev]
    refine ⟨n.ackAppend src (req.prevLogIndex + req.entries.length),
      filter_isSend (fun e he => mergeEntries_isStore he) (fun e he => learned_isApply he) rfl, ?_⟩
    set m := (n.heard req.leaderId).merged req.entries with hm
    have hlog : (m.learned req.leaderCommit).1.log = (mergeEntries n.log req.entries).1 :=
      learned_log m _
    have hag : Agrees (m.learned req.leaderCommit).1.log req.prevLogIndex req.entries
        req.entries.length := by
      rw [hlog]
      exact hspec.agrees
    have hterm : (m.learned req.leaderCommit).1.currentTerm = n.currentTerm := learned_term m _
    have hprev' : (m.learned req.leaderCommit).1.log.termAt req.prevLogIndex =
        some req.prevLogTerm := by
      rw [hlog]
      exact hspec.termAt_prev hprev
    have hle' := RaftLog.le_lastIndex_of_termAt hprev'
    have hheard : (m.learned req.leaderCommit).1.heard req.leaderId =
        (m.learned req.leaderCommit).1 := by
      refine heard_learned ?_ _
      show ((n.heard req.leaderId).heard req.leaderId).merged req.entries = m
      rw [heard_heard]
    rw [onAppendEntries_of_match (heq.trans hterm.symm) hprev', hheard,
      merged_of_agrees hc hle' hag, learned_learned, mergeEntries_of_agrees hc hle' hag]
    unfold ackAppend
    rw [hterm]
    rfl
  · rw [onAppendEntries_of_mismatch heq hprev]
    refine ⟨n.rejectAppend src, rfl, ?_⟩
    rw [onAppendEntries_of_mismatch (n := n.heard req.leaderId) heq hprev, heard_heard]
    rfl

/-- Whatever the term, the second copy gets the reply of the first and does nothing else. -/
theorem duplicate_append (n : RaftNode) (src : NodeId)
    (hc : ContiguousFrom req.prevLogIndex req.entries) :
    ∃ reply, (n.onAppendEntries src req).2.filter Effect.isSend = [reply] ∧
      (n.onAppendEntries src req).1.onAppendEntries src req =
        ((n.onAppendEntries src req).1, [reply]) := by
  rcases Nat.lt_or_ge n.currentTerm req.term with hlt | hge
  · obtain ⟨reply, hsends, hsecond⟩ :=
      @duplicate_of_reached (n.adopt req.term) src req hc le_rfl
    rw [onAppendEntries_of_higher hlt]
    exact ⟨reply, hsends, hsecond⟩
  · exact duplicate_of_reached hc hge

end Duplicate

/-- The entry from which on `append_for` sends to the peer. -/
def nextFor (n : RaftNode) (peer : NodeId) : ℕ :=
  match n.role with
  | .leader nextIndex _ => (nextIndex peer).getD (n.log.lastIndex + 1)
  | _ => n.log.lastIndex + 1

theorem appendFor_eq (n : RaftNode) (peer : NodeId) :
    n.appendFor peer = .send peer (.appendEntries
      { term := n.currentTerm
        leaderId := n.id
        prevLogIndex := n.nextFor peer - 1
        prevLogTerm := (n.log.termAt (n.nextFor peer - 1)).getD 0
        entries := n.log.entriesFrom (n.nextFor peer)
        leaderCommit := n.commitIndex }) := rfl

end RaftNode

/-! ## Logs that match -/

/-- Two logs with entries of one term at an index agree up to that index. -/
def LogMatching (l l' : RaftLog) : Prop :=
  ∀ i e e', l.get i = some e → l'.get i = some e' → e.term = e'.term → ∀ j ≤ i, l.get j = l'.get j

section Matching

variable {l l' : RaftLog} {prev : ℕ}

theorem RaftLog.take_eq_of_get {i : ℕ} (h : ∀ j ≤ i, l.get j = l'.get j) :
    l.entries.take i = l'.entries.take i := by
  refine List.ext_getElem? fun k => ?_
  rcases Nat.lt_or_ge k i with hk | hk
  · have hget := h (k + 1) hk
    rw [RaftLog.get_succ, RaftLog.get_succ] at hget
    rw [List.getElem?_take_of_lt hk, List.getElem?_take_of_lt hk, hget]
  · rw [List.getElem?_take_eq_none hk, List.getElem?_take_eq_none hk]

theorem LogMatching.take_eq (h : LogMatching l l') {i t : ℕ} (hl : l.termAt i = some t)
    (hl' : l'.termAt i = some t) : l.entries.take i = l'.entries.take i := by
  cases i with
  | zero => rfl
  | succ k =>
    rw [RaftLog.termAt_succ, Option.map_eq_some_iff] at hl hl'
    obtain ⟨e, he, rfl⟩ := hl
    obtain ⟨e', he', ht⟩ := hl'
    exact RaftLog.take_eq_of_get (h (k + 1) e e' (by simpa using he) (by simpa using he') ht.symm)

/-- A log that matches another one up to a position, and has the terms of the entries that follow
there, has those entries. -/
theorem LogMatching.take_of_agrees (h : LogMatching l l')
    (hprev : l.entries.take prev = l'.entries.take prev) {j : ℕ}
    (hj : j ≤ (l'.entries.drop prev).length) (hag : Agrees l prev (l'.entries.drop prev) j) :
    l.entries.take (prev + j) = l'.entries.take (prev + j) := by
  cases j with
  | zero => exact hprev
  | succ k =>
    have hk : prev + k < l'.entries.length := by rw [List.length_drop] at hj; omega
    have hentry : (l'.entries.drop prev)[k]? = some l'.entries[prev + k] := by
      rw [List.getElem?_drop, List.getElem?_eq_getElem hk]
    refine h.take_eq (hag k _ (Nat.lt_succ_self k) hentry) ?_
    rw [← Nat.add_assoc, RaftLog.termAt_succ, List.getElem?_eq_getElem hk]
    rfl

/-- What the loop leaves when it merges the end of a log that the own log matches: that log, and
perhaps entries behind it. -/
theorem LogMatching.merge (h : LogMatching l l')
    (hprev : l.entries.take prev = l'.entries.take prev) {res : RaftLog × List Effect}
    (hmerge : Merge l prev (l'.entries.drop prev) res) : l'.entries <+: res.1.entries := by
  rcases hmerge.entries_cases with ⟨hag, rfl⟩ | ⟨j, hj, _, hag, _, hentries⟩
  · have htake := h.take_of_agrees hprev le_rfl hag
    rw [List.length_drop] at htake
    rw [← List.take_of_length_le (l := l'.entries) (i := prev + (l'.entries.length - prev))
      (by omega), ← htake]
    exact List.take_prefix _ _
  · rw [hentries, h.take_of_agrees hprev hj.le hag, List.drop_drop, List.take_append_drop]

end Matching

/-! ## Overtaken messages -/

namespace RaftNode

section Late

variable {a b n : RaftNode} {src peer : NodeId} {req : AppendEntriesReq}

theorem onAppendEntries_term (h : n.currentTerm ≤ req.term) :
    (n.onAppendEntries src req).1.currentTerm = req.term := by
  obtain ⟨m, hterm, -, -, hnode, -⟩ := exists_level src h
  rw [hnode]
  by_cases hprev : m.log.termAt req.prevLogIndex = some req.prevLogTerm
  · rw [onAppendEntries_of_match hterm hprev, learned_term]
    exact hterm.symm
  · rw [onAppendEntries_of_mismatch hterm hprev]
    exact hterm.symm

/-- A follower that accepts a message of a leader whose log it matches has the whole log of the
leader afterwards. -/
theorem prefix_of_accepts (hb : b.appendFor peer = .send peer (.appendEntries req))
    (hcoherent : Coherent b.log.entries) (hpos : 1 ≤ b.nextFor peer)
    (hnext : b.nextFor peer ≤ b.log.lastIndex + 1) (hmatch : LogMatching n.log b.log)
    (h : n.Accepts req) : b.log.entries <+: (n.onAppendEntries src req).1.log.entries := by
  rw [appendFor_eq] at hb
  obtain ⟨prev, hprev⟩ : ∃ prev, b.nextFor peer = prev + 1 := ⟨b.nextFor peer - 1, by omega⟩
  rw [hprev, Nat.add_sub_cancel, RaftLog.entriesFrom_succ] at hb
  cases hb
  -- the leader has a term at the index that it quotes
  have hle : prev ≤ b.log.lastIndex := by omega
  obtain ⟨t, ht⟩ : ∃ t, b.log.termAt prev = some t := by
    cases prev with
    | zero => exact ⟨0, rfl⟩
    | succ k =>
      exact ⟨b.log.entries[k].term, by rw [RaftLog.termAt_succ, List.getElem?_eq_getElem hle]; rfl⟩
  have hheld : n.log.termAt prev = some t := by
    have := h.2
    rwa [ht] at this
  have hc : ContiguousFrom prev (b.log.entries.drop prev) := by
    have := (contiguousFrom_zero.mpr hcoherent).drop prev
    rwa [Nat.zero_add] at this
  rw [(onAppendEntries_of_accepts h).1]
  exact hmatch.merge (hmatch.take_eq hheld ht)
    (mergeEntries_spec hc (RaftLog.le_lastIndex_of_termAt hheld))

/-- What a node has sent from a log that another log continues is present there. -/
theorem agrees_of_continues (ha : a.appendFor peer = .send peer (.appendEntries req)) {l : RaftLog}
    (hpre : a.log.entries <+: l.entries) : Agrees l req.prevLogIndex req.entries req.entries.length := by
  rw [appendFor_eq] at ha
  cases ha
  intro i x _ hx
  obtain ⟨s, hs⟩ := hpre
  cases hnext : a.nextFor peer with
  | zero =>
    rw [hnext] at hx
    cases hx
  | succ prev =>
    rw [hnext, RaftLog.entriesFrom_succ, List.getElem?_drop] at hx
    have hlt := (List.getElem?_eq_some_iff.mp hx).1
    rw [Nat.add_sub_cancel, RaftLog.termAt_succ, ← hs, List.getElem?_append_left hlt, hx]
    rfl

theorem contiguous_of_appendFor (ha : a.appendFor peer = .send peer (.appendEntries req))
    (hcoherent : Coherent a.log.entries) : ContiguousFrom req.prevLogIndex req.entries := by
  rw [appendFor_eq] at ha
  cases ha
  cases hnext : a.nextFor peer with
  | zero => exact fun k e hk => by cases hk
  | succ prev =>
    have := (contiguousFrom_zero.mpr hcoherent).drop prev
    rw [Nat.zero_add, ← RaftLog.entriesFrom_succ] at this
    exact this

/-- A node whose log continues that of the sender has nothing to store. -/
theorem late_append (ha : a.appendFor peer = .send peer (.appendEntries req))
    (hcoherent : Coherent a.log.entries) (hterm : req.term ≤ n.currentTerm)
    (hpre : a.log.entries <+: n.log.entries) :
    (n.onAppendEntries src req).1.log = n.log ∧
      ∀ e ∈ (n.onAppendEntries src req).2, e.isStore = false := by
  rcases Nat.lt_or_eq_of_le hterm with hlt | heq
  · rw [onAppendEntries_of_stale hlt]
    exact ⟨rfl, fun e he => by rw [List.mem_singleton.mp he]; rfl⟩
  by_cases hprev : n.log.termAt req.prevLogIndex = some req.prevLogTerm
  · have hmerge := mergeEntries_of_agrees (contiguous_of_appendFor ha hcoherent)
      (RaftLog.le_lastIndex_of_termAt hprev) (agrees_of_continues ha hpre)
    rw [onAppendEntries_of_match heq hprev, learned_log, hmerge]
    refine ⟨congrArg Prod.fst hmerge, fun e he => ?_⟩
    rcases List.mem_append.mp he with he | he
    · exact Effect.not_isStore_of_isApply (learned_isApply he)
    · rw [List.mem_singleton.mp he]
      rfl
  · rw [onAppendEntries_of_mismatch heq hprev]
    exact ⟨rfl, fun e he => by rw [List.mem_singleton.mp he]; rfl⟩

end Late

/-- The messages that are answered with success are those that are accepted. -/
theorem accepts_iff_acked (n : RaftNode) (src : NodeId) (req : AppendEntriesReq) :
    n.Accepts req ↔ ∃ dst t m, .send dst (.appendEntriesResp ⟨t, true, m⟩) ∈
      (n.onAppendEntries src req).2 := by
  have hreject : ∀ (m : RaftNode) dst t i,
      Effect.send dst (.appendEntriesResp ⟨t, true, i⟩) ∉ [m.rejectAppend src] := by
    intro m dst t i hmem
    cases List.mem_singleton.mp hmem
  have hlevel : ∀ m : RaftNode, req.term = m.currentTerm →
      (m.log.termAt req.prevLogIndex = some req.prevLogTerm ↔
        ∃ dst t i, .send dst (.appendEntriesResp ⟨t, true, i⟩) ∈
          (m.onAppendEntries src req).2) := by
    intro m hterm
    by_cases hprev : m.log.termAt req.prevLogIndex = some req.prevLogTerm
    · rw [onAppendEntries_of_match hterm hprev]
      refine iff_of_true hprev ⟨src, _, _, List.mem_append_right _ List.mem_cons_self⟩
    · rw [onAppendEntries_of_mismatch hterm hprev]
      exact iff_of_false hprev fun ⟨dst, t, i, hmem⟩ => hreject m dst t i hmem
  rcases Nat.lt_trichotomy n.currentTerm req.term with hlt | heq | hgt
  · rw [onAppendEntries_of_higher hlt]
    simp only [List.mem_cons, reduceCtorEq, false_or]
    rw [← hlevel (n.adopt req.term) rfl]
    exact and_iff_right hlt.le
  · rw [← hlevel n heq.symm]
    exact and_iff_right heq.le
  · rw [onAppendEntries_of_stale hgt]
    exact iff_of_false (fun h => absurd h.1 (Nat.not_le.mpr hgt))
      fun ⟨dst, t, i, hmem⟩ => hreject n dst t i hmem

/-- **Duplicate and late messages are harmless.** A second copy is answered as the first, and does
nothing else. And once a message of a leader has been accepted, an older message of its term finds
everything there: it neither truncates nor changes the log. -/
theorem replayed_append_harmless :
    (∀ (n : RaftNode) (src : NodeId) (req : AppendEntriesReq),
      ContiguousFrom req.prevLogIndex req.entries →
        ∃ reply, (n.onAppendEntries src req).2.filter Effect.isSend = [reply] ∧
          (n.onAppendEntries src req).1.onAppendEntries src req =
            ((n.onAppendEntries src req).1, [reply])) ∧
    ∀ (a b n : RaftNode) (src peer : NodeId) (older newer : AppendEntriesReq),
      a.log.entries <+: b.log.entries → Coherent b.log.entries →
      a.appendFor peer = .send peer (.appendEntries older) →
      b.appendFor peer = .send peer (.appendEntries newer) → older.term = newer.term →
      1 ≤ b.nextFor peer → b.nextFor peer ≤ b.log.lastIndex + 1 →
      LogMatching n.log b.log → n.Accepts newer →
        let m := (n.onAppendEntries src newer).1
        (m.onAppendEntries src older).1.log = m.log ∧
          ∀ e ∈ (m.onAppendEntries src older).2, e.isStore = false := by
  refine ⟨fun n src req hc => duplicate_append n src hc, ?_⟩
  intro a b n src peer older newer hab hcoherent ha hb hterm hpos hnext hmatch hacc m
  have hm : m.currentTerm = newer.term := onAppendEntries_term hacc.1
  refine late_append ha (hcoherent.anti hab) (hterm.le.trans hm.ge) ?_
  exact hab.trans (prefix_of_accepts hb hcoherent hpos hnext hmatch hacc)

/-- A leader whose second message overtakes the first one. -/
def overtaken (entries : List LogEntry) : RaftNode :=
  { RaftNode.new 1 [2, 3] 10 with
    role := .leader (fun _ => some 1) (fun _ => some 0)
    currentTerm := 1
    log := ⟨entries⟩ }

theorem replayed_append_harmless_two :
    (((RaftNode.new 2 [1, 3] 10).onAppendEntries 1
      ⟨1, 1, 0, 0, [⟨1, 1, [7]⟩, ⟨1, 2, [8]⟩], 0⟩).1.onAppendEntries 1
        ⟨1, 1, 0, 0, [⟨1, 1, [7]⟩], 0⟩).1.log.lastIndex = 2 := by
  have h := replayed_append_harmless.2 (overtaken [⟨1, 1, [7]⟩])
    (overtaken [⟨1, 1, [7]⟩, ⟨1, 2, [8]⟩]) (RaftNode.new 2 [1, 3] 10) 1 2
    ⟨1, 1, 0, 0, [⟨1, 1, [7]⟩], 0⟩ ⟨1, 1, 0, 0, [⟨1, 1, [7]⟩, ⟨1, 2, [8]⟩], 0⟩
    (List.prefix_append [_] [_]) (by decide) rfl rfl rfl (by decide) (by decide)
    (fun i e e' he _ _ => by cases i <;> cases he) (by decide)
  rw [h.1]
  decide

/-! ## The commit index -/

section Commit

variable {n : RaftNode} {src : NodeId} {req : AppendEntriesReq}

theorem mem_applyLoop {log : RaftLog} {e : LogEntry} :
    ∀ {rounds applied : ℕ}, .apply e ∈ applyLoop log rounds applied →
      ∃ i, i ≤ applied + rounds ∧ 0 < rounds ∧ log.get i = some e := by
  intro rounds
  induction rounds with
  | zero => intro applied h; cases h
  | succ rounds ih =>
    intro applied h
    rw [applyLoop, List.mem_append] at h
    rcases h with h | h
    · rw [Option.mem_toList, Option.map_eq_some_iff] at h
      obtain ⟨x, hx, hxe⟩ := h
      cases hxe
      exact ⟨applied + 1, by omega, Nat.succ_pos _, hx⟩
    · obtain ⟨i, hi, _, hget⟩ := ih h
      exact ⟨i, by omega, Nat.succ_pos _, hget⟩

/-- What a follower applies lies at a position up to its commit index. -/
theorem mem_learned {c : ℕ} {e : LogEntry} (h : .apply e ∈ (n.learned c).2) :
    ∃ i ≤ (n.learned c).1.commitIndex, n.log.get i = some e := by
  unfold learned at h ⊢
  split at h
  · rename_i hlt
    rw [if_pos hlt]
    obtain ⟨i, hi, hrounds, hget⟩ := mem_applyLoop h
    refine ⟨i, hi.trans ?_, hget⟩
    show n.lastApplied + (min c n.log.lastIndex - n.lastApplied) ≤ min c n.log.lastIndex
    have : 0 < min c n.log.lastIndex - n.lastApplied := hrounds
    omega
  · cases h

/-- What a message makes a node apply lies at a position up to its commit index. -/
theorem mem_onAppendEntries {e : LogEntry} (h : .apply e ∈ (n.onAppendEntries src req).2) :
    ∃ i ≤ (n.onAppendEntries src req).1.commitIndex,
      (n.onAppendEntries src req).1.log.get i = some e := by
  by_cases hacc : n.Accepts req
  · obtain ⟨m, hterm, hlog, -, hnode, heffects⟩ := exists_level src hacc.1
    have he : .apply e ∈ (m.onAppendEntries src req).2 := by
      rcases heffects with heq | heq <;> rw [heq] at h
      · exact h
      · exact (List.mem_cons.mp h).resolve_left (by simp)
    rw [hnode]
    rw [onAppendEntries_of_match hterm (hlog ▸ hacc.2)] at he ⊢
    rcases List.mem_append.mp he with he | he
    · rcases List.mem_append.mp he with he | he
      · cases mergeEntries_isStore he
      · rw [learned_log]
        exact mem_learned he
    · cases List.mem_singleton.mp he
  · rcases (onAppendEntries_of_refuses hacc).2.2 _ h with h | h <;> cases h

end Commit

end RaftNode

/-- The last index that the message shows: its entries, behind the one they build on. -/
def AppendEntriesReq.verified (req : AppendEntriesReq) : ℕ := req.prevLogIndex + req.entries.length

namespace RaftNode

/-- **What a message commits.** The commit index stays inside what the message has shown, or was
committed before, and only entries there are applied, unless the message is accepted with all its
entries present already, its commit index lies further and the log goes further too: then the node
commits its own entries behind those of the message. -/
theorem commit_within_verified_iff (n : RaftNode) (src : NodeId) {req : AppendEntriesReq}
    (hc : ContiguousFrom req.prevLogIndex req.entries) :
    ((n.onAppendEntries src req).1.commitIndex ≤ max n.commitIndex req.verified ∧
      ∀ e, .apply e ∈ (n.onAppendEntries src req).2 → ∃ i ≤ max n.commitIndex req.verified,
        (n.onAppendEntries src req).1.log.get i = some e) ↔
      ¬ (n.Accepts req ∧ Agrees n.log req.prevLogIndex req.entries req.entries.length ∧
        max n.commitIndex req.verified < req.leaderCommit ∧
        max n.commitIndex req.verified < n.log.lastIndex) := by
  have happlies : (n.onAppendEntries src req).1.commitIndex ≤ max n.commitIndex req.verified →
      ∀ e, .apply e ∈ (n.onAppendEntries src req).2 → ∃ i ≤ max n.commitIndex req.verified,
        (n.onAppendEntries src req).1.log.get i = some e := by
    intro hle e he
    obtain ⟨i, hi, hget⟩ := mem_onAppendEntries he
    exact ⟨i, hi.trans hle, hget⟩
  rw [and_iff_left_of_imp happlies]
  by_cases hacc : n.Accepts req
  · rw [(onAppendEntries_of_accepts hacc).2]
    have hmerge := mergeEntries_spec hc (RaftLog.le_lastIndex_of_termAt hacc.2)
    unfold AppendEntriesReq.verified
    rcases hmerge.lastIndex_eq with ⟨hall, hlast⟩ | ⟨hnot, hlast⟩
    · -- nothing was appended: the log ends where it ended before
      rw [hlast]
      simp only [hacc, hall, true_and]
      split
      · omega
      · omega
    · rw [hlast]
      simp only [hnot, false_and, and_false, not_false_eq_true, iff_true]
      split
      · omega
      · omega
  · rw [(onAppendEntries_of_refuses hacc).2.1]
    exact iff_of_true (le_max_left _ _) fun h => hacc h.1

/-- A message whose entries the log lacks. -/
theorem commit_within_verified_new :
    ((RaftNode.new 2 [1, 3] 10).onAppendEntries 1
      ⟨1, 1, 0, 0, [⟨1, 1, [7]⟩], 5⟩).1.commitIndex ≤ 1 :=
  ((@commit_within_verified_iff (RaftNode.new 2 [1, 3] 10) 1
    ⟨1, 1, 0, 0, [⟨1, 1, [7]⟩], 5⟩ (by decide)).mpr (by
      rintro ⟨_, hall, _⟩
      have := hall 0 ⟨1, 1, [7]⟩ (by decide) rfl
      cases this)).1

/-- A heartbeat of a later leader, with a commit index, to a follower with an entry of its own. -/
theorem heartbeat_commits_unverified :
    ∃ (n : RaftNode) (req : AppendEntriesReq), ContiguousFrom req.prevLogIndex req.entries ∧
      max n.commitIndex (req.prevLogIndex + req.entries.length) <
        (n.onAppendEntries 1 req).1.commitIndex ∧
      .apply ⟨1, 1, [7]⟩ ∈ (n.onAppendEntries 1 req).2 :=
  ⟨{ RaftNode.new 2 [1, 3] 10 with currentTerm := 1, log := ⟨[⟨1, 1, [7]⟩]⟩ },
    ⟨2, 1, 0, 0, [], 1⟩, by decide, by decide, by decide⟩

end RaftNode

/-- In a cluster no message asks for more: what it commits is among what it shows. -/
theorem commit_within_verified_of_reachable {cfg : Config} {w : Cluster}
    (h : Cluster.Reachable cfg w) {src dst : NodeId} {req : AppendEntriesReq}
    (hq : ⟨src, dst, .appendEntries req⟩ ∈ w.network) (n : RaftNode) :
    (n.onAppendEntries src req).1.commitIndex ≤ max n.commitIndex req.verified := by
  obtain ⟨g, hinv⟩ := exists_inv h
  obtain ⟨_, _, _, _, _, _, _, hex⟩ := hinv.network _ hq
  have hcommit : req.leaderCommit ≤ req.verified := hex.commit_le
  by_cases hacc : n.Accepts req
  · rw [(RaftNode.onAppendEntries_of_accepts hacc).2]
    split
    · omega
    · exact le_max_left _ _
  · rw [(RaftNode.onAppendEntries_of_refuses hacc).2.1]
    exact le_max_left _ _

end MyK8s.Raft
