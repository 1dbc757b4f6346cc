import MyK8s.Raft.Node

/-!
# Durability

A disk mirrors a node when recovery from it would find the node's term, vote and log. Executing
the batch of a step on a disk that mirrored the node before makes it mirror the node after
(`step_mirrors`), and since every batch writes first, it does so already at each send and each
apply (`durability`).

The log part rests on the shape of what a step appends: the entries stay numbered by their
positions (`step_log`), so the keys on disk are the positions in memory.
-/

namespace MyK8s.Raft

/-- The disk after the effects, run on the node `n`. -/
def diskAfter (n : RaftNode) (disk : RaftStorage) (effects : List Effect) : RaftStorage :=
  (execute RaftStorage.api n disk effects).1

/-- Recovery from the disk would find the node's term, vote and log. -/
structure Mirrors (disk : RaftStorage) (n : RaftNode) : Prop where
  hardState : disk.loadHardState = n.hardState
  log : disk.loadLog = n.log.entries

/-- The entries of an AppendEntries message continue the position it names. -/
def Event.Contiguous : Event → Prop
  | .message _ (.appendEntries req) => ContiguousFrom req.prevLogIndex req.entries
  | _ => True

/-- Effects that write to the log on disk. -/
def Effect.isLogStore : Effect → Bool
  | .persistTruncate _ => true
  | .persistEntries _ => true
  | _ => false

/-! ## The disk under single effects -/

section Disk

variable {n : RaftNode} {disk : RaftStorage}

@[simp] theorem diskAfter_nil : diskAfter n disk [] = disk := rfl

theorem diskAfter_append (es fs : List Effect) :
    diskAfter n disk (es ++ fs) = diskAfter n (diskAfter n disk es) fs := by
  unfold diskAfter
  rw [execute_append]

theorem diskAfter_cons (e : Effect) (es : List Effect) :
    diskAfter n disk (e :: es) = diskAfter n (diskAfter n disk [e]) es := rfl

theorem diskAfter_of_idle {es : List Effect} (h : ∀ e ∈ es, e.isStore = false) :
    diskAfter n disk es = disk := execute_idle _ n h disk

@[simp] theorem loadHardState_saveHardState (hs : HardState) :
    (disk.saveHardState hs).loadHardState = hs := rfl

@[simp] theorem loadLog_saveHardState (hs : HardState) :
    (disk.saveHardState hs).loadLog = disk.loadLog := rfl

theorem loadHardState_appendEntries (es : List LogEntry) :
    (disk.appendEntries es).loadHardState = disk.loadHardState := by
  unfold RaftStorage.loadHardState RaftStorage.appendEntries
  rw [RaftStorage.hardState_run_log]
  intro hs h
  obtain ⟨e, _, he⟩ := List.mem_map.mp h
  cases he

theorem loadHardState_truncateFrom (start : ℕ) :
    (disk.truncateFrom start).loadHardState = disk.loadHardState := by
  unfold RaftStorage.loadHardState RaftStorage.truncateFrom
  rw [RaftStorage.hardState_run_log]
  intro hs h
  obtain ⟨e, _, he⟩ := List.mem_map.mp h
  cases he

theorem loadLog_truncateFrom {es : List LogEntry} (h : disk.loadLog = es) (hc : Coherent es)
    (k : ℕ) : (disk.truncateFrom (k + 1)).loadLog = es.take k := by
  have hall : (disk.truncateFromOps (k + 1)).take (es.length + 1) =
      disk.truncateFromOps (k + 1) := by
    refine List.take_of_length_le ?_
    rw [RaftStorage.truncateFromOps, List.length_map, RaftStorage.doomed_eq h hc,
      List.length_range']
    omega
  have hcut := RaftStorage.loadLog_truncate h hc (k + 1) (es.length + 1)
  rw [hall, show max (k + 1) 1 - 1 = k by omega, List.drop_eq_nil_of_le (by omega),
    List.append_nil] at hcut
  exact hcut

/-- The hard state on disk is the node's once the batch has persisted it. -/
theorem loadHardState_diskAfter (es : List Effect) :
    ∀ disk : RaftStorage, (diskAfter n disk es).loadHardState =
      if .persist ∈ es then n.hardState else disk.loadHardState := by
  induction es with
  | nil => intro disk; rfl
  | cons e es ih =>
    intro disk
    rw [diskAfter_cons, ih]
    by_cases hes : Effect.persist ∈ es
    · rw [if_pos hes, if_pos (List.mem_cons_of_mem _ hes)]
    · rw [if_neg hes]
      cases e with
      | persist => rw [if_pos List.mem_cons_self]; rfl
      | persistEntries entries =>
        rw [if_neg (by simp [hes])]
        exact loadHardState_appendEntries entries
      | persistTruncate start =>
        rw [if_neg (by simp [hes])]
        exact loadHardState_truncateFrom start
      | _ => rw [if_neg (by simp [hes])]; rfl

/-- Effects other than the two log writes leave the log on disk alone. -/
theorem loadLog_diskAfter {es : List Effect} (h : ∀ e ∈ es, e.isLogStore = false) :
    ∀ disk : RaftStorage, (diskAfter n disk es).loadLog = disk.loadLog := by
  induction es with
  | nil => intro disk; rfl
  | cons e es ih =>
    intro disk
    rw [diskAfter_cons, ih fun x hx => h x (List.mem_cons_of_mem _ hx)]
    have he := h e List.mem_cons_self
    cases e with
    | persistTruncate start => cases he
    | persistEntries entries => cases he
    | _ => rfl

end Disk

/-! ## What a step stores -/

namespace RaftNode

theorem tryCommit_durable (n : RaftNode) :
    n.tryCommit.1.hardState = n.hardState ∧ n.tryCommit.1.log = n.log := by
  obtain ⟨c, a, heq⟩ := n.tryCommit_frame
  rw [heq]
  exact ⟨rfl, rfl⟩

theorem tryWin_durable (n : RaftNode) :
    n.tryWin.1.hardState = n.hardState ∧ n.tryWin.1.log = n.log := by
  unfold tryWin
  split
  · split
    · exact ⟨rfl, rfl⟩
    · exact ⟨rfl, rfl⟩
  · exact ⟨rfl, rfl⟩

theorem learned_durable (n : RaftNode) (c : ℕ) :
    (n.learned c).1.hardState = n.hardState ∧ (n.learned c).1.log = n.log := by
  unfold learned
  split
  · exact ⟨rfl, rfl⟩
  · exact ⟨rfl, rfl⟩

theorem onRequestVoteResp_durable {n : RaftNode} {src : NodeId} {resp : RequestVoteResp}
    (h : resp.term ≤ n.currentTerm) :
    (n.onRequestVoteResp src resp).1.hardState = n.hardState ∧
      (n.onRequestVoteResp src resp).1.log = n.log := by
  rcases onRequestVoteResp_cases src h with heq | ⟨votes, _, _, _, heq⟩
  · rw [heq]
    exact ⟨rfl, rfl⟩
  · rw [heq]
    exact tryWin_durable _

theorem onAppendEntriesResp_durable {n : RaftNode} {src : NodeId} {resp : AppendEntriesResp}
    (h : resp.term ≤ n.currentTerm) :
    (n.onAppendEntriesResp src resp).1.hardState = n.hardState ∧
      (n.onAppendEntriesResp src resp).1.log = n.log := by
  rcases onAppendEntriesResp_cases src h with
    heq | ⟨_, _, _, _, ⟨_, heq⟩ | ⟨_, heq⟩⟩
  · rw [heq]
    exact ⟨rfl, rfl⟩
  · rw [heq]
    exact tryCommit_durable _
  · rw [heq]
    exact ⟨rfl, rfl⟩

theorem onAppendEntries_hardState {n : RaftNode} {src : NodeId} {req : AppendEntriesReq}
    (h : req.term ≤ n.currentTerm) :
    (n.onAppendEntries src req).1.hardState = n.hardState := by
  rcases Nat.lt_or_eq_of_le h with hlt | heq
  · rw [onAppendEntries_of_stale hlt]
  · by_cases hp : n.log.termAt req.prevLogIndex = some req.prevLogTerm
    · rw [onAppendEntries_of_match heq hp]
      exact (learned_durable _ _).1
    · rw [onAppendEntries_of_mismatch heq hp]
      rfl

/-- A message of a term that has been reached changes the hard state only with a `Persist`. -/
theorem onMessage_hardState {n : RaftNode} {src : NodeId} {msg : Message}
    (h : msg.term ≤ n.currentTerm) (hp : .persist ∉ (n.step (.message src msg)).2) :
    (n.step (.message src msg)).1.hardState = n.hardState := by
  cases msg with
  | requestVote req =>
    rw [step, onRequestVote_eq h] at hp ⊢
    split
    · rename_i hg
      rw [if_pos hg] at hp
      exact absurd List.mem_cons_self hp
    · rfl
  | requestVoteResp resp => exact (onRequestVoteResp_durable h).1
  | appendEntries req => exact onAppendEntries_hardState h
  | appendEntriesResp resp => exact (onAppendEntriesResp_durable h).1

/-- A step that does not persist the hard state has not changed it. -/
theorem hardState_of_no_persist {n : RaftNode} {ev : Event} (h : .persist ∉ (n.step ev).2) :
    (n.step ev).1.hardState = n.hardState := by
  cases ev with
  | tick =>
    rw [step] at h ⊢
    rcases n.onTick_cases with ⟨t, heq⟩ | ⟨t, _, heq⟩ | ⟨_, heq⟩
    · rw [heq]
      rfl
    · rw [heq]
      rfl
    · -- an election persists the new term and vote
      rw [heq, startElection_eq] at h
      split at h
      · exact absurd List.mem_cons_self h
      · exact absurd List.mem_cons_self h
  | propose cmd =>
    cases hrole : n.role with
    | leader nextIndex matchIndex =>
      rw [step, onPropose_of_leader hrole]
      exact (tryCommit_durable _).1
    | _ => rw [step, onPropose_of_not_leader (by rw [hrole]; rfl)]
  | message src msg =>
    by_cases hle : msg.term ≤ n.currentTerm
    · exact onMessage_hardState hle h
    · rw [step_higher (Nat.not_le.mp hle)] at h
      exact absurd List.mem_cons_self h

/-- Messages other than AppendEntries, at a term that has been reached, leave the log alone. -/
theorem onMessage_log {n : RaftNode} (src : NodeId) {msg : Message} (h : msg.term ≤ n.currentTerm)
    (hae : ∀ req, msg ≠ .appendEntries req) :
    (n.step (.message src msg)).1.log = n.log ∧
      ∀ e ∈ (n.step (.message src msg)).2, e.isLogStore = false := by
  have hidle : ∀ {e : Effect}, e.isStore = false → e.isLogStore = false := by
    intro e he
    cases e with
    | persistTruncate start => cases he
    | persistEntries entries => cases he
    | _ => rfl
  cases msg with
  | requestVote req =>
    rw [step, onRequestVote_eq h]
    split
    · refine ⟨rfl, fun e he => ?_⟩
      rcases List.mem_cons.mp he with rfl | he
      · rfl
      · rw [List.mem_singleton.mp he]
        rfl
    · refine ⟨rfl, fun e he => ?_⟩
      rw [List.mem_singleton.mp he]
      rfl
  | requestVoteResp resp =>
    exact ⟨(onRequestVoteResp_durable h).2, fun e he => hidle (onRequestVoteResp_idle h he)⟩
  | appendEntries req => exact absurd rfl (hae req)
  | appendEntriesResp resp =>
    exact ⟨(onAppendEntriesResp_durable h).2, fun e he => hidle (onAppendEntriesResp_idle h he)⟩

theorem onTick_log (n : RaftNode) :
    n.onTick.1.log = n.log ∧ ∀ e ∈ n.onTick.2, e.isLogStore = false := by
  rcases n.onTick_cases with ⟨t, heq⟩ | ⟨t, _, heq⟩ | ⟨_, heq⟩
  · rw [heq]
    exact ⟨rfl, fun e he => by cases he⟩
  · rw [heq]
    refine ⟨rfl, fun e he => ?_⟩
    obtain ⟨p, _, rfl⟩ := List.mem_map.mp he
    rfl
  · rw [heq, startElection_eq]
    split
    · exact ⟨rfl, fun e he => by rw [List.mem_singleton.mp he]; rfl⟩
    · refine ⟨rfl, fun e he => ?_⟩
      rcases List.mem_cons.mp he with rfl | he
      · rfl
      · obtain ⟨p, _, rfl⟩ := List.mem_map.mp he
        rfl

end RaftNode

/-! ## The merged log, in memory and on disk -/

theorem Merge.durable {log : RaftLog} {prev : ℕ} {es : List LogEntry}
    {res : RaftLog × List Effect} (h : Merge log prev es res) (hc : Coherent log.entries)
    (hes : ContiguousFrom prev es) :
    Coherent res.1.entries ∧ ∀ (n : RaftNode) (disk : RaftStorage), disk.loadLog = log.entries →
      (diskAfter n disk res.2).loadLog = res.1.entries := by
  cases h with
  | present h => exact ⟨hc, fun n disk hd => hd⟩
  | extended j hj h hend =>
    have hdrop : ContiguousFrom log.entries.length (es.drop j) := by
      have := hes.drop j
      rwa [← hend] at this
    exact ⟨coherent_append.mpr ⟨hc, hdrop⟩,
      fun n disk hd => RaftStorage.loadLog_append hd hc hdrop⟩
  | replaced j hj h t ht hne =>
    have hlen : (log.entries.take (prev + j)).length = prev + j := by
      refine List.length_take_of_le ?_
      have := RaftLog.le_lastIndex_of_termAt ht
      unfold RaftLog.lastIndex at this
      omega
    have hdrop : ContiguousFrom (log.entries.take (prev + j)).length (es.drop j) := by
      rw [hlen]
      exact hes.drop j
    refine ⟨coherent_append.mpr ⟨hc.take _, hdrop⟩, fun n disk hd => ?_⟩
    have hcut : (disk.truncateFrom (prev + j + 1)).loadLog = log.entries.take (prev + j) :=
      loadLog_truncateFrom hd hc (prev + j)
    exact RaftStorage.loadLog_append hcut (hc.take _) hdrop

namespace RaftNode

/-- An AppendEntries message of a term that has been reached leaves a log that its batch also
leaves on disk. -/
theorem onAppendEntries_log {n : RaftNode} {src : NodeId} {req : AppendEntriesReq}
    (h : req.term ≤ n.currentTerm) (hc : Coherent n.log.entries)
    (hes : ContiguousFrom req.prevLogIndex req.entries) :
    Coherent (n.onAppendEntries src req).1.log.entries ∧
      ∀ (m : RaftNode) (disk : RaftStorage), disk.loadLog = n.log.entries →
        (diskAfter m disk (n.onAppendEntries src req).2).loadLog =
          (n.onAppendEntries src req).1.log.entries := by
  have hreject : ∀ (k m : RaftNode) (disk : RaftStorage),
      (diskAfter m disk [k.rejectAppend src]).loadLog = disk.loadLog := fun _ _ _ => rfl
  rcases Nat.lt_or_eq_of_le h with hlt | heq
  · rw [onAppendEntries_of_stale hlt]
    exact ⟨hc, fun m disk hd => (hreject n m disk).trans hd⟩
  · by_cases hp : n.log.termAt req.prevLogIndex = some req.prevLogTerm
    · rw [onAppendEntries_of_match heq hp, (learned_durable _ _).2]
      obtain ⟨hcoh, hdisk⟩ := (mergeEntries_spec hes (RaftLog.le_lastIndex_of_termAt hp)).durable
        hc hes
      refine ⟨hcoh, fun m disk hd => ?_⟩
      rw [List.append_assoc, diskAfter_append, diskAfter_of_idle]
      · exact hdisk m disk hd
      · intro e he
        rcases List.mem_append.mp he with he | he
        · exact Effect.not_isStore_of_isApply (learned_isApply he)
        · rw [List.mem_singleton.mp he]
          rfl
    · rw [onAppendEntries_of_mismatch heq hp]
      exact ⟨hc, fun m disk hd => (hreject _ m disk).trans hd⟩

theorem onMessage_mirrors_log {n : RaftNode} (src : NodeId) {msg : Message}
    (h : msg.term ≤ n.currentTerm) (hc : Coherent n.log.entries)
    (hev : (Event.message src msg).Contiguous) :
    Coherent (n.step (.message src msg)).1.log.entries ∧
      ∀ (m : RaftNode) (disk : RaftStorage), disk.loadLog = n.log.entries →
        (diskAfter m disk (n.step (.message src msg)).2).loadLog =
          (n.step (.message src msg)).1.log.entries := by
  by_cases hae : ∃ req, msg = .appendEntries req
  · obtain ⟨req, rfl⟩ := hae
    exact onAppendEntries_log h hc hev
  · obtain ⟨hlog, hbatch⟩ := onMessage_log src h fun req hreq => hae ⟨req, hreq⟩
    rw [hlog]
    exact ⟨hc, fun m disk hd => (loadLog_diskAfter hbatch disk).trans hd⟩

/-- **Positions stay indices**, and the batch of a step leaves on disk the log it leaves in
memory. -/
theorem step_log {n : RaftNode} {ev : Event} (hc : Coherent n.log.entries)
    (hev : ev.Contiguous) :
    Coherent (n.step ev).1.log.entries ∧
      ∀ (m : RaftNode) (disk : RaftStorage), disk.loadLog = n.log.entries →
        (diskAfter m disk (n.step ev).2).loadLog = (n.step ev).1.log.entries := by
  cases ev with
  | tick =>
    obtain ⟨hlog, hbatch⟩ := n.onTick_log
    rw [step, hlog]
    exact ⟨hc, fun m disk hd => (loadLog_diskAfter hbatch disk).trans hd⟩
  | propose cmd =>
    cases hrole : n.role with
    | leader nextIndex matchIndex =>
      have hone : ContiguousFrom n.log.entries.length
          [⟨n.currentTerm, n.log.lastIndex + 1, cmd⟩] := by
        rw [contiguousFrom_cons]
        exact ⟨rfl, fun k e hk => by simp at hk⟩
      rw [step, onPropose_of_leader hrole, (tryCommit_durable _).2]
      refine ⟨coherent_append.mpr ⟨hc, hone⟩, fun m disk hd => ?_⟩
      rw [List.cons_append, diskAfter_cons, diskAfter_of_idle]
      · exact RaftStorage.loadLog_append hd hc hone
      · intro e he
        rcases List.mem_append.mp he with he | he
        · exact Effect.not_isStore_of_isSend (broadcastAppend_isSend he)
        · exact Effect.not_isStore_of_isApply (tryCommit_isApply he)
    | _ =>
      rw [step, onPropose_of_not_leader (by rw [hrole]; rfl)]
      exact ⟨hc, fun m disk hd => hd⟩
  | message src msg =>
    by_cases hle : msg.term ≤ n.currentTerm
    · exact onMessage_mirrors_log src hle hc hev
    · rw [step_higher (Nat.not_le.mp hle)]
      obtain ⟨hcoh, hdisk⟩ := onMessage_mirrors_log (n := n.adopt msg.term) src le_rfl hc hev
      exact ⟨hcoh, fun m disk hd => hdisk m _ hd⟩

end RaftNode

/-! ## Durability -/

/-- At the end of the batch the disk mirrors memory again. -/
theorem step_mirrors {disk : RaftStorage} {n : RaftNode} {ev : Event} (hm : Mirrors disk n)
    (hc : Coherent n.log.entries) (hev : ev.Contiguous) :
    Mirrors (diskAfter (n.step ev).1 disk (n.step ev).2) (n.step ev).1 where
  hardState := by
    rw [loadHardState_diskAfter]
    split
    · rfl
    · rename_i hp
      rw [hm.hardState, RaftNode.hardState_of_no_persist hp]
  log := (RaftNode.step_log hc hev).2 _ disk hm.log

/-- A position in a batch at which something else than a storage call is done has no storage call
behind it. -/
theorem StoresFirst.after {pre post : List Effect} {e : Effect}
    (h : StoresFirst (pre ++ e :: post)) (he : e.isStore = false) :
    ∀ x ∈ e :: post, x.isStore = false := by
  obtain ⟨stores, rest, heq, hs, hr⟩ := h
  rcases List.append_eq_append_iff.mp heq with ⟨l, hl, hl'⟩ | ⟨l, hl, hl'⟩
  · cases l with
    | nil =>
      rw [List.nil_append] at hl'
      rw [hl']
      exact hr
    | cons x l =>
      have hx : e = x := (List.cons.inj hl').1
      have := hs x (by rw [hl]; simp)
      rw [← hx, he] at this
      cases this
  · intro x hx
    exact hr x (by rw [hl']; exact List.mem_append_right _ hx)

/-- **Durability.** When a batch comes to a send or an apply, the disk already holds the term, the
vote and the log of the node after the step; and so it does at the end of the batch. -/
theorem durability (disk : RaftStorage) (n : RaftNode) (ev : Event) (hm : Mirrors disk n)
    (hc : Coherent n.log.entries) (hev : ev.Contiguous) :
    (∀ pre e post, (n.step ev).2 = pre ++ e :: post → e.isSend = true ∨ e.isApply = true →
      Mirrors (diskAfter (n.step ev).1 disk pre) (n.step ev).1) ∧
    Mirrors (diskAfter (n.step ev).1 disk (n.step ev).2) (n.step ev).1 := by
  have hend := step_mirrors hm hc hev
  refine ⟨fun pre e post hsplit hpromise => ?_, hend⟩
  have he : e.isStore = false := by
    rcases hpromise with h | h
    · exact Effect.not_isStore_of_isSend h
    · exact Effect.not_isStore_of_isApply h
  have hidle := StoresFirst.after (hsplit ▸ n.step_storesFirst ev) he
  rw [hsplit, diskAfter_append, diskAfter_of_idle hidle] at hend
  exact hend

/-- A leader of term 2 that holds another entry 2. -/
def conflictingAppend : Event :=
  .message 1 (.appendEntries ⟨2, 1, 1, 1, [⟨2, 2, [5]⟩], 2⟩)

/-- A recovered follower overwrites the end of its log: the step persists the new term, truncates,
appends, and the disk follows. -/
theorem durability_conflict :
    Mirrors
      (diskAfter ((recover 2 [1, 3] 10 RaftStorage.threeEntries).step conflictingAppend).1
        RaftStorage.threeEntries
        ((recover 2 [1, 3] 10 RaftStorage.threeEntries).step conflictingAppend).2)
      ((recover 2 [1, 3] 10 RaftStorage.threeEntries).step conflictingAppend).1 := by
  refine (durability RaftStorage.threeEntries _ conflictingAppend ⟨rfl, rfl⟩ ?_ ?_).2
  · show Coherent RaftStorage.threeEntries.loadLog
    rw [RaftStorage.loadLog_threeEntries]
    decide
  · show ContiguousFrom 1 [⟨2, 2, [5]⟩]
    decide

end MyK8s.Raft
