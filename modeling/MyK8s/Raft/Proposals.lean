import MyK8s.Raft.Delivery

/-!
# Where entries come from

A leader makes an entry of each proposal, and nothing else makes one: what logs, disks, messages and
state machines hold has been proposed. A command that was proposed once is applied once at most by a
node between two restarts.
-/

namespace MyK8s.Raft

/-! ## The entries of a message, an event and an effect -/

def Message.entries : Message → List LogEntry
  | .appendEntries req => req.entries
  | _ => []

def Event.entries : Event → List LogEntry
  | .message _ msg => msg.entries
  | _ => []

def Effect.entries : Effect → List LogEntry
  | .send _ msg => msg.entries
  | .persistEntries entries => entries
  | .apply entry => [entry]
  | _ => []

namespace RaftNode

variable {n : RaftNode} {x : LogEntry} {e : Effect}

/-- The entry that the node makes of a proposal. -/
def accepts (n : RaftNode) : Event → List LogEntry
  | .propose cmd => if n.role.isLeader then [⟨n.currentTerm, n.log.lastIndex + 1, cmd⟩] else []
  | _ => []

/-! ## The state machine -/

theorem mem_of_mem_entriesFrom {log : RaftLog} {start : ℕ} (h : x ∈ log.entriesFrom start) :
    x ∈ log.entries := by
  unfold RaftLog.entriesFrom at h
  split at h
  · cases h
  · exact List.mem_of_mem_drop h

theorem mem_of_get {log : RaftLog} {i : ℕ} (h : log.get i = some x) : x ∈ log.entries := by
  cases i with
  | zero => cases h
  | succ i =>
    rw [RaftLog.get_succ] at h
    exact List.mem_of_getElem? h

theorem appendFor_entries {p : NodeId} (h : x ∈ (n.appendFor p).entries) : x ∈ n.log.entries :=
  mem_of_mem_entriesFrom h

theorem broadcastAppend_entries (he : e ∈ n.broadcastAppend) (h : x ∈ e.entries) :
    x ∈ n.log.entries := by
  obtain ⟨p, -, rfl⟩ := List.mem_map.mp he
  exact appendFor_entries h

theorem applyLoop_entries (log : RaftLog) {rounds applied : ℕ} (he : e ∈ applyLoop log rounds applied)
    (h : x ∈ e.entries) : x ∈ log.entries := by
  cases e with
  | apply entry =>
    obtain rfl := List.mem_singleton.mp h
    obtain ⟨i, -, -, hget⟩ := mem_applyLoop he
    exact mem_of_get hget
  | _ => cases applyLoop_isApply he

theorem tryCommit_entries (he : e ∈ n.tryCommit.2) (h : x ∈ e.entries) : x ∈ n.log.entries := by
  rcases n.tryCommit_cases with ⟨heq, -⟩ | ⟨_, _, i, _, _, _, _, heq, -⟩
  · rw [heq] at he
    cases he
  · rw [heq] at he
    exact applyLoop_entries n.log he h

theorem tryWin_entries (he : e ∈ n.tryWin.2) (h : x ∈ e.entries) : x ∈ n.log.entries := by
  unfold tryWin at he
  split at he
  · split at he
    · cases he
    · obtain ⟨p, -, rfl⟩ := List.mem_map.mp he
      exact mem_of_mem_entriesFrom h
  · cases he

theorem learned_entries {c : ℕ} (he : e ∈ (n.learned c).2) (h : x ∈ e.entries) :
    x ∈ n.log.entries := by
  unfold learned at he
  split at he
  · exact applyLoop_entries n.log he h
  · cases he

/-- The loop cuts the log, and takes entries of the message out of it. -/
theorem appendLoop_entries (es : List LogEntry) :
    ∀ (log : RaftLog) (effects : List Effect) (toAppend : List LogEntry),
      (∀ x ∈ (appendLoop es (log, effects, toAppend)).1.entries, x ∈ log.entries) ∧
      (∀ e ∈ (appendLoop es (log, effects, toAppend)).2.1, e ∈ effects ∨ e.entries = []) ∧
      ∀ x ∈ (appendLoop es (log, effects, toAppend)).2.2, x ∈ toAppend ∨ x ∈ es := by
  induction es with
  | nil => exact fun log effects toAppend => ⟨fun _ hx => hx, fun _ he => .inl he, fun _ hx => .inl hx⟩
  | cons y es ih =>
    intro log effects toAppend
    rw [appendLoop]
    split
    · split
      · obtain ⟨hlog, heffects, happend⟩ := ih log effects toAppend
        exact ⟨hlog, heffects, fun x hx => (happend x hx).imp_right (List.mem_cons_of_mem y)⟩
      · obtain ⟨hlog, heffects, happend⟩ := ih (log.truncateFrom y.index)
          (effects ++ [.persistTruncate y.index]) (toAppend ++ [y])
        refine ⟨fun x hx => ?_, fun e he => ?_, fun x hx => ?_⟩
        · have hcut := hlog x hx
          unfold RaftLog.truncateFrom at hcut
          split at hcut
          · cases hcut
          · exact List.mem_of_mem_take hcut
        · rcases heffects e he with he | he
          · rcases List.mem_append.mp he with he | he
            · exact .inl he
            · exact .inr (by rw [List.mem_singleton.mp he]; rfl)
          · exact .inr he
        · rcases happend x hx with hx | hx
          · rcases List.mem_append.mp hx with hx | hx
            · exact .inl hx
            · exact .inr (List.mem_singleton.mp hx ▸ List.mem_cons_self)
          · exact .inr (List.mem_cons_of_mem y hx)
    · obtain ⟨hlog, heffects, happend⟩ := ih log effects (toAppend ++ [y])
      refine ⟨hlog, heffects, fun x hx => ?_⟩
      rcases happend x hx with hx | hx
      · rcases List.mem_append.mp hx with hx | hx
        · exact .inl hx
        · exact .inr (List.mem_singleton.mp hx ▸ List.mem_cons_self)
      · exact .inr (List.mem_cons_of_mem y hx)

theorem mergeEntries_entries (log : RaftLog) (es : List LogEntry) :
    (∀ x ∈ (mergeEntries log es).1.entries, x ∈ log.entries ∨ x ∈ es) ∧
      ∀ e ∈ (mergeEntries log es).2, ∀ x ∈ e.entries, x ∈ es := by
  obtain ⟨hlog, heffects, happend⟩ := appendLoop_entries es log [] []
  have hnone : ∀ e ∈ (appendLoop es (log, [], [])).2.1, ∀ x ∈ e.entries, x ∈ es := by
    intro e he x hx
    rcases heffects e he with he | he
    · cases he
    · rw [he] at hx
      cases hx
  unfold mergeEntries
  simp only
  split
  · exact ⟨fun x hx => .inl (hlog x hx), hnone⟩
  · refine ⟨fun x hx => ?_, fun e he x hx => ?_⟩
    · rcases List.mem_append.mp hx with hx | hx
      · exact .inl (hlog x hx)
      · exact .inr ((happend x hx).resolve_left (by simp))
    · rcases List.mem_append.mp he with he | he
      · exact hnone e he x hx
      · rw [List.mem_singleton.mp he] at hx
        exact (happend x hx).resolve_left (by simp)

/-- What the node has in its log and in its batch. -/
def Shows (r : RaftNode × List Effect) (x : LogEntry) : Prop :=
  x ∈ r.1.log.entries ∨ ∃ e ∈ r.2, x ∈ e.entries

theorem shows_nil (h : Shows (n, []) x) : x ∈ n.log.entries := by
  rcases h with h | ⟨e, he, -⟩
  · exact h
  · cases he

theorem onRequestVote_shows {src : NodeId} {req : RequestVoteReq} (hle : req.term ≤ n.currentTerm)
    (h : Shows (n.onRequestVote src req) x) : x ∈ n.log.entries := by
  rw [onRequestVote_eq hle] at h
  split at h
  · rcases h with h | ⟨e, he, hx⟩
    · exact h
    · simp only [List.mem_cons, List.not_mem_nil, or_false] at he
      rcases he with rfl | rfl <;> cases hx
  · rcases h with h | ⟨e, he, hx⟩
    · exact h
    · obtain rfl := List.mem_singleton.mp he
      cases hx

theorem tryWin_shows (h : Shows n.tryWin x) : x ∈ n.log.entries := by
  rcases h with h | ⟨e, he, hx⟩
  · rwa [(tryWin_durable n).2] at h
  · exact tryWin_entries he hx

theorem tryCommit_shows (h : Shows n.tryCommit x) : x ∈ n.log.entries := by
  rcases h with h | ⟨e, he, hx⟩
  · rwa [(tryCommit_durable n).2] at h
  · exact tryCommit_entries he hx

theorem onAppendEntries_shows {src : NodeId} {req : AppendEntriesReq} (hle : req.term ≤ n.currentTerm)
    (h : Shows (n.onAppendEntries src req) x) : x ∈ n.log.entries ∨ x ∈ req.entries := by
  rcases Nat.lt_or_eq_of_le hle with hlt | heq
  · rw [onAppendEntries_of_stale hlt] at h
    rcases h with h | ⟨e, he, hx⟩
    · exact .inl h
    · obtain rfl := List.mem_singleton.mp he
      cases hx
  · by_cases hp : n.log.termAt req.prevLogIndex = some req.prevLogTerm
    · rw [onAppendEntries_of_match heq hp] at h
      obtain ⟨hlog, heffects⟩ := mergeEntries_entries n.log req.entries
      rcases h with h | ⟨e, he, hx⟩
      · rw [learned_log] at h
        exact hlog x h
      · rcases List.mem_append.mp he with he | he
        · rcases List.mem_append.mp he with he | he
          · exact .inr (heffects e he x hx)
          · exact hlog x (learned_entries he hx)
        · obtain rfl := List.mem_singleton.mp he
          cases hx
    · rw [onAppendEntries_of_mismatch heq hp] at h
      rcases h with h | ⟨e, he, hx⟩
      · exact .inl h
      · obtain rfl := List.mem_singleton.mp he
        cases hx

theorem onMessage_shows {src : NodeId} {msg : Message} (hle : msg.term ≤ n.currentTerm)
    (h : Shows (n.step (.message src msg)) x) : x ∈ n.log.entries ∨ x ∈ msg.entries := by
  cases msg with
  | requestVote req => exact .inl (onRequestVote_shows hle h)
  | requestVoteResp resp =>
    rw [step] at h
    rcases onRequestVoteResp_cases src hle with heq | ⟨votes, _, _, _, heq⟩
    · rw [heq] at h
      exact .inl (shows_nil h)
    · rw [heq] at h
      exact .inl (tryWin_shows (n := { n with role := .candidate (insert src votes) }) h)
  | appendEntries req => exact onAppendEntries_shows hle h
  | appendEntriesResp resp =>
    rw [step] at h
    rcases onAppendEntriesResp_cases src hle with
      heq | ⟨nextIndex, matchIndex, _, _, ⟨_, heq⟩ | ⟨_, heq⟩⟩
    · rw [heq] at h
      exact .inl (shows_nil h)
    · rw [heq] at h
      exact .inl (tryCommit_shows (n := n.acknowledged nextIndex matchIndex src resp.matchIndex) h)
    · rw [heq] at h
      rcases h with h | ⟨e, he, hx⟩
      · exact .inl h
      · obtain rfl := List.mem_singleton.mp he
        exact .inl (appendFor_entries (n := n.backedUp nextIndex matchIndex src) hx)

theorem onTick_shows (h : Shows n.onTick x) : x ∈ n.log.entries := by
  rcases h with h | ⟨e, he, hx⟩
  · rwa [n.onTick_log.1] at h
  · rcases n.onTick_cases with ⟨t, heq⟩ | ⟨t, _, heq⟩ | ⟨_, heq⟩
    · rw [heq] at he
      cases he
    · rw [heq] at he
      exact broadcastAppend_entries he hx
    · rw [heq, startElection_eq] at he
      split at he
      · obtain rfl := List.mem_singleton.mp he
        cases hx
      · rcases List.mem_cons.mp he with rfl | he
        · cases hx
        · obtain ⟨p, -, rfl⟩ := List.mem_map.mp he
          cases hx

theorem onPropose_shows {cmd : Command} (h : Shows (n.onPropose cmd) x) :
    x ∈ n.log.entries ∨ x ∈ n.accepts (.propose cmd) := by
  unfold accepts
  cases hrole : n.role with
  | leader nextIndex matchIndex =>
    rw [onPropose_of_leader hrole] at h
    have hlog : ∀ y ∈ (n.appended cmd).log.entries,
        y ∈ n.log.entries ∨ y ∈ [(⟨n.currentTerm, n.log.lastIndex + 1, cmd⟩ : LogEntry)] :=
      fun y hy => List.mem_append.mp hy
    rcases h with h | ⟨e, he, hx⟩
    · exact hlog x (tryCommit_shows (.inl h))
    · rcases List.mem_append.mp he with he | he
      · rcases List.mem_cons.mp he with rfl | he
        · exact .inr hx
        · exact hlog x (broadcastAppend_entries he hx)
      · exact hlog x (tryCommit_entries he hx)
  | _ =>
    rw [onPropose_of_not_leader (by rw [hrole]; rfl)] at h
    rcases h with h | ⟨e, he, hx⟩
    · exact .inl h
    · obtain rfl := List.mem_singleton.mp he
      cases hx

/-- **One event.** The node shows nothing that it did not have, was not sent and does not accept. -/
theorem step_shows {ev : Event} (h : Shows (n.step ev) x) :
    x ∈ n.log.entries ∨ x ∈ ev.entries ∨ x ∈ n.accepts ev := by
  cases ev with
  | tick => exact .inl (onTick_shows h)
  | propose cmd => exact (onPropose_shows h).imp_right .inr
  | message src msg =>
    by_cases hle : msg.term ≤ n.currentTerm
    · exact (onMessage_shows hle h).imp_right .inl
    · rw [step_higher (Nat.not_le.mp hle)] at h
      have h' : Shows ((n.adopt msg.term).step (.message src msg)) x := by
        rcases h with h | ⟨e, he, hx⟩
        · exact .inl h
        · rcases List.mem_cons.mp he with rfl | he
          · cases hx
          · exact .inr ⟨e, he, hx⟩
      exact (onMessage_shows (n := n.adopt msg.term) le_rfl h').imp_right .inl

end RaftNode

/-! ## The disk -/

namespace RaftStorage

theorem loadLog_runOp {s : RaftStorage} {op : TreeOp} {x : LogEntry} (h : x ∈ (s.runOp op).loadLog) :
    x ∈ s.loadLog ∨ op = .insertEntry x := by
  have hk := mem_loadLog.mp h
  cases op with
  | insertHardState hs => exact .inl (mem_loadLog.mpr hk)
  | insertEntry e =>
    rw [log_insertEntry] at hk
    split at hk
    · exact .inr (congrArg TreeOp.insertEntry (Option.some.inj hk))
    · exact .inl (mem_loadLog.mpr hk)
  | removeEntry i =>
    rw [log_removeEntry] at hk
    split at hk
    · cases hk
    · exact .inl (mem_loadLog.mpr hk)

theorem loadLog_run {ops : List TreeOp} {x : LogEntry} :
    ∀ {s : RaftStorage}, x ∈ (s.run ops).loadLog → x ∈ s.loadLog ∨ .insertEntry x ∈ ops := by
  induction ops with
  | nil => exact fun h => .inl h
  | cons op ops ih =>
    intro s h
    rcases ih (s := s.runOp op) h with h | h
    · refine (loadLog_runOp h).imp_right fun hop => ?_
      rw [hop]
      exact List.mem_cons_self
    · exact .inr (List.mem_cons_of_mem op h)

end RaftStorage

theorem executeEffect_loadLog {n : RaftNode} {disk : RaftStorage} {e : Effect} {x : LogEntry}
    (h : x ∈ (executeEffect RaftStorage.api n disk e).1.loadLog) : x ∈ disk.loadLog ∨ x ∈ e.entries := by
  cases e with
  | persist =>
    refine (RaftStorage.loadLog_run h).imp_right fun hop => ?_
    cases List.mem_singleton.mp hop
  | persistEntries entries =>
    refine (RaftStorage.loadLog_run h).imp_right fun hop => ?_
    obtain ⟨y, hy, hyx⟩ := List.mem_map.mp hop
    cases hyx
    exact hy
  | persistTruncate start =>
    refine (RaftStorage.loadLog_run h).imp_right fun hop => ?_
    obtain ⟨y, hy, hyx⟩ := List.mem_map.mp hop
    cases hyx
  | send dst msg => exact .inl h
  | apply entry => exact .inl h
  | proposeRejected hint => exact .inl h

/-! ## The cluster -/

/-- An entry is somewhere in a replica. -/
def Replica.Holds (r : Replica) (x : LogEntry) : Prop :=
  RaftNode.Shows (r.node, r.pending) x ∨ x ∈ r.disk.loadLog ∨ x ∈ r.applied ++ r.past ++ r.lost

def Move.proposal : Move → Option Command
  | .event _ (.propose cmd) _ => some cmd
  | _ => none

namespace Cluster

variable {cfg : Config} {w w' : Cluster} {v : NodeId} {x : LogEntry}

/-- An entry is somewhere in the cluster, or on its network. -/
def Holds (w : Cluster) (x : LogEntry) : Prop :=
  (∃ v, (w.replicas v).Holds x) ∨ ∃ p ∈ w.network, x ∈ p.msg.entries

/-- The entries that a move makes. -/
def accepts (w : Cluster) : Move → List LogEntry
  | .event v ev _ => (w.replicas v).node.accepts ev
  | _ => []

/-- The entries that the moves of a schedule make. -/
def accepted (cfg : Config) (w : Cluster) : List Move → List LogEntry
  | [] => []
  | m :: ms =>
    match w.step cfg m with
    | some w' => w.accepts m ++ accepted cfg w' ms
    | none => []

theorem holds_set {r : Replica} (h : (w.set v r).Holds x) : w.Holds x ∨ r.Holds x := by
  rcases h with ⟨u, hu⟩ | h
  · by_cases huv : u = v
    · subst huv
      rw [set_replicas_self] at hu
      exact .inr hu
    · rw [set_replicas_of_ne w huv] at hu
      exact .inl (.inl ⟨u, hu⟩)
  · exact .inl (.inr h)

theorem runEffect_holds {r : Replica} {e : Effect} {rest : List Effect} (hp : r.pending = e :: rest)
    (h : (runEffect r e rest).Holds x) : r.Holds x := by
  have hpending : ∀ y ∈ e.entries, r.Holds y := fun y hy =>
    .inl (.inr ⟨e, by rw [hp]; exact List.mem_cons_self, hy⟩)
  rcases h with (h | ⟨f, hf, hx⟩) | h | h
  · exact .inl (.inl h)
  · exact .inl (.inr ⟨f, by rw [hp]; exact List.mem_cons_of_mem e hf, hx⟩)
  · rcases executeEffect_loadLog h with h | h
    · exact .inr (.inl h)
    · exact hpending x h
  · simp only [runEffect, List.mem_append] at h
    rcases h with ((h | h) | h) | h
    · exact .inr (.inr (by simp [h]))
    · cases e with
      | apply entry =>
        obtain rfl := List.mem_singleton.mp h
        exact hpending _ List.mem_cons_self
      | _ => cases h
    · exact .inr (.inr (by simp [h]))
    · exact .inr (.inr (by simp [h]))

theorem restart_holds {timeout : ℕ} {r : Replica} (h : (restart cfg v timeout r).Holds x) :
    r.Holds x := by
  rcases h with (h | ⟨f, hf, -⟩) | h | h
  · exact .inr (.inl h)
  · cases hf
  · exact .inr (.inl h)
  · simp only [restart, List.nil_append, List.mem_append] at h
    rcases h with (h | h) | h | h
    · exact .inr (.inr (by simp [h]))
    · exact .inr (.inr (by simp [h]))
    · exact .inr (.inr (by simp [h]))
    · exact .inl (.inr ⟨_, Effect.mem_applies.mp h, List.mem_cons_self⟩)

/-- **One move** brings in nothing but what a leader accepts. -/
theorem step_holds {m : Move} (h : w.step cfg m = some w') (hx : w'.Holds x) :
    w.Holds x ∨ x ∈ w.accepts m := by
  cases m with
  | event v ev timeout =>
    simp only [step] at h
    split at h
    · rename_i hcond
      obtain rfl := Option.some.inj h
      rcases holds_set hx with hx | hx
      · exact .inl hx
      · rcases hx with hx | hx
        · have hshow : RaftNode.Shows ((w.replicas v).node.step ev) x := by
            obtain ⟨t, heq⟩ := stepShell_eq (w.replicas v).node ev timeout
            rw [heq] at hx
            exact hx
          rcases RaftNode.step_shows hshow with hx | hx | hx
          · exact .inl (.inl ⟨v, .inl (.inl hx)⟩)
          · cases ev with
            | message src msg => exact .inl (.inr ⟨_, of_decide_eq_true hcond.2.2, hx⟩)
            | _ => cases hx
          · exact .inr hx
        · exact .inl (.inl ⟨v, .inr hx⟩)
    · cases h
  | exec v =>
    simp only [step] at h
    split at h
    · cases h
    · rename_i e rest hp
      split at h
      · obtain rfl := Option.some.inj h
        rcases hx with ⟨u, hu⟩ | ⟨p, hp', hx⟩
        · rcases holds_set (w := w) (.inl ⟨u, hu⟩) with hx | hx
          · exact .inl hx
          · exact .inl (.inl ⟨v, runEffect_holds hp hx⟩)
        · rcases List.mem_append.mp hp' with hp' | hp'
          · exact .inl (.inr ⟨p, hp', hx⟩)
          · cases e with
            | send dst msg =>
              obtain rfl := List.mem_singleton.mp hp'
              have hmem : Effect.send dst msg ∈ (w.replicas v).pending := by
                rw [hp]
                exact List.mem_cons_self
              exact .inl (.inl ⟨v, .inl (.inr ⟨_, hmem, hx⟩)⟩)
            | _ => cases hp'
      · cases h
  | crash v timeout =>
    simp only [step] at h
    split at h
    · obtain rfl := Option.some.inj h
      rcases holds_set hx with hx | hx
      · exact .inl hx
      · exact .inl (.inl ⟨v, restart_holds hx⟩)
    · cases h

theorem run_holds {ms : List Move} :
    ∀ {w : Cluster}, w.run cfg ms = some w' → w'.Holds x → w.Holds x ∨ x ∈ accepted cfg w ms := by
  induction ms with
  | nil =>
    intro w h hx
    obtain rfl := Option.some.inj h
    exact .inl hx
  | cons m ms ih =>
    intro w h hx
    obtain ⟨w₁, hm, hms⟩ := Option.bind_eq_some_iff.mp h
    rw [accepted, hm]
    rcases ih hms hx with hx | hx
    · exact (step_holds hm hx).imp_right fun hx => List.mem_append_left _ hx
    · exact .inr (List.mem_append_right _ hx)

theorem not_holds_init (timeouts : NodeId → ℕ) : ¬ (init cfg timeouts).Holds x := by
  rintro (⟨v, (h | ⟨e, he, -⟩) | h | h⟩ | ⟨p, hp, -⟩)
  · cases h
  · cases he
  · cases h
  · cases h
  · cases hp

/-- Each entry that is made takes a proposal. -/
theorem accepted_commands (ms : List Move) :
    ∀ w : Cluster, ((accepted cfg w ms).map LogEntry.command).Sublist (ms.filterMap Move.proposal) := by
  induction ms with
  | nil => exact fun _ => List.Sublist.refl _
  | cons m ms ih =>
    intro w
    have hone : ∀ w : Cluster, ((w.accepts m).map LogEntry.command).Sublist m.proposal.toList := by
      intro w
      cases m with
      | event v ev timeout =>
        cases ev with
        | propose cmd =>
          simp only [accepts, RaftNode.accepts]
          split
          · exact List.Sublist.refl _
          · exact List.nil_sublist _
        | _ => exact List.nil_sublist _
      | _ => exact List.nil_sublist _
    have hsplit : (m :: ms).filterMap Move.proposal =
        m.proposal.toList ++ ms.filterMap Move.proposal := by
      rw [List.filterMap_cons]
      cases m.proposal <;> rfl
    rw [accepted, hsplit]
    split
    · rw [List.map_append]
      exact (hone w).append (ih _)
    · exact List.nil_sublist _

theorem holds_of_emitted (h : x ∈ w.emittedOrLost v) : w.Holds x := by
  refine .inl ⟨v, ?_⟩
  unfold emittedOrLost emitted emittedSinceRestart at h
  simp only [List.mem_append] at h
  rcases h with h | h | h | h
  · exact .inr (.inr (by simp [h]))
  · exact .inr (.inr (by simp [h]))
  · exact .inr (.inr (by simp [h]))
  · exact .inl (.inr ⟨_, Effect.mem_applies.mp h, List.mem_cons_self⟩)

/-- **Proposals.** All that is anywhere in the cluster was made of a proposal by a leader, and between
two restarts a node applies a command no more often than leaders made an entry of it. Each of these entries
is one of the proposals. -/
theorem proposals_applied_once {timeouts : NodeId → ℕ} {ms : List Move}
    (h : (init cfg timeouts).run cfg ms = some w) :
    (∀ x, w.Holds x → x ∈ accepted cfg (init cfg timeouts) ms) ∧
      (∀ v ∈ cfg.ids, ∀ cmd, ((w.emittedSinceRestart v).map LogEntry.command).count cmd ≤
        ((accepted cfg (init cfg timeouts) ms).map LogEntry.command).count cmd) ∧
      ((accepted cfg (init cfg timeouts) ms).map LogEntry.command).Sublist (ms.filterMap Move.proposal) := by
  have hheld : ∀ x, w.Holds x → x ∈ accepted cfg (init cfg timeouts) ms := fun x hx =>
    (run_holds h hx).resolve_left (not_holds_init timeouts)
  refine ⟨hheld, fun v hv cmd => ?_, accepted_commands ms _⟩
  obtain ⟨g, hinv⟩ := exists_inv ⟨timeouts, reaches_run h⟩
  obtain ⟨_, _, _, _, _, hstand, hnow, _⟩ := settle hinv hv
  -- entries of different indices are made of different proposals
  have hnodup : (w.emittedSinceRestart v).Nodup := by
    refine List.Nodup.of_map LogEntry.index ?_
    rw [hnow, (hstand.coherent.take _).map_index]
    exact List.nodup_range'
  obtain ⟨l, hperm, hsub⟩ : (w.emittedSinceRestart v).Subperm (accepted cfg (init cfg timeouts) ms) :=
    hnodup.subperm fun x hx =>
      hheld x (holds_of_emitted (List.mem_append_right _ (List.mem_append_right _ hx)))
  calc ((w.emittedSinceRestart v).map LogEntry.command).count cmd
      = (l.map LogEntry.command).count cmd := ((hperm.map LogEntry.command).count_eq cmd).symm
    _ ≤ ((accepted cfg (init cfg timeouts) ms).map LogEntry.command).count cmd :=
        (hsub.map LogEntry.command).count_le cmd

/-- The command is proposed once more, to a follower. -/
def proposedAgain : List Move := commitSchedule ++ [.event 2 (.propose [7]) 10]

theorem proposals_applied_once_trio : ∃ w, trioStart.run trio proposedAgain = some w ∧
    accepted trio trioStart proposedAgain = [⟨1, 1, [7]⟩] ∧
    proposedAgain.filterMap Move.proposal = [[7], [7]] ∧
    ((w.emittedSinceRestart 1).map LogEntry.command).count [7] ≤ 1 ∧
    (w.emittedSinceRestart 1).map LogEntry.command = [[7]] := by
  have hsome : (trioStart.run trio proposedAgain).isSome = true := by decide +kernel
  have haccepted : accepted trio trioStart proposedAgain = [⟨1, 1, [7]⟩] := by decide +kernel
  have hemitted : ((trioStart.run trio proposedAgain).map fun w =>
      (w.emittedSinceRestart 1).map LogEntry.command) = some [[7]] := by decide +kernel
  obtain ⟨w, hrun⟩ := Option.isSome_iff_exists.mp hsome
  rw [hrun] at hemitted
  obtain ⟨-, honce, -⟩ := proposals_applied_once hrun
  have hcount := honce 1 (by decide) [7]
  change _ ≤ ((accepted trio trioStart proposedAgain).map LogEntry.command).count [7] at hcount
  rw [haccepted] at hcount
  exact ⟨w, hrun, haccepted, rfl, hcount, Option.some.inj hemitted⟩

end Cluster

end MyK8s.Raft
