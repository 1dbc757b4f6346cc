import MyK8s.Raft.Steps
import MyK8s.Raft.Storage

/-!
# The shell around the state machine

`src/raft/node.rs`: `RaftShell::execute` runs the effects of a batch in order, on the node as it
stands after the step. Storage is a parameter here: any backend whose three calls may succeed or
fail. A failed call is logged and the batch goes on.

`blocksPromises_iff`: a batch never sends after a failed call just when no call of it fails or the
event is of a kind whose batches do not send after a call.
-/

namespace MyK8s.Raft

/-! ## Running a batch -/

/-- The storage calls of the shell: the state of the backend after each, and whether it
succeeded. -/
structure StorageApi (σ : Type) where
  saveHardState : σ → HardState → σ × Bool
  appendEntries : σ → List LogEntry → σ × Bool
  truncateFrom : σ → ℕ → σ × Bool

/-- What became of an effect. -/
inductive Outcome
  | stored (ok : Bool)
  | sent (dst : NodeId) (msg : Message)
  | applied (entry : LogEntry)
  | rejected (leaderHint : Option NodeId)
  deriving DecidableEq, Repr

def RaftNode.hardState (n : RaftNode) : HardState := ⟨n.currentTerm, n.votedFor⟩

/-- One round of the loop in `execute`. A failed storage call is only logged. -/
def executeEffect {σ : Type} (api : StorageApi σ) (n : RaftNode) (disk : σ) : Effect → σ × Outcome
  | .persist =>
    let (disk, ok) := api.saveHardState disk n.hardState
    (disk, .stored ok)
  | .persistEntries entries =>
    let (disk, ok) := api.appendEntries disk entries
    (disk, .stored ok)
  | .persistTruncate start =>
    let (disk, ok) := api.truncateFrom disk start
    (disk, .stored ok)
  | .send dst msg => (disk, .sent dst msg)
  | .apply entry => (disk, .applied entry)
  | .proposeRejected leaderHint => (disk, .rejected leaderHint)

def execute {σ : Type} (api : StorageApi σ) (n : RaftNode) (disk : σ) :
    List Effect → σ × List Outcome
  | [] => (disk, [])
  | e :: es =>
    let (disk, outcome) := executeEffect api n disk e
    let (disk, outcomes) := execute api n disk es
    (disk, outcome :: outcomes)

section Execute

variable {σ : Type} (api : StorageApi σ) (n : RaftNode)

@[simp] theorem execute_nil (disk : σ) : execute api n disk [] = (disk, []) := rfl

theorem execute_cons (disk : σ) (e : Effect) (es : List Effect) :
    execute api n disk (e :: es) =
      ((execute api n (executeEffect api n disk e).1 es).1,
        (executeEffect api n disk e).2 :: (execute api n (executeEffect api n disk e).1 es).2) :=
  rfl

theorem execute_append (es fs : List Effect) :
    ∀ disk : σ, execute api n disk (es ++ fs) =
      ((execute api n (execute api n disk es).1 fs).1,
        (execute api n disk es).2 ++ (execute api n (execute api n disk es).1 fs).2) := by
  induction es with
  | nil => intro disk; rfl
  | cons e es ih =>
    intro disk
    rw [List.cons_append, execute_cons, ih, execute_cons]
    rfl

/-- Effects that are not storage calls leave the storage alone. -/
theorem execute_idle {es : List Effect} (h : ∀ e ∈ es, e.isStore = false) (disk : σ) :
    (execute api n disk es).1 = disk := by
  induction es generalizing disk with
  | nil => rfl
  | cons e es ih =>
    have he := h e List.mem_cons_self
    have hd : (executeEffect api n disk e).1 = disk := by
      cases e with
      | persist => cases he
      | persistTruncate start => cases he
      | persistEntries entries => cases he
      | _ => rfl
    rw [execute_cons, hd]
    exact ih (fun x hx => h x (List.mem_cons_of_mem _ hx)) disk

end Execute

/-! ## Recovery and the event loop -/

/-- `RaftShell::new`: a fresh node with the term, the vote and the log from the disk. -/
def recover (id : NodeId) (peers : List NodeId) (timeout : ℕ) (disk : RaftStorage) : RaftNode :=
  { RaftNode.new id peers timeout with
    currentTerm := disk.loadHardState.currentTerm
    votedFor := disk.loadHardState.votedFor
    log := RaftLog.fromEntries disk.loadLog }

/-- The step of the event loop, with the election timeout `timeout` that the generator would give
next: a node that has just become a candidate draws it. -/
def stepShell (n : RaftNode) (ev : Event) (timeout : ℕ) : RaftNode × List Effect :=
  let (n', effects) := n.step ev
  (if n.role.isCandidate = false ∧ n'.role.isCandidate = true then n'.setElectionTimeout timeout
    else n', effects)

/-- The storage calls of `RaftStorage`, on a disk that does not fail. -/
def RaftStorage.api : StorageApi RaftStorage where
  saveHardState s hs := (s.saveHardState hs, true)
  appendEntries s entries := (s.appendEntries entries, true)
  truncateFrom s start := (s.truncateFrom start, true)

/-! ## Failed storage calls -/

def Outcome.isSent : Outcome → Bool
  | .sent _ _ => true
  | _ => false

/-- Nothing is transmitted after a storage call that failed. -/
def BlocksPromises (outcomes : List Outcome) : Prop :=
  outcomes.Pairwise (fun a b => a = .stored false → b.isSent = false)

/-- The answers a backend gives to the storage calls of a batch. -/
def answers {σ : Type} (api : StorageApi σ) (n : RaftNode) : σ → List Effect → List Bool
  | _, [] => []
  | disk, .persist :: es =>
    (api.saveHardState disk n.hardState).2 ::
      answers api n (api.saveHardState disk n.hardState).1 es
  | disk, .persistEntries entries :: es =>
    (api.appendEntries disk entries).2 :: answers api n (api.appendEntries disk entries).1 es
  | disk, .persistTruncate start :: es =>
    (api.truncateFrom disk start).2 :: answers api n (api.truncateFrom disk start).1 es
  | disk, _ :: es => answers api n disk es

/-- The events whose batches hold no send behind a storage call: a reply, or a tick or a proposal
in a cluster of one. -/
def Event.promisesNothing (peers : List NodeId) : Event → Bool
  | .message _ (.requestVoteResp _) => true
  | .message _ (.appendEntriesResp _) => true
  | .message _ _ => false
  | .tick => peers.isEmpty
  | .propose _ => peers.isEmpty

section Answers

variable {σ : Type} {api : StorageApi σ} {n : RaftNode}

theorem stored_mem_execute {es : List Effect} {ok : Bool} :
    ∀ {disk : σ}, .stored ok ∈ (execute api n disk es).2 ↔ ok ∈ answers api n disk es := by
  induction es with
  | nil => intro disk; simp [answers]
  | cons e es ih =>
    intro disk
    rw [execute_cons, List.mem_cons, ih]
    cases e <;> simp [executeEffect, answers]

theorem sent_mem_execute {es : List Effect} :
    ∀ {disk : σ}, (∃ o ∈ (execute api n disk es).2, o.isSent = true) ↔
      ∃ e ∈ es, e.isSend = true := by
  induction es with
  | nil => intro disk; simp
  | cons e es ih =>
    intro disk
    rw [execute_cons]
    simp only [List.mem_cons, exists_eq_or_imp, ih]
    refine or_congr_left ?_
    cases e <;> simp [executeEffect, Outcome.isSent, Effect.isSend]

/-- Nothing is sent by effects that do not send. -/
theorem not_sent_of_silent {es : List Effect} (h : ∀ e ∈ es, e.isSend = false) {disk : σ}
    {o : Outcome} (ho : o ∈ (execute api n disk es).2) : o.isSent = false := by
  by_contra hsent
  obtain ⟨e, he, hes⟩ := sent_mem_execute.mp ⟨o, ho, Bool.not_eq_false _ ▸ hsent⟩
  simp [h e he] at hes

theorem answers_of_idle {es : List Effect} (h : ∀ e ∈ es, e.isStore = false) (disk : σ) :
    answers api n disk es = [] := by
  induction es with
  | nil => rfl
  | cons e es ih =>
    have he := h e List.mem_cons_self
    have hes := ih fun x hx => h x (List.mem_cons_of_mem _ hx)
    cases e with
    | persist => cases he
    | persistTruncate start => cases he
    | persistEntries entries => cases he
    | _ => exact hes

theorem answers_append (es fs : List Effect) :
    ∀ disk : σ, answers api n disk (es ++ fs) =
      answers api n disk es ++ answers api n (execute api n disk es).1 fs := by
  induction es with
  | nil => intro disk; rfl
  | cons e es ih =>
    intro disk
    cases e <;> simp [answers, execute_cons, executeEffect, ih]

/-- A batch that writes first keeps its promises back after a failure only if it has none, or
nothing fails. -/
theorem blocksPromises_of_storesFirst {batch : List Effect} (h : StoresFirst batch) (disk : σ) :
    BlocksPromises (execute api n disk batch).2 ↔
      (∀ ok ∈ answers api n disk batch, ok = true) ∨ ∀ e ∈ batch, e.isSend = false := by
  obtain ⟨stores, rest, rfl, hs, hr⟩ := h
  have hstores : ∀ o ∈ (execute api n disk stores).2, o.isSent = false := fun o ho =>
    not_sent_of_silent (fun e he => Effect.not_isSend_of_isStore (hs e he)) ho
  have hrest : ∀ o ∈ (execute api n (execute api n disk stores).1 rest).2, o ≠ .stored false := by
    rintro o ho rfl
    rw [stored_mem_execute, answers_of_idle hr] at ho
    cases ho
  unfold BlocksPromises
  rw [execute_append, answers_append, answers_of_idle hr, List.append_nil, List.pairwise_append]
  constructor
  · rintro ⟨_, _, hcross⟩
    by_cases hall : ∀ ok ∈ answers api n disk stores, ok = true
    · exact Or.inl hall
    · -- a failed call, so nothing behind it may be sent
      refine Or.inr fun e he => ?_
      push Not at hall
      obtain ⟨ok, hok, hfail⟩ := hall
      obtain rfl := Bool.eq_false_iff.mpr hfail
      rcases List.mem_append.mp he with he | he
      · exact Effect.not_isSend_of_isStore (hs e he)
      · by_contra hsend
        obtain ⟨o, ho, hsent⟩ :
            ∃ o ∈ (execute api n (execute api n disk stores).1 rest).2, o.isSent = true :=
          sent_mem_execute.mpr ⟨e, he, Bool.not_eq_false _ ▸ hsend⟩
        simp [hcross _ (stored_mem_execute.mpr hok) o ho rfl] at hsent
  · intro hcond
    refine ⟨?_, ?_, ?_⟩
    · exact List.pairwise_of_forall_mem_list fun a _ b hb _ => hstores b hb
    · exact List.pairwise_of_forall_mem_list fun a ha b _ hfail => absurd hfail (hrest a ha)
    · rintro a ha b hb rfl
      rcases hcond with hall | hnone
      · simpa using hall false (stored_mem_execute.mp ha)
      · exact not_sent_of_silent (fun e he => hnone e (List.mem_append_right _ he)) hb

end Answers

/-! ## Which batches send behind a storage call -/

namespace RaftNode

/-- A follower does nothing about a reply of its own term. -/
theorem follower_ignores {n : RaftNode} {src : NodeId} {msg : Message} {peers : List NodeId}
    (h : (Event.message src msg).promisesNothing peers = true) :
    ((n.adopt msg.term).step (.message src msg)).2 = [] := by
  have hle : msg.term ≤ (n.adopt msg.term).currentTerm := le_rfl
  cases msg with
  | requestVote req => cases h
  | appendEntries req => cases h
  | requestVoteResp resp =>
    rcases onRequestVoteResp_cases src hle with heq | ⟨votes, hrole, _⟩
    · rw [step, heq]
    · cases hrole
  | appendEntriesResp resp =>
    rcases onAppendEntriesResp_cases src hle with heq | ⟨_, _, hrole, _⟩
    · rw [step, heq]
    · cases hrole

/-- A request is always answered. -/
theorem request_answered {n : RaftNode} (src : NodeId) {msg : Message} {peers : List NodeId}
    (hle : msg.term ≤ n.currentTerm)
    (h : (Event.message src msg).promisesNothing peers = false) :
    ∃ e ∈ (n.step (.message src msg)).2, e.isSend = true := by
  cases msg with
  | requestVoteResp resp => cases h
  | appendEntriesResp resp => cases h
  | requestVote req =>
    rw [step, onRequestVote_eq hle]
    split
    · exact ⟨_, List.mem_cons_of_mem _ List.mem_cons_self, rfl⟩
    · exact ⟨_, List.mem_cons_self, rfl⟩
  | appendEntries req =>
    rw [step]
    rcases Nat.lt_or_eq_of_le hle with hlt | heq
    · rw [onAppendEntries_of_stale hlt]
      exact ⟨_, List.mem_cons_self, rfl⟩
    · by_cases hp : n.log.termAt req.prevLogIndex = some req.prevLogTerm
      · rw [onAppendEntries_of_match heq hp]
        exact ⟨_, List.mem_append_right _ List.mem_cons_self, rfl⟩
      · rw [onAppendEntries_of_mismatch heq hp]
        exact ⟨_, List.mem_cons_self, rfl⟩

theorem onTick_alone {n : RaftNode} (hpeers : n.peers = []) {e : Effect} (he : e ∈ n.onTick.2) :
    e.isSend = false := by
  rcases n.onTick_cases with ⟨t, heq⟩ | ⟨t, _, heq⟩ | ⟨_, heq⟩
  · rw [heq] at he
    cases he
  · rw [heq, broadcastAppend_alone hpeers] at he
    cases he
  · rw [heq, startElection_eq, if_pos hpeers, List.mem_singleton] at he
    rw [he]
    rfl

theorem onPropose_alone {n : RaftNode} (hpeers : n.peers = []) (cmd : Command) {e : Effect}
    (he : e ∈ (n.onPropose cmd).2) : e.isSend = false := by
  cases hrole : n.role with
  | leader nextIndex matchIndex =>
    rw [onPropose_of_leader hrole, broadcastAppend_alone (n := n.appended cmd) hpeers,
      List.mem_append, List.mem_singleton] at he
    rcases he with rfl | he
    · rfl
    · exact Effect.not_isSend_of_isApply (tryCommit_isApply he)
  | _ =>
    rw [onPropose_of_not_leader (by rw [hrole]; rfl), List.mem_singleton] at he
    rw [he]
    rfl

/-- Where the event promises nothing, a batch does not both write and send. -/
theorem quiet_of_promisesNothing {n : RaftNode} {ev : Event}
    (h : ev.promisesNothing n.peers = true) :
    (∀ e ∈ (n.step ev).2, e.isStore = false) ∨ ∀ e ∈ (n.step ev).2, e.isSend = false := by
  cases ev with
  | tick => exact Or.inr fun e he => onTick_alone (List.isEmpty_iff.mp h) he
  | propose cmd => exact Or.inr fun e he => onPropose_alone (List.isEmpty_iff.mp h) cmd he
  | message src msg =>
    by_cases hle : msg.term ≤ n.currentTerm
    · left
      intro e he
      cases msg with
      | requestVote req => cases h
      | appendEntries req => cases h
      | requestVoteResp resp => exact onRequestVoteResp_idle hle he
      | appendEntriesResp resp => exact onAppendEntriesResp_idle hle he
    · -- the node has stepped down, so the reply does nothing more
      right
      intro e he
      rw [step_higher (Nat.not_le.mp hle), follower_ignores h, List.mem_singleton] at he
      rw [he]
      rfl

/-- Where the event promises something, a batch that writes also sends. -/
theorem send_of_promises {n : RaftNode} {ev : Event} (h : ev.promisesNothing n.peers = false) :
    (∀ e ∈ (n.step ev).2, e.isStore = false) ∨ ∃ e ∈ (n.step ev).2, e.isSend = true := by
  cases ev with
  | tick =>
    have hpeers : n.peers ≠ [] := fun hn => by
      rw [Event.promisesNothing, hn] at h
      cases h
    rcases n.onTick_cases with ⟨t, heq⟩ | ⟨t, _, heq⟩ | ⟨_, heq⟩
    · left
      intro e he
      rw [step, heq] at he
      cases he
    · left
      intro e he
      rw [step, heq] at he
      exact Effect.not_isStore_of_isSend (broadcastAppend_isSend he)
    · right
      obtain ⟨p, hp⟩ := List.exists_mem_of_ne_nil _ hpeers
      rw [step, heq, startElection_eq, if_neg hpeers]
      exact ⟨_, List.mem_cons_of_mem _ (List.mem_map_of_mem hp), rfl⟩
  | propose cmd =>
    have hpeers : n.peers ≠ [] := fun hn => by
      rw [Event.promisesNothing, hn] at h
      cases h
    cases hrole : n.role with
    | leader nextIndex matchIndex =>
      right
      obtain ⟨p, hp⟩ := List.exists_mem_of_ne_nil _ hpeers
      rw [step, onPropose_of_leader hrole]
      exact ⟨_, List.mem_append_left _ (List.mem_cons_of_mem _ (List.mem_map_of_mem hp)), rfl⟩
    | _ =>
      left
      intro e he
      rw [step, onPropose_of_not_leader (by rw [hrole]; rfl), List.mem_singleton] at he
      rw [he]
      rfl
  | message src msg =>
    right
    by_cases hle : msg.term ≤ n.currentTerm
    · exact request_answered src hle h
    · rw [step_higher (Nat.not_le.mp hle)]
      obtain ⟨e, he, hs⟩ := request_answered (n := n.adopt msg.term) src le_rfl h
      exact ⟨e, List.mem_cons_of_mem _ he, hs⟩

end RaftNode

/-- **Failed persistence.** A batch blocks its promises after a failed storage call just when no
call of it fails or its event is one that promises nothing. -/
theorem blocksPromises_iff {σ : Type} (api : StorageApi σ) (n : RaftNode) (ev : Event) (disk : σ) :
    BlocksPromises (execute api (n.step ev).1 disk (n.step ev).2).2 ↔
      (∀ ok ∈ answers api (n.step ev).1 disk (n.step ev).2, ok = true) ∨
        ev.promisesNothing n.peers = true := by
  rw [blocksPromises_of_storesFirst (n.step_storesFirst ev)]
  constructor
  · rintro (hok | hnone)
    · exact Or.inl hok
    · cases hev : ev.promisesNothing n.peers with
      | true => exact Or.inr rfl
      | false =>
        left
        rcases RaftNode.send_of_promises hev with hidle | ⟨e, he, hs⟩
        · rw [answers_of_idle hidle]
          exact fun ok hok => absurd hok List.not_mem_nil
        · rw [hnone e he] at hs
          cases hs
  · rintro (hok | hev)
    · exact Or.inl hok
    · rcases RaftNode.quiet_of_promisesNothing hev with hidle | hnone
      · left
        rw [answers_of_idle hidle]
        exact fun ok hok => absurd hok List.not_mem_nil
      · exact Or.inr hnone

/-- A backend whose calls all fail. -/
def failingApi : StorageApi Unit where
  saveHardState _ _ := ((), false)
  appendEntries _ _ := ((), false)
  truncateFrom _ _ := ((), false)

/-- An election whose vote could not be stored still asks for votes. -/
theorem election_sends_after_failure :
    (execute failingApi ((RaftNode.new 1 [2, 3] 1).step .tick).1 ()
        ((RaftNode.new 1 [2, 3] 1).step .tick).2).2 =
      [.stored false, .sent 2 (.requestVote ⟨1, 1, 0, 0⟩), .sent 3 (.requestVote ⟨1, 1, 0, 0⟩)] ∧
    ¬ BlocksPromises (execute failingApi ((RaftNode.new 1 [2, 3] 1).step .tick).1 ()
        ((RaftNode.new 1 [2, 3] 1).step .tick).2).2 := by
  have hrun : (execute failingApi ((RaftNode.new 1 [2, 3] 1).step .tick).1 ()
        ((RaftNode.new 1 [2, 3] 1).step .tick).2).2 =
      [.stored false, .sent 2 (.requestVote ⟨1, 1, 0, 0⟩),
        .sent 3 (.requestVote ⟨1, 1, 0, 0⟩)] := by
    decide
  refine ⟨hrun, ?_⟩
  rw [hrun]
  unfold BlocksPromises
  decide

end MyK8s.Raft
