import MyK8s.Lib.Serde
import MyK8s.Raft.Core
import MyK8s.Raft.Storage

/-!
# Raft on the wire

What `src/raft/message.rs`, `src/raft/log.rs` and `src/raft/storage.rs` derive: messages for the peers,
entries and the hard state for the tree. Their numbers are of 64 bits (`Fits`), and every value with such
numbers is read back as it was written.
-/

namespace MyK8s.Raft

open Serde (struct)

/-! ## Numbers -/

/-- A `u64`. -/
instance : Serde ℕ where
  toValue n := .number (.int n)
  fromValue := Serde.boundedInt 0 (2 ^ 64 - 1) Int.toNat

def FitsU64 (n : ℕ) : Prop := n < 2 ^ 64

instance : DecidablePred FitsU64 := fun n => inferInstanceAs (Decidable (n < 2 ^ 64))

@[simp] theorem fromValue_toValue_nat {n : ℕ} (h : FitsU64 n) :
    (Serde.fromValue (Serde.toValue n) : Except Serde.Error ℕ) = .ok n := by
  show Serde.boundedInt _ _ _ (.number (.int n)) = _
  unfold FitsU64 at h
  rw [Serde.boundedInt_of_mem (by omega), Int.toNat_natCast]

instance : Serde.NonNull ℕ := ⟨fun _ h => by cases h⟩

theorem fromValue_toValue_option {n : Option ℕ} (h : ∀ m ∈ n, FitsU64 m) :
    (Serde.fromValue (Serde.toValue n) : Except Serde.Error (Option ℕ)) = .ok n := by
  cases n with
  | none => rfl
  | some m =>
    show Serde.fromValue (Serde.toValue m) = _
    rw [Serde.fromValue_option (Serde.NonNull.toValue_ne_null m), fromValue_toValue_nat (h m rfl)]
    rfl

/-! ## Entries and the hard state -/

instance : Serde LogEntry where
  toValue e := .object (
    Serde.field "term" e.term ++
    Serde.field "index" e.index ++
    Serde.field "command" e.command)
  fromValue v := Serde.struct 3 v fun fs => do
    let term ← fs.required 0 "term"
    let index ← fs.required 1 "index"
    let command ← fs.required 2 "command"
    pure { term, index, command }

instance : Serde HardState where
  toValue hs := .object (
    Serde.field "current_term" hs.currentTerm ++
    Serde.field "voted_for" hs.votedFor)
  fromValue v := Serde.struct 2 v fun fs => do
    let currentTerm ← fs.required 0 "current_term"
    let votedFor ← fs.optional 1 "voted_for"
    pure { currentTerm, votedFor }

structure LogEntry.Fits (e : LogEntry) : Prop where
  term : FitsU64 e.term
  index : FitsU64 e.index

structure HardState.Fits (hs : HardState) : Prop where
  currentTerm : FitsU64 hs.currentTerm
  votedFor : ∀ id ∈ hs.votedFor, FitsU64 id

theorem LogEntry.fromValue_toValue {e : LogEntry} (h : e.Fits) :
    Serde.fromValue (Serde.toValue e) = .ok e := by
  show struct 3 (.object _) _ = _
  simp [List.lookup_append, h.term, h.index]

theorem HardState.fromValue_toValue {hs : HardState} (h : hs.Fits) :
    Serde.fromValue (Serde.toValue hs) = .ok hs := by
  show struct 2 (.object _) _ = _
  simp [List.lookup_append, h.currentTerm, fromValue_toValue_option h.votedFor]

theorem fromValue_toValue_entries {es : List LogEntry} (h : ∀ e ∈ es, e.Fits) :
    (Serde.fromValue (Serde.toValue es) : Except Serde.Error (List LogEntry)) = .ok es :=
  Serde.mapM_map_of_ok_mem es fun e he => LogEntry.fromValue_toValue (h e he)

/-! ## Messages -/

instance : Serde RequestVoteReq where
  toValue r := .object (
    Serde.field "term" r.term ++
    Serde.field "candidate_id" r.candidateId ++
    Serde.field "last_log_index" r.lastLogIndex ++
    Serde.field "last_log_term" r.lastLogTerm)
  fromValue v := Serde.struct 4 v fun fs => do
    let term ← fs.required 0 "term"
    let candidateId ← fs.required 1 "candidate_id"
    let lastLogIndex ← fs.required 2 "last_log_index"
    let lastLogTerm ← fs.required 3 "last_log_term"
    pure { term, candidateId, lastLogIndex, lastLogTerm }

instance : Serde RequestVoteResp where
  toValue r := .object (
    Serde.field "term" r.term ++
    Serde.field "vote_granted" r.voteGranted)
  fromValue v := Serde.struct 2 v fun fs => do
    let term ← fs.required 0 "term"
    let voteGranted ← fs.required 1 "vote_granted"
    pure { term, voteGranted }

instance : Serde AppendEntriesReq where
  toValue r := .object (
    Serde.field "term" r.term ++
    Serde.field "leader_id" r.leaderId ++
    Serde.field "prev_log_index" r.prevLogIndex ++
    Serde.field "prev_log_term" r.prevLogTerm ++
    Serde.field "entries" r.entries ++
    Serde.field "leader_commit" r.leaderCommit)
  fromValue v := Serde.struct 6 v fun fs => do
    let term ← fs.required 0 "term"
    let leaderId ← fs.required 1 "leader_id"
    let prevLogIndex ← fs.required 2 "prev_log_index"
    let prevLogTerm ← fs.required 3 "prev_log_term"
    let entries ← fs.required 4 "entries"
    let leaderCommit ← fs.required 5 "leader_commit"
    pure { term, leaderId, prevLogIndex, prevLogTerm, entries, leaderCommit }

instance : Serde AppendEntriesResp where
  toValue r := .object (
    Serde.field "term" r.term ++
    Serde.field "success" r.success ++
    Serde.field "match_index" r.matchIndex)
  fromValue v := Serde.struct 3 v fun fs => do
    let term ← fs.required 0 "term"
    let success ← fs.required 1 "success"
    let matchIndex ← fs.required 2 "match_index"
    pure { term, success, matchIndex }

instance : Serde Message where
  toValue
    | .requestVote req => .object [("RequestVote", Serde.toValue req)]
    | .requestVoteResp resp => .object [("RequestVoteResp", Serde.toValue resp)]
    | .appendEntries req => .object [("AppendEntries", Serde.toValue req)]
    | .appendEntriesResp resp => .object [("AppendEntriesResp", Serde.toValue resp)]
  fromValue v := do
    let (variant, content) ← Serde.variant v
    match variant with
    | "RequestVote" => .requestVote <$> Serde.newtypeVariant content
    | "RequestVoteResp" => .requestVoteResp <$> Serde.newtypeVariant content
    | "AppendEntries" => .appendEntries <$> Serde.newtypeVariant content
    | "AppendEntriesResp" => .appendEntriesResp <$> Serde.newtypeVariant content
    | other => .error (.unknownVariant other)

/-- The numbers of a message are of 64 bits. -/
def Message.Fits : Message → Prop
  | .requestVote req => FitsU64 req.term ∧ FitsU64 req.candidateId ∧ FitsU64 req.lastLogIndex ∧
      FitsU64 req.lastLogTerm
  | .requestVoteResp resp => FitsU64 resp.term
  | .appendEntries req => FitsU64 req.term ∧ FitsU64 req.leaderId ∧ FitsU64 req.prevLogIndex ∧
      FitsU64 req.prevLogTerm ∧ (∀ e ∈ req.entries, e.Fits) ∧ FitsU64 req.leaderCommit
  | .appendEntriesResp resp => FitsU64 resp.term ∧ FitsU64 resp.matchIndex

/-- **A message arrives as it was sent.** -/
theorem Message.fromValue_toValue {m : Message} (h : m.Fits) :
    Serde.fromValue (Serde.toValue m) = .ok m := by
  cases m with
  | requestVote req =>
    obtain ⟨hterm, hid, hindex, hlast⟩ := h
    have hreq : (Serde.fromValue (Serde.toValue req) : Except _ RequestVoteReq) = .ok req := by
      show struct 4 (.object _) _ = _
      simp [List.lookup_append, hterm, hid, hindex, hlast]
    exact congrArg (Message.requestVote <$> ·) hreq
  | requestVoteResp resp =>
    have hresp : (Serde.fromValue (Serde.toValue resp) : Except _ RequestVoteResp) = .ok resp := by
      show struct 2 (.object _) _ = _
      simp [List.lookup_append, show FitsU64 resp.term from h]
    exact congrArg (Message.requestVoteResp <$> ·) hresp
  | appendEntries req =>
    obtain ⟨hterm, hid, hindex, hprev, hentries, hcommit⟩ := h
    have hreq : (Serde.fromValue (Serde.toValue req) : Except _ AppendEntriesReq) = .ok req := by
      show struct 6 (.object _) _ = _
      simp [List.lookup_append, hterm, hid, hindex, hprev, hcommit, fromValue_toValue_entries hentries]
    exact congrArg (Message.appendEntries <$> ·) hreq
  | appendEntriesResp resp =>
    obtain ⟨hterm, hindex⟩ := h
    have hresp : (Serde.fromValue (Serde.toValue resp) : Except _ AppendEntriesResp) = .ok resp := by
      show struct 3 (.object _) _ = _
      simp [List.lookup_append, hterm, hindex]
    exact congrArg (Message.appendEntriesResp <$> ·) hresp

end MyK8s.Raft
