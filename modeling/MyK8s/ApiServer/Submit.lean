import MyK8s.ApiServer.RaftGlue
import MyK8s.ApiServer.Revisions
import MyK8s.ApiServer.Applier

/-!
# Submitting a command

`src/apiserver/raft_glue.rs`: `RaftProposer::submit` puts a one-shot channel under the id of its
command in the map `pending`, proposes the command, and waits. `apply_loop` applies the committed
entries, and sends each outcome to the channel that it finds under the id of the command. The two
meet in any order, and `submit` gives up after a while.

The invariant (`Replica.Inv`) is stated call by call, and here it is followed through what the calls
do.
-/

namespace MyK8s.ApiServer

open Raft (Command)

/-! ## The machine -/

/-- `outcome_to_result`. -/
def outcomeToResult : ApplyOutcome → Except ApiError Serde.Value
  | .ok v => .ok v
  | .notFound name => .error (.notFound name)
  | .alreadyExists name => .error (.alreadyExists name)
  | .conflict current provided => .error (.conflict current provided)
  | .internal msg => .error (.internal msg)

/-- Where a `submit` stands. Once its proposal is sent it waits, `since` a number of entries had been
applied; what it is answered with comes from the application of entry `n`. Where it awaits something
it is dropped if the client goes away. -/
inductive SubmitPhase
  | gated
  | registered
  | waiting (since : ℕ)
  | sweeping (e : ApiError)
  | dropped
  | answered (n : ℕ) (o : ApplyOutcome)
  | failed (e : ApiError)

/-- A `submit`, with the channel that it listens on. What is sent there comes with the number of the
entry. -/
structure Submit where
  cmd : StoreCommand
  phase : SubmitPhase
  slot : Option (ℕ × ApplyOutcome)

/-- What it has returned. -/
def Submit.result (call : Submit) : Option (Except ApiError Serde.Value) :=
  match call.phase with
  | .answered _ o => some (outcomeToResult o)
  | .failed e => some (.error e)
  | _ => none

/-- The receiver is still there. -/
def Submit.listens (call : Submit) : Bool :=
  match call.phase with
  | .registered => true
  | .waiting _ => true
  | _ => false

/-- Where `apply_loop` stands with the entry that it has taken last. -/
inductive LoopStage
  | idle
  | decoded (cmd : StoreCommand)
  | applied (id : Uuid) (o : ApplyOutcome)
  | resolved (i : ℕ) (o : ApplyOutcome)
  | stopped

/-- One replica: the committed entries on their way to `apply_loop` and those that it has taken, its
stores, the map `pending` from ids to the channels of the calls, and the calls. -/
structure Replica where
  queue : List Command
  taken : List Command
  db : Db
  stage : LoopStage
  pending : Uuid → Option ℕ
  submits : List Submit

/-- What can happen. The parts of `submit` that others can come between are `register` and the ones
after it; `loop` is the next part of `apply_loop`. -/
inductive SubmitAct
  | submit (cmd : StoreCommand) (proposer : RaftProposer)
  | register (i : ℕ)
  | propose (i : ℕ) (closed : Bool)
  | receive (i : ℕ)
  | expire (i : ℕ)
  | sweep (i : ℕ)
  | drop (i : ℕ)
  | commit (entry : Command)
  | loop
  | cancel

/-- The id of the command that the act submits. -/
def SubmitAct.id : SubmitAct → Option Uuid
  | .submit cmd _ => some cmd.id
  | _ => none

namespace Replica

def start (db : Db) : Replica := ⟨[], [], db, .idle, fun _ => none, []⟩

/-- How many of the taken entries are applied, or skipped. -/
def applied (s : Replica) : ℕ :=
  match s.stage with
  | .decoded _ => s.taken.length - 1
  | _ => s.taken.length

/-- How many of them `apply_loop` is through with: their outcomes are sent. -/
def finished (s : Replica) : ℕ :=
  match s.stage with
  | .idle => s.taken.length
  | .stopped => s.taken.length
  | _ => s.taken.length - 1

def setPhase (s : Replica) (i : ℕ) (call : Submit) (phase : SubmitPhase) : Replica :=
  { s with submits := s.submits.set i { call with phase } }

/-- The body of `apply_loop`, part by part. An entry that does not parse is skipped. -/
def loop (decode : Command → Option StoreCommand) (s : Replica) : Replica :=
  match s.stage with
  | .idle =>
    match s.queue with
    | [] => s
    | entry :: queue =>
      let stage := match decode entry with
        | some cmd => .decoded cmd
        | none => .idle
      { s with queue, taken := s.taken ++ [entry], stage }
  | .decoded cmd =>
    let r := apply Faults.none s.db cmd
    { s with db := r.db, stage := .applied cmd.id r.outcome }
  | .applied id o =>
    match s.pending id with
    | some i => { s with pending := Function.update s.pending id none, stage := .resolved i o }
    | none => { s with stage := .idle }
  | .resolved i o =>
    match s.submits[i]? with
    | some call =>
      if call.listens then
        { s with
          stage := .idle
          submits := s.submits.set i { call with slot := some (s.taken.length - 1, o) } }
      else { s with stage := .idle }
    | none => { s with stage := .idle }
  | .stopped => s

def step (decode : Command → Option StoreCommand) (s : Replica) : SubmitAct → Replica
  | .submit cmd proposer =>
    let phase := match proposer.ensureLeader with
      | .ok _ => .gated
      | .error e => .failed e
    { s with submits := s.submits ++ [⟨cmd, phase, none⟩] }
  | .register i =>
    match s.submits[i]? with
    | some ⟨cmd, .gated, slot⟩ =>
      { s.setPhase i ⟨cmd, .gated, slot⟩ .registered with
        pending := Function.update s.pending cmd.id (some i) }
    | _ => s
  | .propose i closed =>
    match s.submits[i]? with
    | some ⟨cmd, .registered, slot⟩ =>
      s.setPhase i ⟨cmd, .registered, slot⟩
        (if closed then .sweeping (.internal "raft proposer channel closed")
        else .waiting s.applied)
    | _ => s
  | .receive i =>
    match s.submits[i]? with
    | some ⟨cmd, .waiting since, some (n, o)⟩ =>
      s.setPhase i ⟨cmd, .waiting since, some (n, o)⟩ (.answered n o)
    | _ => s
  | .expire i =>
    -- `timeout` looks at the channel first, and an outcome that is there is returned
    match s.submits[i]? with
    | some ⟨cmd, .waiting since, none⟩ =>
      s.setPhase i ⟨cmd, .waiting since, none⟩
        (.sweeping (.internal "write timed out (not committed)"))
    | _ => s
  | .sweep i =>
    match s.submits[i]? with
    | some ⟨cmd, .sweeping e, slot⟩ =>
      { s.setPhase i ⟨cmd, .sweeping e, slot⟩ (.failed e) with
        pending := Function.update s.pending cmd.id none }
    | _ => s
  | .drop i =>
    match s.submits[i]? with
    | some call => if call.listens then s.setPhase i call .dropped else s
    | none => s
  | .commit entry => { s with queue := s.queue ++ [entry] }
  | .loop => s.loop decode
  | .cancel =>
    match s.stage with
    | .idle => { s with stage := .stopped }
    | _ => s

def run (decode : Command → Option StoreCommand) (s : Replica) (acts : List SubmitAct) : Replica :=
  acts.foldl (step decode) s

end Replica

/-! ## What the log makes of the commands -/

section Log

variable (decode : Command → Option StoreCommand) (db₀ : Db)

/-- The stores after the entries. -/
def dbAfterEntries (entries : List Command) : Db :=
  entries.foldl (fun db entry => match decode entry with
    | some cmd => (apply Faults.none db cmd).db
    | none => db) db₀

theorem dbAfterEntries_concat (entries : List Command) (entry : Command) :
    dbAfterEntries decode db₀ (entries ++ [entry]) = match decode entry with
      | some cmd => (apply Faults.none (dbAfterEntries decode db₀ entries) cmd).db
      | none => dbAfterEntries decode db₀ entries := by
  unfold dbAfterEntries
  rw [List.foldl_concat]

/-- The outcome `o` is the one of entry `n`, whose command has the id. -/
def Produced (taken : List Command) (n : ℕ) (id : Uuid) (o : ApplyOutcome) : Prop :=
  ∃ entry cmd, taken[n]? = some entry ∧ decode entry = some cmd ∧ cmd.id = id ∧
    o = (apply Faults.none (dbAfterEntries decode db₀ (taken.take n)) cmd).outcome

variable {decode db₀}

theorem Produced.append {taken : List Command} {n : ℕ} {id : Uuid} {o : ApplyOutcome}
    (h : Produced decode db₀ taken n id o) (rest : List Command) :
    Produced decode db₀ (taken ++ rest) n id o := by
  obtain ⟨entry, cmd, hn, hdecode, hid, ho⟩ := h
  have hlt : n < taken.length := (List.getElem?_eq_some_iff.mp hn).1
  refine ⟨entry, cmd, ?_, hdecode, hid, ?_⟩
  · rw [List.getElem?_append_left hlt, hn]
  · rw [List.take_append_of_le_length hlt.le, ho]

theorem Produced.unique {taken : List Command} {n : ℕ} {id id' : Uuid} {o o' : ApplyOutcome}
    (h : Produced decode db₀ taken n id o) (h' : Produced decode db₀ taken n id' o') : id = id' := by
  obtain ⟨entry, cmd, hn, hdecode, hid, -⟩ := h
  obtain ⟨entry', cmd', hn', hdecode', hid', -⟩ := h'
  obtain rfl := Option.some.inj (hn.symm.trans hn')
  obtain rfl := Option.some.inj (hdecode.symm.trans hdecode')
  exact hid.symm.trans hid'

/-- The last entry is the one that its outcome comes from. -/
theorem Produced.last {taken : List Command} {id : Uuid} {o : ApplyOutcome} {n : ℕ}
    {cmd : StoreCommand} (h : Produced decode db₀ taken (taken.length - 1) id o)
    (hlt : n < taken.length) (hn : taken[n]?.bind decode = some cmd) (hid : cmd.id ≠ id) :
    n < taken.length - 1 := by
  by_contra hge
  obtain rfl : n = taken.length - 1 := by omega
  obtain ⟨entry, cmd', hentry, hdecode, rfl, -⟩ := h
  rw [hentry, Option.bind_some, hdecode] at hn
  exact hid (congrArg StoreCommand.id (Option.some.inj hn)).symm

end Log

/-! ## The invariant -/

section Invariant

variable {decode : Command → Option StoreCommand} {db₀ : Db}

/-- What holds of `apply_loop`: its stores are those of the log, and what it carries is the outcome
of the last entry, for a call that waits under its id. -/
structure Replica.LoopInv (decode : Command → Option StoreCommand) (db₀ : Db) (s : Replica) :
    Prop where
  db : s.db = dbAfterEntries decode db₀ (s.taken.take s.applied)
  decoded : ∀ cmd, s.stage = .decoded cmd → 0 < s.taken.length ∧
    s.taken[s.taken.length - 1]?.bind decode = some cmd
  applied : ∀ id o, s.stage = .applied id o →
    Produced decode db₀ s.taken (s.taken.length - 1) id o
  resolved : ∀ i o, s.stage = .resolved i o → ∃ call, s.submits[i]? = some call ∧
    Produced decode db₀ s.taken (s.taken.length - 1) call.cmd.id o

/-- What holds of call `i`. -/
structure Replica.CallInv (decode : Command → Option StoreCommand) (db₀ : Db) (s : Replica) (i : ℕ)
    (call : Submit) : Prop where
  /-- Its id stands for it and for nothing else. -/
  own : ∀ j, s.pending call.cmd.id = some j → j = i
  fresh : call.phase = .gated → s.pending call.cmd.id = none ∧ call.slot = none ∧
    ∀ o, s.stage ≠ .resolved i o
  slot : ∀ n o, call.slot = some (n, o) → s.pending call.cmd.id = none ∧
    Produced decode db₀ s.taken n call.cmd.id o
  resolved : ∀ o, s.stage = .resolved i o → s.pending call.cmd.id = none
  /-- As long as it listens it cannot be passed over. -/
  listens : call.listens = true → call.slot = none →
    s.pending call.cmd.id = some i ∨ ∃ o, s.stage = .resolved i o
  missed : ∀ since, call.phase = .waiting since → call.slot = none → ∀ n cmd, since ≤ n →
    n < s.finished → s.taken[n]?.bind decode = some cmd → cmd.id ≠ call.cmd.id
  answered : ∀ n o, call.phase = .answered n o → Produced decode db₀ s.taken n call.cmd.id o
  swept : call.result.isSome → s.pending call.cmd.id = none

structure Replica.Inv (decode : Command → Option StoreCommand) (db₀ : Db) (s : Replica) : Prop where
  loop : s.LoopInv decode db₀
  distinct : ∀ (i j : ℕ) (call call' : Submit), s.submits[i]? = some call →
    s.submits[j]? = some call' → call.cmd.id = call'.cmd.id → i = j
  pending : ∀ id i, s.pending id = some i → ∃ call, s.submits[i]? = some call ∧ call.cmd.id = id
  call : ∀ i call, s.submits[i]? = some call → s.CallInv decode db₀ i call

namespace Replica

variable {s : Replica} {i : ℕ} {call : Submit}

theorem inv_start : (start db₀).Inv decode db₀ where
  loop :=
    { db := rfl
      decoded := fun _ h => by cases h
      applied := fun _ _ h => by cases h
      resolved := fun _ _ h => by cases h }
  distinct := fun _ _ _ _ h => by cases h
  pending := fun _ _ h => by cases h
  call := fun _ _ h => by cases h

theorem CallInv.congr {s' : Replica} (h : s.CallInv decode db₀ i call)
    (hp : s'.pending call.cmd.id = s.pending call.cmd.id) (hstage : s'.stage = s.stage)
    (htaken : s'.taken = s.taken) : s'.CallInv decode db₀ i call := by
  have hfin : s'.finished = s.finished := by simp only [finished, hstage, htaken]
  constructor
  · rw [hp]; exact h.own
  · rw [hp, hstage]; exact h.fresh
  · rw [hp, htaken]; exact h.slot
  · rw [hp, hstage]; exact h.resolved
  · rw [hp, hstage]; exact h.listens
  · rw [hfin, htaken]; exact h.missed
  · rw [htaken]; exact h.answered
  · rw [hp]; exact h.swept

theorem cmds_set (hi : s.submits[i]? = some call) {call' : Submit} (hcmd : call'.cmd = call.cmd) :
    (s.submits.set i call').map (·.cmd) = s.submits.map (·.cmd) := by
  have hlt : i < s.submits.length := (List.getElem?_eq_some_iff.mp hi).1
  ext1 j
  rw [List.getElem?_map, List.getElem?_map, List.getElem?_set]
  by_cases hij : i = j
  · subst hij
    rw [if_pos rfl, if_pos hlt, hi, Option.map_some, Option.map_some, hcmd]
  · rw [if_neg hij]

theorem exists_of_cmds_eq {calls calls' : List Submit}
    (h : calls.map (·.cmd) = calls'.map (·.cmd)) {j : ℕ} (hj : calls[j]? = some call) :
    ∃ call' : Submit, calls'[j]? = some call' ∧ call'.cmd = call.cmd := by
  have hmap := congrArg (·[j]?) h
  simp only [List.getElem?_map, hj, Option.map_some] at hmap
  exact Option.map_eq_some_iff.mp hmap.symm

/-- A call changes, with its own entry in the map. -/
theorem Inv.set (h : s.Inv decode db₀) (hi : s.submits[i]? = some call) (call' : Submit)
    (hcmd' : call'.cmd = call.cmd) {v : Option ℕ} (hv : ∀ j, v = some j → j = i) {s' : Replica}
    (hs' : s' = { s with
      submits := s.submits.set i call'
      pending := Function.update s.pending call.cmd.id v })
    (hcall : s'.CallInv decode db₀ i call') : s'.Inv decode db₀ := by
  have hcmds : s'.submits.map (·.cmd) = s.submits.map (·.cmd) := by
    rw [hs']
    exact cmds_set hi hcmd'
  have hstage : s'.stage = s.stage := by rw [hs']
  have htaken : s'.taken = s.taken := by rw [hs']
  have hpending : s'.pending = Function.update s.pending call.cmd.id v := by rw [hs']
  have happlied : s'.applied = s.applied := by simp only [applied, hstage, htaken]
  refine ⟨⟨?_, ?_, ?_, ?_⟩, ?_, ?_, ?_⟩
  · have hdb : s'.db = s.db := by rw [hs']
    rw [hdb, htaken, happlied]
    exact h.loop.db
  · rw [hstage, htaken]
    exact h.loop.decoded
  · rw [hstage, htaken]
    exact h.loop.applied
  · intro j o hj
    rw [hstage] at hj
    obtain ⟨call₀, h₀, hprod⟩ := h.loop.resolved j o hj
    obtain ⟨call₁, hcall₁, heq⟩ := exists_of_cmds_eq hcmds.symm h₀
    exact ⟨call₁, hcall₁, by rw [heq, htaken]; exact hprod⟩
  · intro j k call₁ call₂ h₁ h₂ hid
    obtain ⟨call₃, h₃, heq₃⟩ := exists_of_cmds_eq hcmds h₁
    obtain ⟨call₄, h₄, heq₄⟩ := exists_of_cmds_eq hcmds h₂
    exact h.distinct j k call₃ call₄ h₃ h₄ (by rw [heq₃, heq₄, hid])
  · intro id j hj
    have hold : ∃ call₀, s.submits[j]? = some call₀ ∧ call₀.cmd.id = id := by
      rw [hpending, Function.update_apply] at hj
      split at hj
      · rename_i hid
        obtain rfl := hv j hj
        exact ⟨call, hi, hid.symm⟩
      · exact h.pending id j hj
    obtain ⟨call₀, h₀, hid⟩ := hold
    obtain ⟨call₁, hcall₁, heq⟩ := exists_of_cmds_eq hcmds.symm h₀
    exact ⟨call₁, hcall₁, by rw [heq, hid]⟩
  · intro j call₁ hj
    have hlt : i < s.submits.length := (List.getElem?_eq_some_iff.mp hi).1
    rw [hs'] at hj
    simp only [List.getElem?_set] at hj
    by_cases hij : i = j
    · subst hij
      rw [if_pos rfl, if_pos hlt] at hj
      obtain rfl := Option.some.inj hj
      exact hcall
    · rw [if_neg hij] at hj
      -- the id of another call is another one
      refine (h.call j call₁ hj).congr ?_ hstage htaken
      rw [hpending, Function.update_of_ne]
      exact fun hid => hij (h.distinct i j call call₁ hi hj hid.symm)

/-- A call moves on and leaves the map alone. -/
theorem Inv.setPhase (h : s.Inv decode db₀) (hi : s.submits[i]? = some call) {phase : SubmitPhase}
    (hgated : phase ≠ .gated)
    (hlistens : ({ call with phase } : Submit).listens = true → call.listens = true)
    (hmissed : ∀ since, phase = .waiting since → since = s.applied)
    (hanswered : ∀ n o, phase = .answered n o → call.slot = some (n, o))
    (hfailed : ∀ e, phase ≠ .failed e) : (s.setPhase i call phase).Inv decode db₀ := by
  have hcall := h.call i call hi
  refine h.set hi { call with phase } rfl hcall.own (by rw [Function.update_eq_self]; rfl) ⟨?_, ?_, ?_, ?_, ?_, ?_, ?_, ?_⟩
  · exact hcall.own
  · exact fun hphase => absurd hphase hgated
  · exact hcall.slot
  · exact hcall.resolved
  · exact fun hl hslot => hcall.listens (hlistens hl) hslot
  · intro since hphase _ n cmd hle hlt
    have hbound : s.finished ≤ s.applied := by
      unfold finished applied
      cases s.stage <;> simp
    have hn : n < s.finished := hlt
    have hsince := hmissed since hphase
    omega
  · intro n o hphase
    exact (hcall.slot n o (hanswered n o hphase)).2
  · intro hresult
    unfold Submit.result at hresult
    split at hresult
    · rename_i n o hphase
      exact (hcall.slot n o (hanswered n o hphase)).1
    · rename_i e hphase
      exact absurd hphase (hfailed e)
    · cases hresult

/-- A call that has just been made, or has been refused. -/
theorem CallInv.new {cmd : StoreCommand} {phase : SubmitPhase}
    (hphase : phase = .gated ∨ ∃ e, phase = .failed e) (hnone : s.pending cmd.id = none)
    (hidle : ∀ o, s.stage ≠ .resolved i o) : s.CallInv decode db₀ i ⟨cmd, phase, none⟩ := by
  constructor
  · intro k hk
    rw [hnone] at hk
    cases hk
  · exact fun _ => ⟨hnone, rfl, hidle⟩
  · exact fun _ _ hslot => by cases hslot
  · exact fun _ _ => hnone
  · intro hl
    rcases hphase with rfl | ⟨e, rfl⟩ <;> cases hl
  · intro since hw
    rcases hphase with rfl | ⟨e, rfl⟩ <;> cases hw
  · intro n o ha
    rcases hphase with rfl | ⟨e, rfl⟩ <;> cases ha
  · exact fun _ => hnone

theorem Inv.submit (h : s.Inv decode db₀) {cmd : StoreCommand} {phase : SubmitPhase}
    (hphase : phase = .gated ∨ ∃ e, phase = .failed e)
    (hfresh : ∀ call ∈ s.submits, call.cmd.id ≠ cmd.id) :
    ({ s with submits := s.submits ++ [⟨cmd, phase, none⟩] } : Replica).Inv decode db₀ := by
  have hnone : s.pending cmd.id = none := by
    rw [Option.eq_none_iff_forall_ne_some]
    intro j hj
    obtain ⟨call, hcall, hid⟩ := h.pending _ j hj
    exact hfresh call (List.mem_of_getElem? hcall) hid
  have hget : ∀ (j : ℕ) (call : Submit), s.submits[j]? = some call →
      (s.submits ++ [⟨cmd, phase, none⟩])[j]? = some call := by
    intro j call hj
    rw [List.getElem?_append_left (List.getElem?_eq_some_iff.mp hj).1, hj]
  have hcases : ∀ (j : ℕ) (call : Submit), (s.submits ++ [⟨cmd, phase, none⟩])[j]? = some call →
      s.submits[j]? = some call ∨ j = s.submits.length ∧ call = ⟨cmd, phase, none⟩ := by
    intro j call hj
    rw [List.getElem?_append] at hj
    split at hj
    · exact .inl hj
    · rw [List.getElem?_singleton] at hj
      split at hj
      · exact .inr ⟨by omega, (Option.some.inj hj).symm⟩
      · cases hj
  refine ⟨⟨h.loop.db, h.loop.decoded, h.loop.applied, ?_⟩, ?_, ?_, ?_⟩
  · intro j o hj
    obtain ⟨call, hcall, hprod⟩ := h.loop.resolved j o hj
    exact ⟨call, hget j call hcall, hprod⟩
  · intro j k call₁ call₂ h₁ h₂ hid
    rcases hcases j call₁ h₁ with h₁ | ⟨rfl, rfl⟩
    · rcases hcases k call₂ h₂ with h₂ | ⟨rfl, rfl⟩
      · exact h.distinct j k call₁ call₂ h₁ h₂ hid
      · exact absurd hid (hfresh call₁ (List.mem_of_getElem? h₁))
    · rcases hcases k call₂ h₂ with h₂ | ⟨rfl, rfl⟩
      · exact absurd hid.symm (hfresh call₂ (List.mem_of_getElem? h₂))
      · rfl
  · intro id j hj
    obtain ⟨call, hcall, hid⟩ := h.pending id j hj
    exact ⟨call, hget j call hcall, hid⟩
  · intro j call hj
    rcases hcases j call hj with hj | ⟨rfl, rfl⟩
    · exact (h.call j call hj).congr rfl rfl rfl
    · refine .new hphase hnone fun o ho => ?_
      obtain ⟨call, hcall, -⟩ := h.loop.resolved _ o ho
      exact absurd (List.getElem?_eq_some_iff.mp hcall).1 (lt_irrefl _)

theorem Inv.register (h : s.Inv decode db₀) {cmd : StoreCommand} {slot : Option (ℕ × ApplyOutcome)}
    (hi : s.submits[i]? = some ⟨cmd, .gated, slot⟩) :
    ({ s.setPhase i ⟨cmd, .gated, slot⟩ .registered with
      pending := Function.update s.pending cmd.id (some i) } : Replica).Inv decode db₀ := by
  obtain ⟨hnone, hslot, hidle⟩ := (h.call i _ hi).fresh rfl
  simp only at hnone hslot
  subst hslot
  refine h.set hi ⟨cmd, .registered, none⟩ rfl (fun j hj => (Option.some.inj hj).symm) rfl
    ⟨?_, ?_, ?_, ?_, ?_, ?_, ?_, ?_⟩
  · intro j hj
    simp only [Function.update_self] at hj
    exact (Option.some.inj hj).symm
  · exact fun hphase => by cases hphase
  · exact fun _ _ hs => by cases hs
  · exact fun o ho => absurd ho (hidle o)
  · exact fun _ _ => .inl (Function.update_self ..)
  · exact fun _ hphase => by cases hphase
  · exact fun _ _ hphase => by cases hphase
  · exact fun hr => by cases hr

theorem Inv.sweep (h : s.Inv decode db₀) {cmd : StoreCommand} {e : ApiError}
    {slot : Option (ℕ × ApplyOutcome)} (hi : s.submits[i]? = some ⟨cmd, .sweeping e, slot⟩) :
    ({ s.setPhase i ⟨cmd, .sweeping e, slot⟩ (.failed e) with
      pending := Function.update s.pending cmd.id none } : Replica).Inv decode db₀ := by
  have hcall := h.call i _ hi
  refine h.set hi ⟨cmd, .failed e, slot⟩ rfl (fun j hj => by cases hj) rfl
    ⟨?_, ?_, ?_, ?_, ?_, ?_, ?_, ?_⟩
  · intro j hj
    simp only [Function.update_self] at hj
    cases hj
  · exact fun hphase => by cases hphase
  · exact fun n o hs => ⟨Function.update_self .., (hcall.slot n o hs).2⟩
  · exact fun _ _ => Function.update_self ..
  · exact fun hl => by cases hl
  · exact fun _ hphase => by cases hphase
  · exact fun _ _ hphase => by cases hphase
  · exact fun _ => Function.update_self ..

end Replica

end Invariant

end MyK8s.ApiServer
