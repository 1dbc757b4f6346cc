import MyK8s.ApiServer.Submit

/-!
# The outcome of a command

`submit_faithful`: a `submit` returns the outcome of its own command, and leaves nothing in the map.
It misses an outcome only if it gives up before `apply_loop` has sent it.

The invariant of `Submit` is followed through what `apply_loop` does, part by part, and along a run.
-/

namespace MyK8s.ApiServer

open Raft (Command)

section Invariant

variable {decode : Command → Option StoreCommand} {db₀ : Db}

namespace Replica

variable {s : Replica} {i : ℕ} {call : Submit}

/-! ## The parts of `apply_loop` -/

theorem finished_le_length (s : Replica) : s.finished ≤ s.taken.length := by
  unfold finished
  cases s.stage <;> simp

theorem applied_eq_length (hstage : ∀ cmd, s.stage ≠ .decoded cmd) :
    s.applied = s.taken.length := by
  unfold applied
  split
  · rename_i cmd hcmd
    exact absurd hcmd (hstage cmd)
  · rfl

/-- `apply_loop` moves on. A call that waits is not passed over if the entries that it is now through
with are none of the call's. -/
theorem CallInv.advance {s' : Replica} (h : s.CallInv decode db₀ i call) {rest : List Command}
    (htaken : s'.taken = s.taken ++ rest)
    (hpending : s'.pending call.cmd.id = s.pending call.cmd.id)
    (hbefore : call.listens = true → call.slot = none → ∀ o, s.stage ≠ .resolved i o)
    (hafter : ∀ o, s'.stage ≠ .resolved i o)
    (hfinished : call.listens = true → call.slot = none → ∀ n cmd, n < s'.finished →
      s'.taken[n]?.bind decode = some cmd → cmd.id = call.cmd.id → n < s.finished) :
    s'.CallInv decode db₀ i call := by
  constructor
  · rw [hpending]
    exact h.own
  · rw [hpending]
    exact fun hphase => ⟨(h.fresh hphase).1, (h.fresh hphase).2.1, hafter⟩
  · intro n o hslot
    rw [hpending, htaken]
    exact ⟨(h.slot n o hslot).1, (h.slot n o hslot).2.append rest⟩
  · exact fun o ho => absurd ho (hafter o)
  · intro hl hslot
    rw [hpending]
    rcases h.listens hl hslot with hp | ⟨o, ho⟩
    · exact .inl hp
    · exact absurd ho (hbefore hl hslot o)
  · intro since hphase hslot n cmd hle hlt hn hid
    have hl : call.listens = true := by
      unfold Submit.listens
      rw [hphase]
    have hold := hfinished hl hslot n cmd hlt hn hid
    refine h.missed since hphase hslot n cmd hle hold ?_ hid
    rwa [htaken, List.getElem?_append_left (hold.trans_le s.finished_le_length)] at hn
  · intro n o hphase
    rw [htaken]
    exact (h.answered n o hphase).append rest
  · rw [hpending]
    exact h.swept

theorem Inv.take (h : s.Inv decode db₀) (hstage : s.stage = .idle) {entry : Command}
    {queue : List Command} {stage : LoopStage}
    (hdecode : decode entry = none ∧ stage = .idle ∨
      ∃ cmd, decode entry = some cmd ∧ stage = .decoded cmd) :
    ({ s with queue, taken := s.taken ++ [entry], stage } : Replica).Inv decode db₀ := by
  have hnot : ∀ (i : ℕ) o, stage ≠ .resolved i o := by
    rintro i o rfl
    rcases hdecode with ⟨-, h⟩ | ⟨cmd, -, h⟩ <;> cases h
  have hdb := h.loop.db
  rw [applied_eq_length (by simp [hstage]), List.take_length] at hdb
  refine ⟨⟨?_, ?_, ?_, ?_⟩, h.distinct, h.pending, ?_⟩
  · rcases hdecode with ⟨hnone, rfl⟩ | ⟨cmd, hsome, rfl⟩
    · simp only [applied, List.take_length]
      rw [dbAfterEntries_concat, hnone, hdb]
    · simp [applied, hdb]
  · rcases hdecode with ⟨hnone, rfl⟩ | ⟨cmd, hsome, rfl⟩
    · exact fun cmd hcmd => by cases hcmd
    · rintro cmd' hcmd
      cases hcmd
      simp [hsome]
  · intro id o ho
    rcases hdecode with ⟨-, rfl⟩ | ⟨cmd, -, rfl⟩ <;> cases ho
  · exact fun i o ho => absurd ho (hnot i o)
  · intro i call hi
    refine (h.call i call hi).advance rfl rfl ?_ (hnot i) ?_
    · intro _ _ o ho
      rw [hstage] at ho
      cases ho
    · intro _ _ n cmd hlt hn _
      have hfin : s.finished = s.taken.length := by
        unfold finished
        rw [hstage]
      rcases hdecode with ⟨hnone, rfl⟩ | ⟨cmd', -, rfl⟩
      · -- the entry that is skipped is nobody's
        simp only [finished, List.length_append, List.length_singleton] at hlt
        rw [hfin]
        by_contra hge
        have heq : n = s.taken.length := by omega
        rw [heq] at hn
        simp [hnone] at hn
      · rw [hfin]
        simpa [finished] using hlt

theorem Inv.apply (h : s.Inv decode db₀) {cmd : StoreCommand} (hstage : s.stage = .decoded cmd) :
    ({ s with
      db := (ApiServer.apply Faults.none s.db cmd).db
      stage := .applied cmd.id (ApiServer.apply Faults.none s.db cmd).outcome } :
      Replica).Inv decode db₀ := by
  obtain ⟨hpos, hlast⟩ := h.loop.decoded cmd hstage
  obtain ⟨entry, hentry, hdecode⟩ := Option.bind_eq_some_iff.mp hlast
  have happlied : s.applied = s.taken.length - 1 := by
    unfold applied
    rw [hstage]
  have hdb := h.loop.db
  rw [happlied] at hdb
  have hsplit : s.taken = s.taken.take (s.taken.length - 1) ++ [entry] := by
    obtain ⟨hlt, hget⟩ := List.getElem?_eq_some_iff.mp hentry
    rw [← hget, List.take_concat_get', Nat.sub_add_cancel hpos, List.take_length]
  refine ⟨⟨?_, ?_, ?_, ?_⟩, h.distinct, h.pending, ?_⟩
  · simp only [applied, List.take_length]
    conv_rhs => rw [hsplit]
    rw [dbAfterEntries_concat, hdecode, ← hdb]
  · exact fun _ hcmd => by cases hcmd
  · intro id o ho
    cases ho
    exact ⟨entry, cmd, hentry, hdecode, rfl, by rw [← hdb]⟩
  · exact fun _ _ ho => by cases ho
  · intro i call hi
    refine (h.call i call hi).advance (List.append_nil _).symm rfl ?_ ?_ ?_
    · intro _ _ o ho
      rw [hstage] at ho
      cases ho
    · exact fun o ho => by cases ho
    · intro _ _ n _ hlt _ _
      simpa [finished, hstage] using hlt

theorem Inv.resolve (h : s.Inv decode db₀) {id : Uuid} {o : ApplyOutcome}
    (hstage : s.stage = .applied id o) (hi : s.pending id = some i) :
    ({ s with pending := Function.update s.pending id none, stage := .resolved i o } :
      Replica).Inv decode db₀ := by
  obtain ⟨call, hcall, rfl⟩ := h.pending id i hi
  have hprod := h.loop.applied _ o hstage
  have hfin : s.finished = s.taken.length - 1 := by
    unfold finished
    rw [hstage]
  refine ⟨⟨?_, ?_, ?_, ?_⟩, h.distinct, ?_, ?_⟩
  · have hdb := h.loop.db
    rwa [applied_eq_length (by simp [hstage])] at hdb
  · exact fun _ hcmd => by cases hcmd
  · exact fun _ _ ho => by cases ho
  · intro j o' ho
    cases ho
    exact ⟨call, hcall, hprod⟩
  · intro id j hj
    simp only [Function.update_apply] at hj
    split at hj
    · cases hj
    · exact h.pending id j hj
  · intro j call' hj
    by_cases hij : i = j
    · subst hij
      obtain rfl := Option.some.inj (hcall.symm.trans hj)
      have hinv := h.call i call hcall
      have hnone : Function.update s.pending call.cmd.id none call.cmd.id = none :=
        Function.update_self ..
      constructor
      · intro k hk
        cases hnone.symm.trans hk
      · intro hphase
        cases (hinv.fresh hphase).1.symm.trans hi
      · exact fun n o' hslot => ⟨hnone, (hinv.slot n o' hslot).2⟩
      · exact fun _ _ => hnone
      · exact fun _ _ => .inr ⟨o, rfl⟩
      · intro since hphase hslot n cmd hle hlt
        refine hinv.missed since hphase hslot n cmd hle ?_
        rw [hfin]
        exact hlt
      · exact hinv.answered
      · exact fun _ => hnone
    · refine (h.call j call' hj).advance (List.append_nil _).symm ?_ ?_ ?_ ?_
      · exact Function.update_of_ne (fun hid => hij (h.distinct i j call call' hcall hj hid.symm)) ..
      · intro _ _ o' ho'
        rw [hstage] at ho'
        cases ho'
      · rintro o' ho'
        cases ho'
        exact hij rfl
      · intro _ _ n cmd hlt _ _
        rw [hfin]
        exact hlt

/-- `apply_loop` is through with all that it has taken. -/
theorem Inv.finish (h : s.Inv decode db₀) {stage : LoopStage}
    (hstage : stage = .idle ∨ stage = .stopped) (hdecoded : ∀ cmd, s.stage ≠ .decoded cmd)
    (hbefore : ∀ (i : ℕ) (call : Submit), s.submits[i]? = some call → call.listens = true →
      call.slot = none → ∀ o, s.stage ≠ .resolved i o)
    (hfinished : ∀ (i : ℕ) (call : Submit), s.submits[i]? = some call → call.listens = true →
      call.slot = none → ∀ n cmd, n < s.taken.length → s.taken[n]?.bind decode = some cmd →
        cmd.id = call.cmd.id → n < s.finished) :
    ({ s with stage } : Replica).Inv decode db₀ := by
  refine ⟨⟨?_, ?_, ?_, ?_⟩, h.distinct, h.pending, ?_⟩
  · have hdb := h.loop.db
    rw [applied_eq_length hdecoded] at hdb
    rcases hstage with rfl | rfl <;> exact hdb
  · intro cmd hcmd
    rcases hstage with rfl | rfl <;> cases hcmd
  · intro id o ho
    rcases hstage with rfl | rfl <;> cases ho
  · intro i o ho
    rcases hstage with rfl | rfl <;> cases ho
  · intro i call hi
    refine (h.call i call hi).advance (List.append_nil _).symm rfl (hbefore i call hi) ?_ ?_
    · intro o ho
      rcases hstage with rfl | rfl <;> cases ho
    · intro hl hslot n cmd hlt
      refine hfinished i call hi hl hslot n cmd ?_
      rcases hstage with rfl | rfl <;> exact hlt

theorem Inv.unclaimed (h : s.Inv decode db₀) {id : Uuid} {o : ApplyOutcome}
    (hstage : s.stage = .applied id o) (hnone : s.pending id = none) :
    ({ s with stage := .idle } : Replica).Inv decode db₀ := by
  have hnot : ∀ i o', s.stage ≠ .resolved i o' := by
    intro i o' ho'
    rw [hstage] at ho'
    cases ho'
  refine h.finish (.inl rfl) (by simp [hstage]) (fun i _ _ _ _ => hnot i) ?_
  intro i call hi hl hslot n cmd hlt hn hid
  -- a call that listens is in the map, and nothing is under the id of the entry
  have hne : cmd.id ≠ id := by
    rintro rfl
    rcases (h.call i call hi).listens hl hslot with hp | ⟨o', ho'⟩
    · rw [← hid, hnone] at hp
      cases hp
    · exact hnot i o' ho'
  unfold finished
  rw [hstage]
  exact (h.loop.applied id o hstage).last hlt hn hne

theorem Inv.delivered (h : s.Inv decode db₀) {o : ApplyOutcome} (hstage : s.stage = .resolved i o)
    (hi : s.submits[i]? = some call) (hheard : call.listens = true → call.slot ≠ none) :
    ({ s with stage := .idle } : Replica).Inv decode db₀ := by
  obtain ⟨call₀, hcall₀, hprod⟩ := h.loop.resolved i o hstage
  obtain rfl := Option.some.inj (hi.symm.trans hcall₀)
  have hne : ∀ (j : ℕ) (call' : Submit), s.submits[j]? = some call' → call'.listens = true →
      call'.slot = none → j ≠ i := by
    rintro j call' hj hl hslot rfl
    obtain rfl := Option.some.inj (hi.symm.trans hj)
    exact hheard hl hslot
  refine h.finish (.inl rfl) (by simp [hstage]) ?_ ?_
  · intro j call' hj hl hslot o' ho'
    rw [hstage] at ho'
    cases ho'
    exact hne _ call' hj hl hslot rfl
  · intro j call' hj hl hslot n cmd hlt hn hid
    have hother : cmd.id ≠ call.cmd.id := fun heq =>
      hne j call' hj hl hslot (h.distinct j i call' call hj hi (hid.symm.trans heq))
    unfold finished
    rw [hstage]
    exact hprod.last hlt hn hother

theorem Inv.send (h : s.Inv decode db₀) {o : ApplyOutcome} (hstage : s.stage = .resolved i o)
    (hi : s.submits[i]? = some call) (hl : call.listens = true) :
    ({ s with
      stage := .idle
      submits := s.submits.set i { call with slot := some (s.taken.length - 1, o) } } :
      Replica).Inv decode db₀ := by
  have hinv := h.call i call hi
  obtain ⟨call₀, hcall₀, hprod⟩ := h.loop.resolved i o hstage
  obtain rfl := Option.some.inj (hi.symm.trans hcall₀)
  have hnone := hinv.resolved o hstage
  set call' : Submit := { call with slot := some (s.taken.length - 1, o) } with hcall'
  have hphase : call.phase ≠ .gated ∧ (∀ n o', call.phase ≠ .answered n o') ∧
      call'.result = none := by
    unfold Submit.listens at hl
    unfold Submit.result
    rw [hcall']
    simp only
    split at hl <;> simp_all
  have hsent : ({ s with submits := s.submits.set i call' } : Replica).Inv decode db₀ := by
    refine h.set hi call' rfl hinv.own (by rw [Function.update_eq_self]) ⟨?_, ?_, ?_, ?_, ?_, ?_, ?_, ?_⟩
    · exact hinv.own
    · exact fun hgated => absurd hgated hphase.1
    · rintro n o' hslot
      cases hslot
      exact ⟨hnone, hprod⟩
    · exact hinv.resolved
    · exact fun _ hslot => by cases hslot
    · exact fun _ _ hslot => by cases hslot
    · exact fun n o' ha => absurd ha (hphase.2.1 n o')
    · intro hresult
      rw [hphase.2.2] at hresult
      cases hresult
  have hlt : i < s.submits.length := (List.getElem?_eq_some_iff.mp hi).1
  have hi' : (s.submits.set i call')[i]? = some call' := by simp [hlt]
  exact hsent.delivered hstage hi' fun _ hslot => by cases hslot

theorem Inv.turn (h : s.Inv decode db₀) : (s.loop decode).Inv decode db₀ := by
  unfold Replica.loop
  split
  · rename_i hstage
    split
    · exact h
    · rename_i entry queue hqueue
      refine h.take hstage ?_
      cases decode entry with
      | none => exact .inl ⟨rfl, rfl⟩
      | some cmd => exact .inr ⟨cmd, rfl, rfl⟩
  · rename_i cmd hstage
    exact h.apply hstage
  · rename_i id o hstage
    split
    · rename_i i hi
      exact h.resolve hstage hi
    · rename_i hnone
      exact h.unclaimed hstage hnone
  · rename_i i o hstage
    split
    · rename_i call hi
      split
      · rename_i hl
        exact h.send hstage hi hl
      · rename_i hl
        exact h.delivered hstage hi fun hl' => absurd hl' hl
    · rename_i hnone
      obtain ⟨call, hcall, -⟩ := h.loop.resolved i o hstage
      rw [hnone] at hcall
      cases hcall
  · exact h

theorem Inv.cancel (h : s.Inv decode db₀) (hstage : s.stage = .idle) :
    ({ s with stage := .stopped } : Replica).Inv decode db₀ := by
  refine h.finish (.inr rfl) (by simp [hstage]) ?_ ?_
  · intro _ _ _ _ _ o ho
    rw [hstage] at ho
    cases ho
  · intro _ _ _ _ _ n _ hlt _ _
    unfold finished
    rw [hstage]
    exact hlt

theorem Inv.step (h : s.Inv decode db₀) {act : SubmitAct}
    (hfresh : ∀ id, act.id = some id → ∀ call ∈ s.submits, call.cmd.id ≠ id) :
    (s.step decode act).Inv decode db₀ := by
  cases act with
  | submit cmd proposer =>
    refine h.submit ?_ (hfresh cmd.id rfl)
    cases proposer.ensureLeader with
    | ok u => exact .inl rfl
    | error e => exact .inr ⟨e, rfl⟩
  | register i =>
    simp only [Replica.step]
    split
    · rename_i cmd slot hi
      exact h.register hi
    · exact h
  | propose i closed =>
    simp only [Replica.step]
    split
    · rename_i cmd slot hi
      refine h.setPhase hi ?_ (fun _ => rfl) ?_ ?_ ?_
      · cases closed <;> simp
      · cases closed <;> simp
      · cases closed <;> simp
      · cases closed <;> simp
    · exact h
  | receive i =>
    simp only [Replica.step]
    split
    · rename_i cmd since n o hi
      refine h.setPhase hi (by simp) (fun hl => by cases hl) (by simp) ?_ (by simp)
      rintro n' o' ⟨⟩
      rfl
    · exact h
  | expire i =>
    simp only [Replica.step]
    split
    · rename_i cmd since hi
      exact h.setPhase hi (by simp) (fun hl => by cases hl) (by simp) (by simp) (by simp)
    · exact h
  | sweep i =>
    simp only [Replica.step]
    split
    · rename_i cmd e slot hi
      exact h.sweep hi
    · exact h
  | drop i =>
    simp only [Replica.step]
    split
    · rename_i call hi
      split
      · exact h.setPhase hi (by simp) (fun hl => by cases hl) (by simp) (by simp) (by simp)
      · exact h
    · exact h
  | commit entry =>
    refine ⟨⟨h.loop.db, h.loop.decoded, h.loop.applied, h.loop.resolved⟩, h.distinct, h.pending, ?_⟩
    exact fun i call hi => (h.call i call hi).congr rfl rfl rfl
  | loop => exact h.turn
  | cancel =>
    simp only [Replica.step]
    split
    · rename_i hstage
      exact h.cancel hstage
    · exact h

/-! ## The ids -/

theorem ids_set (hi : s.submits[i]? = some call) {call' : Submit} (hcmd : call'.cmd = call.cmd) :
    (s.submits.set i call').map (·.cmd.id) = s.submits.map (·.cmd.id) := by
  have hcmds := congrArg (List.map StoreCommand.id) (cmds_set hi hcmd)
  rwa [List.map_map, List.map_map] at hcmds

theorem ids_step (decode : Command → Option StoreCommand) (s : Replica) (act : SubmitAct) :
    (s.step decode act).submits.map (·.cmd.id) = s.submits.map (·.cmd.id) ++ act.id.toList := by
  cases act with
  | submit cmd proposer => simp [Replica.step, SubmitAct.id]
  | commit entry => simp [Replica.step, SubmitAct.id]
  | cancel =>
    simp only [Replica.step, SubmitAct.id, Option.toList_none, List.append_nil]
    split <;> rfl
  | loop =>
    simp only [Replica.step, SubmitAct.id, Option.toList_none, List.append_nil]
    unfold Replica.loop
    split
    · split <;> rfl
    · rfl
    · split <;> rfl
    · split
      · rename_i i o hstage call hi
        split
        · exact ids_set hi rfl
        · rfl
      · rfl
    · rfl
  | drop i =>
    simp only [Replica.step, SubmitAct.id, Option.toList_none, List.append_nil]
    split
    · rename_i call hi
      split
      · exact ids_set hi rfl
      · rfl
    · rfl
  | _ =>
    simp only [Replica.step, SubmitAct.id, Option.toList_none, List.append_nil]
    split
    · rename_i hi
      exact ids_set hi rfl
    · rfl

theorem ids_run (decode : Command → Option StoreCommand) (s : Replica) (acts : List SubmitAct) :
    (s.run decode acts).submits.map (·.cmd.id) =
      s.submits.map (·.cmd.id) ++ acts.filterMap SubmitAct.id := by
  induction acts generalizing s with
  | nil => simp [Replica.run]
  | cons act acts ih =>
    have hstep := ih (s.step decode act)
    rw [ids_step, List.append_assoc] at hstep
    refine hstep.trans (congrArg _ ?_)
    rw [List.filterMap_cons]
    cases act.id <;> rfl

theorem Inv.run {acts : List SubmitAct} (hids : (acts.filterMap SubmitAct.id).Nodup) :
    ∀ past, past <+: acts → ((start db₀).run decode past).Inv decode db₀ := by
  have hstep : ∀ past act, past ++ [act] <+: acts → ∀ id, act.id = some id →
      ∀ call ∈ ((start db₀).run decode past).submits, call.cmd.id ≠ id := by
    rintro past act hp id hid call hcall rfl
    have hmem : call.cmd.id ∈ past.filterMap SubmitAct.id := by
      have hrun := ids_run decode (start db₀) past
      rw [start, List.map_nil, List.nil_append] at hrun
      rw [← hrun]
      exact List.mem_map_of_mem hcall
    have hnodup := (hp.sublist.filterMap SubmitAct.id).nodup hids
    rw [List.filterMap_append, List.filterMap_cons, hid] at hnodup
    exact (List.nodup_append.mp hnodup).2.2 _ hmem _ List.mem_cons_self rfl
  exact fun past hp => Runs.invariant_of_ok (fun s act hs hok => hs.step hok) inv_start hstep past hp

end Replica

end Invariant

/-! ## The outcomes -/

/-- What `submit` is for: it returns the outcome that this replica's application of an entry with its
id has produced, no two calls return the outcome of one application, and the map forgets the id. As
long as nothing is in the channel, `apply_loop` is through with no entry of the id that it has
applied since the proposal was sent. -/
structure Replica.Faithful (decode : Command → Option StoreCommand) (db₀ : Db) (s : Replica) :
    Prop where
  own : ∀ (i : ℕ) (call : Submit) n o, s.submits[i]? = some call → call.phase = .answered n o →
    call.result = some (outcomeToResult o) ∧ Produced decode db₀ s.taken n call.cmd.id o
  unshared : ∀ (i j : ℕ) (call call' : Submit) n o o', s.submits[i]? = some call →
    s.submits[j]? = some call' → call.phase = .answered n o → call'.phase = .answered n o' → i = j
  missed : ∀ (i : ℕ) (call : Submit) since, s.submits[i]? = some call →
    call.phase = .waiting since → call.slot = none → ∀ n cmd, since ≤ n → n < s.finished →
      s.taken[n]?.bind decode = some cmd → cmd.id ≠ call.cmd.id
  swept : ∀ (i : ℕ) (call : Submit), s.submits[i]? = some call → call.result.isSome →
    s.pending call.cmd.id = none

theorem Replica.Inv.faithful {decode : Command → Option StoreCommand} {db₀ : Db} {s : Replica}
    (h : s.Inv decode db₀) : s.Faithful decode db₀ where
  own i call n o hi hphase := by
    refine ⟨?_, (h.call i call hi).answered n o hphase⟩
    unfold Submit.result
    rw [hphase]
  unshared i j call call' n o o' hi hj hphase hphase' :=
    h.distinct i j call call' hi hj
      (((h.call i call hi).answered n o hphase).unique ((h.call j call' hj).answered n o' hphase'))
  missed i call since hi hphase hslot := (h.call i call hi).missed since hphase hslot
  swept i call hi := (h.call i call hi).swept

/-- **Submitting a command.** In every run of a replica in which no two calls submit the same id,
whatever the log brings and whenever the calls give up, they are answered faithfully. -/
theorem submit_faithful (decode : Command → Option StoreCommand) (db₀ : Db)
    (acts : List SubmitAct) (hids : (acts.filterMap SubmitAct.id).Nodup) :
    ∀ past, past <+: acts → ((Replica.start db₀).run decode past).Faithful decode db₀ :=
  fun past hp => (Replica.Inv.run hids past hp).faithful

/-- The creation of a pod, as entry `[1]`. -/
def createEntry : Command → Option StoreCommand
  | [1] => some ⟨1, "pods/", .create (Serde.toValue (samplePod "web" none none))⟩
  | _ => none

/-- It is submitted, committed and applied. -/
def applying : List SubmitAct :=
  [.submit ⟨1, "pods/", .create (Serde.toValue (samplePod "web" none none))⟩
      ⟨1, some 1, fun _ => none⟩,
    .register 0, .propose 0 false, .commit [1], .loop, .loop]

theorem submit_faithful_create :
    ((Replica.start ∅).run createEntry (applying ++ [.loop, .loop, .receive 0])).Faithful
      createEntry ∅ :=
  submit_faithful createEntry ∅ (applying ++ [.loop, .loop, .receive 0]) (by decide) _
    List.prefix_rfl

/-- The pod is created before the call gives up, and the call returns that it is not. -/
theorem submit_misses_apply :
    let s := (Replica.start ∅).run createEntry applying
    (∃ call, s.submits[0]? = some call ∧ call.phase = .waiting 0) ∧ s.applied = 1 ∧
      (s.db["pods/web"]?.isSome = true) ∧
      ∃ call, (s.run createEntry [.expire 0, .sweep 0, .loop]).submits[0]? = some call ∧
        call.result = some (.error (.internal "write timed out (not committed)")) := by
  exact ⟨⟨_, rfl, rfl⟩, by decide +kernel, by decide +kernel, _, rfl, rfl⟩

end MyK8s.ApiServer
