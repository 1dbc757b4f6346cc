import MyK8s.Controller.Manager

/-!
# What fails is tried again

The worker loop with its rate limiter, for any tasks. A key whose reconcile has failed since it last succeeded
is ready, or waits for the end of a delay, or is at the worker; the delay grows with its failures in a row
(`retry_law`).
-/

namespace MyK8s.Controller

open ApiServer

/-! ## The delays -/

/-- The first delay is the base, and each one is twice the one before, up to the bound. -/
theorem backoffFor_eq (n : UInt32) : backoffFor n = min (500 * 2 ^ (n.toNat - 1)) 300000 := by
  show min (min (500 * 2 ^ min (n.toNat - 1) 20) (2 ^ 64 - 1)) 300000 = _
  by_cases hn : n.toNat - 1 ≤ 20
  · have hpow : 2 ^ (n.toNat - 1) ≤ 2 ^ 20 := Nat.pow_le_pow_right (by decide) hn
    rw [Nat.min_eq_left hn]
    omega
  · have hpow : 2 ^ 20 ≤ 2 ^ (n.toNat - 1) := Nat.pow_le_pow_right (by decide) (by omega)
    have hexp : min (n.toNat - 1) 20 = 20 := by omega
    rw [hexp]
    omega

namespace Manager

variable {ι : Type} [DecidableEq ι] {C : Tasks ι}

/-! ## Failures in a row -/

/-- The failures of a key in a row, after one more act. -/
def streakStep (m : Manager C) (k : String) (n : ℕ) : ManagerAct ι → ℕ
  | .crash => 0
  | .finish =>
    match m.worker with
    | some (key, .ret r) =>
      if key = k then
        match r with
        | .ok _ => 0
        | .error _ => n + 1
      else n
    | _ => n
  | _ => n

/-- The failures of a key since its reconcile succeeded the last time, or the manager was started. -/
def streak (m : Manager C) (acts : List (ManagerAct ι)) (k : String) : ℕ :=
  (acts.foldl (fun (s : Manager C × ℕ) act => (s.1.step act, s.1.streakStep k s.2 act)) (m, 0)).2

theorem streak_concat (m : Manager C) (acts : List (ManagerAct ι)) (act : ManagerAct ι) (k : String) :
    m.streak (acts ++ [act]) k = (m.run acts).streakStep k (m.streak acts k) act := by
  have hfst : ∀ acts : List (ManagerAct ι), (acts.foldl (fun (s : Manager C × ℕ) act =>
      (s.1.step act, s.1.streakStep k s.2 act)) (m, 0)).1 = m.run acts := by
    intro acts
    induction acts using List.reverseRecOn with
    | nil => rfl
    | append_singleton acts act ih => rw [List.foldl_concat, run_concat, ih]
  unfold streak
  rw [List.foldl_concat, hfst]

/-! ## What the worker loop keeps -/

/-- A key that is to be tried again. -/
def Due (m : Manager C) (k : String) : Prop :=
  k ∈ m.queue.dirty ∨ (∃ delay, (k, delay) ∈ m.timers) ∨ m.Working k

/-- What holds of the queue, the limiter and the delays, where a key has failed so many times in a row. -/
structure Retrying (m : Manager C) (streak : String → ℕ) : Prop where
  ready : m.queue.Ready
  processing : ∀ k, k ∈ m.queue.processing ↔ m.Working k
  count : ∀ k, m.limiter.failures[k]?.getD 0 = UInt32.ofNat (streak k)
  due : ∀ k, 0 < streak k → m.Due k

variable {m m' : Manager C} {s : String → ℕ} {k key : String}

omit [DecidableEq ι] in
theorem retrying_start (db : Db) : (start db : Manager C).Retrying fun _ => 0 where
  ready := WorkQueue.ready_new
  processing k := by
    refine iff_of_false (Finset.notMem_empty k) ?_
    rintro ⟨job, hjob⟩
    cases hjob
  count k := by
    show ((∅ : Std.ExtTreeMap String UInt32)[k]?).getD (0 : UInt32) = 0
    simp
  due k hk := absurd hk (lt_irrefl 0)

omit [DecidableEq ι] in
/-- Where the worker loop does nothing. -/
theorem Retrying.congr (h : m.Retrying s) (hqueue : m'.queue = m.queue) (hlimiter : m'.limiter = m.limiter)
    (htimers : m'.timers = m.timers) (hworker : ∀ k, m'.Working k ↔ m.Working k) : m'.Retrying s where
  ready := hqueue ▸ h.ready
  processing k := by rw [hqueue, h.processing, hworker]
  count k := by rw [hlimiter, h.count]
  due k hk := by
    unfold Due
    rw [hqueue, htimers, hworker]
    exact h.due k hk

omit [DecidableEq ι] in
/-- A key is added. -/
theorem Retrying.add (h : m.Retrying s) (key : String) : ({ m with queue := m.queue.add key } : Manager C).Retrying s where
  ready := h.ready.add
  processing k := by
    show k ∈ (m.queue.add key).processing ↔ _
    rw [WorkQueue.processing_add]
    exact h.processing k
  count := h.count
  due k hk := (h.due k hk).imp_left fun hd => WorkQueue.mem_dirty_add.mpr (.inr hd)

omit [DecidableEq ι] in
theorem Retrying.addAll (h : m.Retrying s) (keys : List String) :
    ({ m with queue := Manager.addAll m.queue keys } : Manager C).Retrying s := by
  induction keys generalizing m with
  | nil => exact h
  | cons key keys ih => exact ih (h.add key)

/-! ## The acts -/

theorem Retrying.fire (h : m.Retrying s) (n : ℕ) : (m.step (.fire n)).Retrying s := by
  cases hn : m.timers[n]? with
  | none => simpa only [step, hn] using h
  | some timer =>
    obtain ⟨key, delay⟩ := timer
    simp only [step, hn]
    have hadd := h.add key
    refine ⟨hadd.ready, hadd.processing, hadd.count, fun k hk => ?_⟩
    rcases h.due k hk with hd | ⟨d, hd⟩ | hworking
    · exact .inl (WorkQueue.mem_dirty_add.mpr (.inr hd))
    · by_cases heq : k = key
      · exact .inl (WorkQueue.mem_dirty_add.mpr (.inl heq))
      · exact .inr (.inl ⟨d, mem_eraseIdx_of_ne hn hd heq⟩)
    · exact .inr (.inr hworking)

theorem Retrying.get (h : m.Retrying s) (stamp : Stamp) : (m.step (.get stamp)).Retrying s := by
  simp only [step]
  split
  · rename_i key queue hworker hget
    have hready := h.ready.tryGet
    rw [hget] at hready
    have hidle : ∀ k, ¬ m.Working k := by
      rintro k ⟨job, hjob⟩
      rw [hworker] at hjob
      cases hjob
    have hworking : ∀ k, (∃ job, some (key, (C.reconcile stamp key).run) = some (k, job)) ↔ key = k := by
      intro k
      constructor
      · rintro ⟨job, hjob⟩
        exact congrArg Prod.fst (Option.some.inj hjob)
      · rintro rfl
        exact ⟨_, rfl⟩
    refine ⟨hready, fun k => ?_, h.count, fun k hk => ?_⟩
    · have hmem := @WorkQueue.mem_processing_tryGet m.queue k
      rw [hget] at hmem
      refine hmem.trans ((or_iff_right ?_).trans ?_)
      · exact fun hp => hidle k ((h.processing k).mp hp)
      · rw [Option.some.injEq]
        exact (hworking k).symm
    · rcases h.due k hk with hd | htimer | hno
      · by_cases heq : key = k
        · exact .inr (.inr ((hworking k).mpr heq))
        · have hmem := (@WorkQueue.mem_dirty_tryGet m.queue k).mpr
            ⟨hd, fun hhands => heq (Option.some.inj ((congrArg Prod.fst hget).symm.trans hhands))⟩
          rw [hget] at hmem
          exact .inl hmem
      · exact .inr (.inl htimer)
      · exact absurd hno (hidle k)
  · exact h

omit [DecidableEq ι] in
/-- The worker has finished a key. -/
theorem Retrying.finish {r : Except ClientError Unit} {job : Job} (h : m.Retrying s)
    (hworker : m.worker = some (key, job)) : (m.finish key r).Retrying fun k =>
      if key = k then
        match r with
        | .ok _ => 0
        | .error _ => s k + 1
      else s k := by
  have hhas : key ∈ m.queue.processing := (h.processing key).mpr ⟨job, hworker⟩
  have hothers : ∀ k, m.Working k → key = k := by
    rintro k ⟨job', hjob'⟩
    exact congrArg Prod.fst (Option.some.inj (hworker.symm.trans hjob'))
  have hprocessing : ∀ k, k ∈ (m.queue.done key).processing ↔ False := by
    intro k
    rw [WorkQueue.processing_done, Finset.mem_erase, h.processing, iff_false, not_and]
    exact fun hne hworking => hne (hothers k hworking).symm
  have hidle : ∀ k, (∃ job', (none : Option (String × Job)) = some (k, job')) ↔ False := by
    refine fun k => iff_false_intro ?_
    rintro ⟨job', hno⟩
    cases hno
  cases r with
  | ok a =>
    refine ⟨h.ready.done hhas, fun k => (hprocessing k).trans (hidle k).symm, fun k => ?_, fun k hk => ?_⟩
    · show (m.limiter.failures.erase key)[k]?.getD 0 = _
      rw [Std.ExtTreeMap.getElem?_erase]
      by_cases heq : key = k
      · simp [heq]
      · simp [heq, h.count k]
    · by_cases heq : key = k
      · simp [heq] at hk
      · simp only [heq, if_false] at hk
        rcases h.due k hk with hd | htimer | hworking
        · exact .inl (by rwa [show (m.finish key (.ok a)).queue.dirty = (m.queue.done key).dirty from rfl,
            WorkQueue.dirty_done])
        · exact .inr (.inl htimer)
        · exact absurd (hothers k hworking) heq
  | error e =>
    refine ⟨h.ready.done hhas, fun k => (hprocessing k).trans (hidle k).symm, fun k => ?_, fun k hk => ?_⟩
    · show (m.limiter.failures.insert key _)[k]?.getD 0 = _
      rw [Std.ExtTreeMap.getElem?_insert]
      by_cases heq : key = k
      · subst heq
        simp [h.count key]
      · simp [heq, h.count k]
    · by_cases heq : key = k
      · subst heq
        exact .inr (.inl ⟨_, List.mem_append_right _ List.mem_cons_self⟩)
      · simp only [heq, if_false] at hk
        rcases h.due k hk with hd | ⟨delay, htimer⟩ | hworking
        · exact .inl (by rwa [show (m.finish key (.error e)).queue.dirty = (m.queue.done key).dirty from rfl,
            WorkQueue.dirty_done])
        · exact .inr (.inl ⟨delay, List.mem_append_left _ htimer⟩)
        · exact absurd (hothers k hworking) heq

omit [DecidableEq ι] in
/-- The worker goes on with its key. -/
theorem working_congr {job job' : Job} (hold : m.worker = some (key, job))
    (hnew : m'.worker = some (key, job')) (k : String) : m'.Working k ↔ m.Working k := by
  unfold Working
  rw [hold, hnew]
  constructor
  · rintro ⟨j, hj⟩
    obtain ⟨rfl, -⟩ := Prod.mk.inj (Option.some.inj hj)
    exact ⟨job, rfl⟩
  · rintro ⟨j, hj⟩
    obtain ⟨rfl, -⟩ := Prod.mk.inj (Option.some.inj hj)
    exact ⟨job', rfl⟩

/-- **What one act keeps.** -/
theorem Retrying.step (h : m.Retrying s) (act : ManagerAct ι) :
    (m.step act).Retrying fun k => m.streakStep k (s k) act := by
  cases act with
  | write w => exact h.congr rfl rfl rfl fun _ => Iff.rfl
  | connect i =>
    simp only [Manager.step]
    split
    · exact h.congr rfl rfl rfl fun _ => Iff.rfl
    · exact h
  | poll i => exact h.congr rfl rfl rfl fun _ => Iff.rfl
  | disconnect i => exact h.congr rfl rfl rfl fun _ => Iff.rfl
  | handle i answered =>
    simp only [Manager.step]
    split
    · rename_i phase queue event rest _
      split
      · exact h.congr rfl rfl rfl fun _ => Iff.rfl
      · exact (h.addAll (C.keys i m.db event)).congr rfl rfl rfl fun _ => Iff.rfl
    · exact h
  | resync => exact (h.addAll (C.resync m.db)).congr rfl rfl rfl fun _ => Iff.rfl
  | get stamp => exact h.get stamp
  | access =>
    simp only [Manager.step]
    split
    · rename_i key next hworker
      exact h.congr rfl rfl rfl (working_congr hworker rfl)
    · rename_i key call next hworker
      exact h.congr rfl rfl rfl (working_congr hworker rfl)
    · exact h
  | fail e done =>
    simp only [Manager.step]
    split
    · rename_i key call next hworker
      cases done <;> exact h.congr rfl rfl rfl (working_congr hworker rfl)
    · exact h
  | unreachable e =>
    simp only [Manager.step]
    split
    · rename_i key next hworker
      exact h.congr rfl rfl rfl (working_congr hworker rfl)
    · exact h
  | finish =>
    cases hworker : m.worker with
    | none => simpa only [Manager.step, streakStep, hworker] using h
    | some work =>
      obtain ⟨key, job⟩ := work
      cases job with
      | ret r => simpa only [Manager.step, streakStep, hworker] using h.finish (r := r) hworker
      | read next => simpa only [Manager.step, streakStep, hworker] using h
      | write call next => simpa only [Manager.step, streakStep, hworker] using h
  | fire n => exact h.fire n
  | crash => exact retrying_start m.db

theorem retrying_run (db : Db) (acts : List (ManagerAct ι)) :
    ((start db : Manager C).run acts).Retrying fun k => (start db : Manager C).streak acts k := by
  induction acts using List.reverseRecOn with
  | nil => exact retrying_start db
  | append_singleton acts act ih =>
    rw [run_concat]
    simp only [streak_concat]
    exact ih.step act

/-- A delay that an act adds is the one for the failures by then. -/
theorem mem_timers_step {act : ManagerAct ι} (h : m.Retrying s) {delay : ℕ}
    (htimer : (k, delay) ∈ (m.step act).timers) : (k, delay) ∈ m.timers ∨
      0 < m.streakStep k (s k) act ∧ delay = backoffFor (UInt32.ofNat (m.streakStep k (s k) act)) := by
  cases act with
  | finish =>
    cases hworker : m.worker with
    | none =>
      simp only [step, hworker] at htimer
      exact .inl htimer
    | some work =>
      obtain ⟨key, job⟩ := work
      cases job with
      | read next =>
        simp only [step, hworker] at htimer
        exact .inl htimer
      | write call next =>
        simp only [step, hworker] at htimer
        exact .inl htimer
      | ret r =>
        simp only [step, hworker] at htimer
        cases r with
        | ok a => exact .inl htimer
        | error e =>
          rcases List.mem_append.mp htimer with hold | hnew
          · exact .inl hold
          · right
            obtain ⟨rfl, rfl⟩ := Prod.mk.inj (List.mem_singleton.mp hnew)
            simp only [streakStep, hworker, if_true]
            refine ⟨Nat.succ_pos _, congrArg backoffFor ?_⟩
            show m.limiter.failures[k]?.getD 0 + 1 = _
            rw [h.count k]
            simp
  | fire n =>
    simp only [step] at htimer
    split at htimer
    · exact .inl (List.mem_of_mem_eraseIdx htimer)
    · exact .inl htimer
  | fail e done =>
    simp only [step] at htimer
    split at htimer
    · cases done <;> exact .inl htimer
    · exact .inl htimer
  | crash => cases htimer
  | connect i =>
    simp only [step] at htimer
    split at htimer <;> exact .inl htimer
  | handle i answered =>
    simp only [step] at htimer
    split at htimer <;> exact .inl htimer
  | get stamp =>
    simp only [step] at htimer
    split at htimer <;> exact .inl htimer
  | access =>
    simp only [step] at htimer
    split at htimer <;> exact .inl htimer
  | unreachable e =>
    simp only [step] at htimer
    split at htimer <;> exact .inl htimer
  | _ => exact .inl htimer

/-- Every delay is the one for the failures in a row at some time. -/
theorem delays_run (db : Db) (acts : List (ManagerAct ι)) {delay : ℕ}
    (h : (k, delay) ∈ ((start db : Manager C).run acts).timers) : ∃ past, past <+: acts ∧
      0 < (start db : Manager C).streak past k ∧
      delay = backoffFor (UInt32.ofNat ((start db : Manager C).streak past k)) := by
  induction acts using List.reverseRecOn with
  | nil => cases h
  | append_singleton acts act ih =>
    rw [run_concat] at h
    rcases mem_timers_step (retrying_run db acts) h with hold | ⟨hpos, hdelay⟩
    · obtain ⟨past, hpast, hrest⟩ := ih hold
      exact ⟨past, hpast.trans (List.prefix_append acts [act]), hrest⟩
    · rw [← streak_concat] at hpos hdelay
      exact ⟨acts ++ [act], List.prefix_rfl, hpos, hdelay⟩

/-- What a manager promises of the keys that have failed, in a run. -/
structure RetryLaw (m₀ : Manager C) (acts : List (ManagerAct ι)) : Prop where
  /-- What is in the queue is what needs processing and is not at the worker. -/
  ready : (m₀.run acts).queue.Ready
  processing : ∀ k, k ∈ (m₀.run acts).queue.processing ↔ (m₀.run acts).Working k
  /-- A key that has failed since it last succeeded is ready, or waits, or is at the worker. -/
  kept : ∀ k, 0 < m₀.streak acts k → k ∈ (m₀.run acts).queue.queue ∨
    (∃ delay, (k, delay) ∈ (m₀.run acts).timers) ∨ (m₀.run acts).Working k
  count : ∀ k, (m₀.run acts).limiter.failures[k]?.getD 0 = UInt32.ofNat (m₀.streak acts k)
  /-- A key that waits does so for the delay of its failures, at the time of the last of them. -/
  delays : ∀ k delay, (k, delay) ∈ (m₀.run acts).timers → ∃ past, past <+: acts ∧
    0 < m₀.streak past k ∧ delay = backoffFor (UInt32.ofNat (m₀.streak past k))

end Manager

/-- **What fails is tried again**, in every run of a manager, after delays that double up to a bound. -/
theorem retry_law {ι : Type} [DecidableEq ι] (C : Tasks ι) (db : Db) (acts : List (ManagerAct ι)) :
    Manager.RetryLaw (Manager.start db : Manager C) acts ∧
      ∀ n, backoffFor n = min (500 * 2 ^ (n.toNat - 1)) 300000 := by
  have h : ((Manager.start db : Manager C).run acts).Retrying _ := Manager.retrying_run db acts
  refine ⟨⟨h.ready, h.processing, fun k hk => ?_, h.count, fun k delay => Manager.delays_run db acts⟩, backoffFor_eq⟩
  rcases h.due k hk with hd | hrest
  · by_cases hp : k ∈ ((Manager.start db : Manager C).run acts).queue.processing
    · exact .inr (.inr ((h.processing k).mp hp))
    · exact .inl ((h.ready.mem_iff k).mpr ⟨hd, hp⟩)
  · exact .inr hrest

end MyK8s.Controller
