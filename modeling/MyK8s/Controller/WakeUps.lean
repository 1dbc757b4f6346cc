import MyK8s.Controller.WorkQueue

/-!
# Waiting for a key

`src/controller/workqueue.rs`, with the steps of `get`, `add` and `done` apart: the queue is read and
written under its lock, and the waiting and the notification are outside of it. One worker, and any
producers.

A key that is ready finds the worker on its way to the queue, or a permit, or somebody who still has to
notify (`Awake`). So a worker that waits is not forgotten (`no_lost_wakeup`).
-/

namespace MyK8s.Controller

/-- Where the worker stands in its loop over `get` and `done`. -/
inductive Worker
  | checking
  /-- `try_get` gave nothing, and `notified` has not been polled. -/
  | polling
  /-- Registered with `notify`. -/
  | parked
  /-- A notification has reached it while it was parked. -/
  | woken
  | working (key : String)
  /-- `done` has put the key back and has not notified. -/
  | notifying
  deriving DecidableEq

/-- `WorkQueue` with its `Notify`, the worker, and the producers that have put a key into the queue and
have not notified. -/
structure WorkSystem (ι : Type) where
  inner : WorkQueue
  permit : Bool
  worker : Worker
  notifying : ι → Bool

namespace WorkQueue

variable {q : WorkQueue} {key : String}

/-- Whether `add` comes to its `notify_one`. -/
def addNotifies (q : WorkQueue) (key : String) : Bool := key ∉ q.dirty ∧ key ∉ q.processing

/-- Whether `done` comes to its `notify_one`. -/
def doneNotifies (q : WorkQueue) (key : String) : Bool := key ∈ q.dirty

theorem queue_add (h : q.addNotifies key = false) : (q.add key).queue = q.queue := by
  unfold add
  split
  · rfl
  · rename_i hd
    have hp : key ∈ q.processing := by
      by_contra hp
      exact absurd (decide_eq_false_iff_not.mp h) (not_not_intro ⟨hd, hp⟩)
    dsimp only
    rw [if_pos hp]

end WorkQueue

namespace WorkSystem

variable {ι : Type}

/-- Nobody has done anything. -/
def start : WorkSystem ι := ⟨.new, false, .checking, fun _ => false⟩

/-- `notify_one`: the worker that is parked is woken, or else there is a permit. -/
def notifyOne (s : WorkSystem ι) : WorkSystem ι :=
  if s.worker = .parked then { s with worker := .woken } else { s with permit := true }

/-- What can happen next, with the call on the queue that it is, if it is one. -/
inductive Step [DecidableEq ι] (s : WorkSystem ι) : Option QueueAct → WorkSystem ι → Prop
  /-- The lock section of `try_get`, which gives a key. -/
  | take {key : String} {inner : WorkQueue} (hw : s.worker = .checking)
      (hget : s.inner.tryGet = (some key, inner)) :
      Step s (some .tryGet) { s with inner, worker := .working key }
  | miss {inner : WorkQueue} (hw : s.worker = .checking) (hget : s.inner.tryGet = (none, inner)) :
      Step s (some .tryGet) { s with inner, worker := .polling }
  /-- The first poll of `notified`, which consumes the permit. -/
  | consume (hw : s.worker = .polling) (hp : s.permit = true) :
      Step s none { s with permit := false, worker := .checking }
  | park (hw : s.worker = .polling) (hp : s.permit = false) :
      Step s none { s with worker := .parked }
  /-- The woken worker goes back to the queue. -/
  | resume (hw : s.worker = .woken) : Step s none { s with worker := .checking }
  /-- The lock section of `done`. -/
  | done {key : String} (hw : s.worker = .working key) :
      Step s (some (.done key)) { s with
        inner := s.inner.done key
        worker := if s.inner.doneNotifies key then .notifying else .checking }
  | notifyDone (hw : s.worker = .notifying) :
      Step s none { s.notifyOne with worker := .checking }
  /-- The lock section of `add`, by a producer. -/
  | add (i : ι) (key : String) (hi : s.notifying i = false) :
      Step s (some (.add key)) { s with
        inner := s.inner.add key
        notifying := Function.update s.notifying i (s.inner.addNotifies key) }
  | notifyAdd (i : ι) (hi : s.notifying i = true) :
      Step s none { s.notifyOne with notifying := Function.update s.notifying i false }

/-- What can be reached from the start, with the calls on the queue. -/
inductive Reached [DecidableEq ι] : List QueueAct → WorkSystem ι → Prop
  | start : Reached [] start
  | step {acts : List QueueAct} {s s' : WorkSystem ι} {act : Option QueueAct} (h : Reached acts s)
      (hstep : s.Step act s') : Reached (acts ++ act.toList) s'

/-- The worker waits although a key is ready, and nothing is left that would wake it. -/
structure Forgotten (s : WorkSystem ι) : Prop where
  parked : s.worker = .parked
  permit : s.permit = false
  notifying : ∀ i, s.notifying i = false
  ready : s.inner.queue ≠ []

/-! ## Nothing is forgotten -/

/-- The worker is about to wait, or waits. -/
def Waits (s : WorkSystem ι) : Prop := s.worker = .polling ∨ s.worker = .parked

structure Awake (s : WorkSystem ι) : Prop where
  /-- A key that is ready while the worker waits has a notification, given or to be given. -/
  noticed : s.Waits → s.inner.queue ≠ [] → s.permit = true ∨ ∃ i, s.notifying i = true
  /-- A permit is consumed before the worker parks. -/
  spent : s.worker = .parked → s.permit = false

theorem awake_start : (start : WorkSystem ι).Awake :=
  ⟨fun _ hready => absurd rfl hready, fun _ => rfl⟩

/-- A worker that does not wait is awake. -/
theorem awake_of_not_waits {s : WorkSystem ι} (h : ¬ s.Waits) : s.Awake :=
  ⟨fun hw => absurd hw h, fun hw => absurd (.inr hw) h⟩

variable [DecidableEq ι] {s s' : WorkSystem ι} {act : Option QueueAct} {acts : List QueueAct}

theorem Awake.step (h : s.Awake) (hstep : s.Step act s') : s'.Awake := by
  cases hstep with
  | take hw hget => exact awake_of_not_waits (by simp [Waits])
  | @miss inner hw hget =>
    -- the queue was empty when it was looked at
    refine ⟨fun _ hready => absurd ?_ hready, nofun⟩
    show inner.queue = []
    unfold WorkQueue.tryGet at hget
    split at hget
    · rename_i hempty
      cases hget
      exact hempty
    · cases hget
  | consume hw hp => exact awake_of_not_waits (by simp [Waits])
  | park hw hp => exact ⟨fun _ hready => h.noticed (.inl hw) hready, fun _ => hp⟩
  | resume hw => exact awake_of_not_waits (by simp [Waits])
  | done hw =>
    refine awake_of_not_waits ?_
    show ¬ ((if _ then Worker.notifying else Worker.checking) = _ ∨ _)
    split <;> simp
  | notifyDone hw => exact awake_of_not_waits (by simp [Waits])
  | add i key hi =>
    refine ⟨fun hw hready => ?_, h.spent⟩
    cases hnotifies : s.inner.addNotifies key with
    | true => exact .inr ⟨i, Function.update_self ..⟩
    | false =>
      -- the key was known, so the queue is as it was
      have hsame : s.inner.queue ≠ [] := by rwa [← WorkQueue.queue_add hnotifies]
      obtain hp | ⟨j, hj⟩ := h.noticed hw hsame
      · exact .inl hp
      · have hne : j ≠ i := fun heq => by simp [heq, hi] at hj
        exact .inr ⟨j, (Function.update_of_ne hne ..).trans hj⟩
  | notifyAdd i hi =>
    by_cases hparked : s.worker = .parked
    · have hwoken : s.notifyOne.worker = .woken := by rw [notifyOne, if_pos hparked]
      refine awake_of_not_waits ?_
      show ¬ (s.notifyOne.worker = _ ∨ s.notifyOne.worker = _)
      simp [hwoken]
    · have hpermit : s.notifyOne.permit = true := by rw [notifyOne, if_neg hparked]
      have hworker : s.notifyOne.worker = s.worker := by rw [notifyOne, if_neg hparked]
      exact ⟨fun _ _ => .inl hpermit, fun hw => absurd (hworker.symm.trans hw) hparked⟩

theorem awake_of_reached (h : Reached acts s) : s.Awake := by
  induction h with
  | start => exact awake_start
  | step _ hstep ih => exact ih.step hstep

/-- **No wake-up is lost**, in any interleaving of the worker and the producers. -/
theorem no_lost_wakeup (h : Reached acts s) : ¬ s.Forgotten := by
  intro hforgotten
  obtain hp | ⟨i, hi⟩ := (awake_of_reached h).noticed (.inr hforgotten.parked) hforgotten.ready
  · exact Bool.false_ne_true (hforgotten.permit.symm.trans hp)
  · exact Bool.false_ne_true ((hforgotten.notifying i).symm.trans hi)

/-- Between the look at the queue and the wait for it, a producer puts a key in. -/
theorem no_lost_wakeup_parked : ∃ s : WorkSystem ℕ,
    Reached [.tryGet, .add "web"] s ∧ s.worker = .parked ∧ s.permit = false ∧
      s.inner.queue = ["web"] ∧ ¬ s.Forgotten := by
  have hmiss : Reached [.tryGet] ({ start with worker := .polling } : WorkSystem ℕ) :=
    .step .start (.miss rfl rfl)
  have hadd := hmiss.step (.add 7 "web" rfl)
  have hpark := hadd.step (.park rfl rfl)
  exact ⟨_, hpark, rfl, rfl, rfl, no_lost_wakeup hpark⟩

/-! ## The calls on the queue -/

theorem inner_eq_of_step (hstep : s.Step act s') : s'.inner = act.toList.foldl WorkQueue.step s.inner := by
  cases hstep with
  | take hw hget => exact (congrArg Prod.snd hget).symm
  | miss hw hget => exact (congrArg Prod.snd hget).symm
  | notifyDone => show s.notifyOne.inner = s.inner; unfold notifyOne; split <;> rfl
  | notifyAdd => show s.notifyOne.inner = s.inner; unfold notifyOne; split <;> rfl
  | _ => rfl

theorem inner_eq (h : Reached acts s) : s.inner = WorkQueue.after acts := by
  induction h with
  | start => rfl
  | step _ hstep ih => rw [inner_eq_of_step hstep, ih, WorkQueue.after, WorkQueue.after, List.foldl_append]

theorem mem_processing_of_working (h : Reached acts s) {key : String} (hw : s.worker = .working key) :
    key ∈ s.inner.processing := by
  induction h generalizing key with
  | start => cases hw
  | @step acts s s' act _ hstep ih =>
    cases hstep with
    | take hworker hget =>
      cases hw
      refine (congrArg (fun pair => key ∈ pair.2.processing) hget).mp ?_
      exact WorkQueue.mem_processing_tryGet.mpr (.inr (congrArg Prod.fst hget))
    | done => split at hw <;> cases hw
    | add i other hi =>
      show key ∈ (s.inner.add other).processing
      rw [WorkQueue.processing_add]
      exact ih hw
    | notifyAdd =>
      unfold notifyOne at hw ⊢
      split at hw
      · cases hw
      · rename_i hnot
        rw [if_neg hnot]
        exact ih hw
    | miss | consume | park | resume | notifyDone => cases hw

/-- The worker has the key that it works on. -/
theorem held_of_working (h : Reached acts s) {key : String} (hw : s.worker = .working key) :
    WorkQueue.Held acts key :=
  WorkQueue.mem_processing_iff.mp (inner_eq h ▸ mem_processing_of_working h hw)

/-- What the worker and the producers do is a use of the queue for which its law holds. -/
theorem wellUsed_of_reached (h : Reached acts s) : WorkQueue.WellUsed acts := by
  induction h with
  | start => exact fun past key hp => absurd (List.prefix_nil.mp hp) (by simp)
  | @step acts s s' act hreached hstep ih =>
    cases act with
    | none => rwa [Option.toList_none, List.append_nil]
    | some act =>
      intro past key hp
      obtain heq | hbefore := List.prefix_concat_iff.mp hp
      · obtain ⟨rfl, hlast⟩ := List.append_inj' heq rfl
        cases List.singleton_inj.mp hlast
        cases hstep with
        | done hw => exact held_of_working hreached hw
      · exact ih past key hbefore

end WorkSystem
end MyK8s.Controller
