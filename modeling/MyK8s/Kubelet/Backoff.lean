import MyK8s.Kubelet.Reconciler
import MyK8s.Lib.Notes

/-!
# How far restarts are apart

The liveness passes of `src/reconciler.rs`, with notes of what they do to each container: a restart that is
attempted, with the time at which it starts, and a container that is seen running. A pod that is removed is
noted as well. The attempts on a container since it was last seen running or removed are its `streak`, and
its tracker says how many they are and when the next one is due (`Agrees`). So the attempts of a streak keep
the distance of their backoff (`restart_spacing`), whatever the host answers and wherever a pass ends.
-/

namespace MyK8s.Kubelet

open Fallible

/-! ## The backoff -/

namespace Reconciler

theorem computeBackoff_mono {m n : UInt32} (h : m ≤ n) : computeBackoff m ≤ computeBackoff n := by
  have hle : m.toNat ≤ n.toNat := UInt32.le_iff_toNat_le.mp h
  have hexp : min (m.toNat - 1) 20 ≤ min (n.toNat - 1) 20 := by omega
  have hpow : 2 ^ min (m.toNat - 1) 20 ≤ 2 ^ min (n.toNat - 1) 20 :=
    Nat.pow_le_pow_right (by decide) hexp
  exact min_le_min_right _ (min_le_min_right _ (Nat.mul_le_mul_left backoffBase hpow))

theorem computeBackoff_le (n : UInt32) : computeBackoff n ≤ backoffMax := min_le_right _ _

/-- Neither the shift nor the product leaves the 64 bits. -/
theorem backoff_fits (n : UInt32) :
    2 ^ min (n.toNat - 1) 20 ≤ u64Max ∧ backoffBase * 2 ^ min (n.toNat - 1) 20 ≤ u64Max := by
  have hpow : 2 ^ min (n.toNat - 1) 20 ≤ 2 ^ 20 := Nat.pow_le_pow_right (by decide) (by omega)
  unfold u64Max backoffBase
  omega

end Reconciler

open Reconciler

/-! ## Notes -/

inductive BackoffNote
  | attempted (id : String) (time : ℕ)
  | running (id : String)
  /-- A pod has been removed, with containers of these ids. -/
  | removed (ids : List String)
  deriving DecidableEq

namespace BackoffNote

def extend (id : String) (times : List ℕ) : BackoffNote → List ℕ
  | .attempted id' time => if id' = id then times ++ [time] else times
  | .running id' => if id' = id then [] else times
  | .removed ids => if id ∈ ids then [] else times

/-- When the attempts on a container began, since it was last seen running or was removed. -/
def streak (id : String) (notes : List BackoffNote) : List ℕ := notes.foldl (extend id) []

theorem streak_concat (id : String) (notes : List BackoffNote) (note : BackoffNote) :
    streak id (notes ++ [note]) = extend id (streak id notes) note := List.foldl_concat ..

/-- Attempts `n` and `n + 1` of a streak are at least the backoff of `n` apart. -/
def Spaced (notes : List BackoffNote) : Prop :=
  ∀ past id time, past ++ [.attempted id time] <+: notes → ∀ last ∈ (streak id past).getLast?,
    last + computeBackoff (UInt32.ofNat (streak id past).length) ≤ time

theorem spaced_nil : Spaced [] :=
  fun past id time hp => absurd (List.prefix_nil.mp hp) (by simp)

theorem Spaced.concat {notes : List BackoffNote} (h : Spaced notes) {note : BackoffNote}
    (hnote : ∀ id time, note = .attempted id time → ∀ last ∈ (streak id notes).getLast?,
      last + computeBackoff (UInt32.ofNat (streak id notes).length) ≤ time) :
    Spaced (notes ++ [note]) := by
  intro past id time hp
  obtain heq | hbefore := List.prefix_concat_iff.mp hp
  · obtain ⟨rfl, hlast⟩ := List.append_inj' heq rfl
    exact hnote id time (List.singleton_inj.mp hlast).symm
  · exact h past id time hbefore

/-- A note that is not of an attempt. -/
theorem Spaced.concat_of_ne {notes : List BackoffNote} (h : Spaced notes) {note : BackoffNote}
    (hnote : ∀ id time, note ≠ .attempted id time) : Spaced (notes ++ [note]) :=
  h.concat fun id time heq => absurd heq (hnote id time)

end BackoffNote

open BackoffNote

/-! ## The passes, with notes -/

abbrev Noted (ρ : Type) := Reconciler ρ × List BackoffNote

namespace Reconciler

variable {ρ : Type} (host : Host ρ)

/-- `restartIfDue`, which notes the attempt. -/
def restartIfDueNoted (name : PodName) (container : Container) : Action (Noted ρ) Unit := do
  let id := name ++ "__" ++ container.name
  let tracker ← quietly (tracker host id)
  let now ← quietly (onRuntime (modifyGet host.now))
  if now < tracker.nextRetryAt then pure ()
  else
    note (.attempted id now)
    let count := tracker.restartCount + 1
    quietly (modify fun s => { s with
      restartState := Function.update s.restartState id (some ⟨count, now + computeBackoff count⟩) })
    quietly (restart host name container)

/-- `reconcileContainer`, which notes a container that runs. -/
def reconcileContainerNoted (name : PodName) (container : Container) : Action (Noted ρ) Unit := do
  let id := name ++ "__" ++ container.name
  match ← quietly (onRuntime (withContext s!"read state for {id}" (host.containerState id))) with
  | .stopped | .notFound => restartIfDueNoted host name container
  | .running =>
    note (.running id)
    quietly (modify fun s => { s with restartState := Function.update s.restartState id none })
  | .created => pure ()

def reconcileLivenessNoted (name : PodName) (pod : Pod) : Action (Noted ρ) Unit := do
  let s ← quietly get
  match s.store name with
  | none => pure ()
  | some _ => pod.spec.containers.forM (reconcileContainerNoted host name)

/-- The containers in the manifest that the store has of a pod. -/
def storedIds (s : Reconciler ρ) (name : PodName) : List String :=
  ((s.store name).map fun state =>
    state.pod.spec.containers.map fun container => name ++ "__" ++ container.name).getD []

/-- `removePod`, which notes the containers of the pod. -/
def removePodNoted (name : PodName) : Action (Noted ρ) Unit := do
  let s ← quietly get
  note (.removed (storedIds s name))
  quietly (removePod host name)

theorem restartIfDueNoted_erases (name : PodName) (container : Container) :
    Erases (restartIfDueNoted host name container) (restartIfDue host name container) := by
  unfold restartIfDueNoted restartIfDue
  refine (Erases.quietly _).bind fun tracker => (Erases.quietly _).bind fun now => ?_
  split
  · exact .pure ()
  · exact .note_bind _ ((Erases.quietly _).bind fun _ => .quietly _)

theorem reconcileContainerNoted_erases (name : PodName) (container : Container) :
    Erases (reconcileContainerNoted host name container) (reconcileContainer host name container) := by
  unfold reconcileContainerNoted reconcileContainer
  refine (Erases.quietly _).bind fun state => ?_
  cases state with
  | stopped | notFound => exact restartIfDueNoted_erases host name container
  | running => exact .note_bind _ (.quietly _)
  | created => exact .pure ()

theorem reconcileLivenessNoted_erases (name : PodName) (pod : Pod) :
    Erases (reconcileLivenessNoted host name pod) (reconcileLiveness host name pod) := by
  unfold reconcileLivenessNoted reconcileLiveness
  refine (Erases.quietly _).bind fun s => ?_
  cases s.store name with
  | none => exact .pure ()
  | some _ => exact .forM (fun container => reconcileContainerNoted_erases host name container) _

theorem removePodNoted_erases (name : PodName) :
    Erases (removePodNoted host name) (removePod host name) := by
  intro t
  have hget : (quietly get : Action (Noted ρ) _) t = .ok t.1 t := rfl
  unfold removePodNoted
  simp only [bind, EStateM.bind, hget]
  exact Erases.quietly (removePod host name) (t.1, t.2 ++ [.removed (storedIds t.1 name)])

end Reconciler

/-! ## Runs -/

/-- What happens to a kubelet, as far as restarts go. -/
inductive LivenessStep (ρ : Type)
  | pass (name : PodName) (pod : Pod)
  | remove (name : PodName)
  /-- Anything else that leaves the trackers alone, as all that happens in the runtime does. -/
  | other (f : Reconciler ρ → Reconciler ρ) (h : ∀ s, (f s).restartState = s.restartState)

namespace Reconciler

variable {ρ : Type} (host : Host ρ)

def livenessStep (s : Reconciler ρ) : LivenessStep ρ → Reconciler ρ
  | .pass name pod => left (reconcileLiveness host name pod s)
  | .remove name => left (removePod host name s)
  | .other f _ => f s

def livenessStepNoted (t : Noted ρ) : LivenessStep ρ → Noted ρ
  | .pass name pod => left (reconcileLivenessNoted host name pod t)
  | .remove name => left (removePodNoted host name t)
  | .other f _ => (f t.1, t.2)

/-- The notes of a run that begins without trackers. -/
def livenessNotes (s : Reconciler ρ) (steps : List (LivenessStep ρ)) : List BackoffNote :=
  (steps.foldl (livenessStepNoted host) ({ s with restartState := fun _ => none }, [])).2

theorem livenessStepNoted_erases (t : Noted ρ) (step : LivenessStep ρ) :
    (livenessStepNoted host t step).1 = livenessStep host t.1 step := by
  cases step with
  | pass name pod => exact (reconcileLivenessNoted_erases host name pod).left t
  | remove name => exact (removePodNoted_erases host name).left t
  | other f h => rfl

/-- The run with notes is the run. -/
theorem livenessNotes_erases (t : Noted ρ) (steps : List (LivenessStep ρ)) :
    (steps.foldl (livenessStepNoted host) t).1 = steps.foldl (livenessStep host) t.1 := by
  induction steps generalizing t with
  | nil => rfl
  | cons step rest ih =>
    rw [List.foldl_cons, List.foldl_cons, ih, livenessStepNoted_erases]

/-! ## What leaves the trackers alone -/

def SameTrackers (s s' : Reconciler ρ) : Prop := s'.restartState = s.restartState

/-- The object that a pod of the store was created from. -/
def manifest (s : Reconciler ρ) (name : PodName) : Option Pod := (s.store name).map (·.pod)

/-- The pods, their objects and their trackers are the same. -/
structure SameBooks (s s' : Reconciler ρ) : Prop where
  manifest : s'.manifest = s.manifest
  cache : s'.cache = s.cache
  trackers : SameTrackers s s'

instance : Std.Refl (@SameBooks ρ) where
  refl _ := ⟨rfl, rfl, rfl⟩

instance : IsTrans (Reconciler ρ) SameBooks where
  trans _ _ _ h h' := ⟨h'.manifest.trans h.manifest, h'.cache.trans h.cache, Eq.trans h'.trackers h.trackers⟩

theorem onRuntime_sameBooks {ε α : Type} (x : EStateM ε ρ α) : Keeps SameBooks (onRuntime x) :=
  .of_wp fun _ => wp_onRuntime.mpr (wp_of_forall (fun _ _ => ⟨rfl, rfl, rfl⟩) fun _ _ => ⟨rfl, rfl, rfl⟩)

theorem sameBooks_setSandbox (name : PodName) (sandbox : PodSandbox) (s : Reconciler ρ) :
    SameBooks s (setSandbox name sandbox s) := by
  refine ⟨(Function.comp_update (Option.map fun state : PodState => state.pod) s.store name _).trans ?_, rfl, rfl⟩
  refine Function.update_eq_self_iff.mpr ?_
  rw [Option.map_map]
  rfl

theorem sameBooks_releaseIp (ip : String) (s : Reconciler ρ) : SameBooks s (releaseIp ip s) := by
  unfold releaseIp
  split <;> exact ⟨rfl, rfl, rfl⟩

theorem restart_sameBooks (name : PodName) (container : Container) :
    Keeps SameBooks (restart host name container) := by
  unfold restart
  refine .bind (fun s => Std.Refl.refl s) fun s => ?_
  cases s.store name with
  | none => exact .pure ()
  | some state =>
    refine (onRuntime_sameBooks _).bind fun kept => .bind (.modify (sameBooks_setSandbox name kept)) fun _ => ?_
    exact (onRuntime_sameBooks _).bind fun added => .modify (sameBooks_setSandbox name added)

/-- The tracker that is worked with is stored, and is the one that was there or a new one. -/
theorem tracker_spec (id : String) (s : Reconciler ρ) :
    wp (tracker host id) (fun tracker s' => s'.restartState = Function.update s.restartState id (some tracker) ∧
      (s.restartState id = some tracker ∨ s.restartState id = none ∧ tracker.restartCount = 0))
      (fun _ _ => False) s := by
  unfold tracker
  rw [wp_bind, wp_get]
  cases hid : s.restartState id with
  | some tracker => exact ⟨by rw [← hid, Function.update_eq_self], .inl rfl⟩
  | none =>
    dsimp only
    simp only [wp_bind, wp_onRuntime, wp_modifyGet, wp_modify, wp_pure]
    simp

/-! ## The trackers and the notes -/

/-- The tracker counts the attempts of the streak, and lets the next one wait for their backoff. -/
def Agrees (tracker : Option RestartTracker) (times : List ℕ) : Prop :=
  match times.getLast? with
  | none => ∀ t, tracker = some t → t.restartCount = 0
  | some last => tracker = some
      ⟨UInt32.ofNat times.length, last + computeBackoff (UInt32.ofNat times.length)⟩

structure Logged (t : Noted ρ) : Prop where
  spaced : Spaced t.2
  agrees : ∀ id, Agrees (t.1.restartState id) (streak id t.2)

variable {host} {t : Noted ρ}

theorem agrees_nil : Agrees none [] := nofun

theorem Agrees.restartCount_eq {tracker : RestartTracker} {times : List ℕ}
    (h : Agrees (some tracker) times) : tracker.restartCount = UInt32.ofNat times.length := by
  unfold Agrees at h
  split at h
  · rename_i hlast
    rw [List.getLast?_eq_none_iff.mp hlast]
    exact h tracker rfl
  · cases h
    rfl

theorem Agrees.nextRetryAt_eq {tracker : RestartTracker} {times : List ℕ} {last : ℕ}
    (h : Agrees (some tracker) times) (hlast : last ∈ times.getLast?) :
    tracker.nextRetryAt = last + computeBackoff (UInt32.ofNat times.length) := by
  unfold Agrees at h
  rw [show times.getLast? = some last from hlast] at h
  cases h
  rfl

/-- A new tracker is that of a streak without attempts. -/
theorem Agrees.of_new {times : List ℕ} {tracker : RestartTracker} (h : Agrees none times)
    (hnew : tracker.restartCount = 0) : Agrees (some tracker) times := by
  unfold Agrees at h ⊢
  split at h
  · rintro t ht
    cases ht
    exact hnew
  · cases h

theorem Agrees.attempt {tracker : RestartTracker} {times : List ℕ} (h : Agrees (some tracker) times)
    (now : ℕ) : Agrees (some ⟨tracker.restartCount + 1, now + computeBackoff (tracker.restartCount + 1)⟩)
      (times ++ [now]) := by
  have hcount : tracker.restartCount + 1 = UInt32.ofNat (times ++ [now]).length := by
    rw [h.restartCount_eq, List.length_append, List.length_singleton, UInt32.ofNat_add]
    rfl
  unfold Agrees
  rw [List.getLast?_append, List.getLast?_singleton, Option.some_or]
  show some _ = some _
  rw [hcount]

theorem Logged.of_sameTrackers (h : Logged t) {s : Reconciler ρ} (hs : SameTrackers t.1 s) :
    Logged (s, t.2) :=
  ⟨h.spaced, fun id => by rw [show s.restartState = t.1.restartState from hs]; exact h.agrees id⟩

theorem Logged.quietly (h : Logged t) {ε α : Type} {x : EStateM ε (Reconciler ρ) α}
    (hx : Keeps SameBooks x) :
    wp (quietly x) (fun _ t' => Logged t') (fun _ t' => Logged t') t :=
  wp_quietly.mpr (wp_mono (hx.wp t.1) (fun _ _ hs => h.of_sameTrackers hs.trackers) fun _ _ hs =>
    h.of_sameTrackers hs.trackers)

/-- One tracker is written, and one note is taken of its container alone. -/
theorem Logged.concat (h : Logged t) {id : String} {note : BackoffNote} {tracker : Option RestartTracker}
    {s : Reconciler ρ} (hs : s.restartState = Function.update t.1.restartState id tracker)
    (hspaced : Spaced (t.2 ++ [note])) (hother : ∀ other ≠ id, ∀ times, extend other times note = times)
    (hid : Agrees tracker (extend id (streak id t.2) note)) : Logged (s, t.2 ++ [note]) := by
  refine ⟨hspaced, fun other => ?_⟩
  rw [hs, streak_concat]
  rcases eq_or_ne other id with rfl | hne
  · rw [Function.update_self]
    exact hid
  · rw [Function.update_of_ne hne, hother other hne]
    exact h.agrees other

theorem restartIfDueNoted_logged (h : Logged t) (name : PodName) (container : Container) :
    wp (restartIfDueNoted host name container) (fun _ t' => Logged t') (fun _ t' => Logged t') t := by
  unfold restartIfDueNoted
  simp only [wp_bind, wp_quietly]
  refine wp_mono (tracker_spec host _ t.1) (fun tracker s₁ h₁ => ?_) fun _ _ hfalse => hfalse.elim
  obtain ⟨hstored, hwas⟩ := h₁
  simp only [wp_onRuntime, wp_modifyGet]
  generalize hid : name ++ "__" ++ container.name = id at *
  set now := (host.now s₁.runtime).1
  -- the tracker was in agreement with the notes, or is new
  have hagrees : Agrees (some tracker) (streak id t.2) := by
    obtain hold | ⟨hnone, hnew⟩ := hwas
    · exact hold ▸ h.agrees id
    · exact (hnone ▸ h.agrees id).of_new hnew
  have hlogged : Logged (s₁, t.2) := by
    refine ⟨h.spaced, fun other => ?_⟩
    show Agrees (s₁.restartState other) _
    rw [hstored]
    rcases eq_or_ne other id with rfl | hne
    · rw [Function.update_self]
      exact hagrees
    · rw [Function.update_of_ne hne]
      exact h.agrees other
  split
  · exact hlogged.of_sameTrackers rfl
  · rename_i hdue
    have hspaced : Spaced (t.2 ++ [.attempted id now]) := by
      refine h.spaced.concat fun id' time heq last hlast => ?_
      cases heq
      rw [← hagrees.nextRetryAt_eq hlast]
      exact Nat.le_of_not_lt hdue
    have hattempt : ∀ r : ρ, Logged ({ s₁ with
        runtime := r
        restartState := Function.update s₁.restartState id
          (some ⟨tracker.restartCount + 1, now + computeBackoff (tracker.restartCount + 1)⟩) },
        t.2 ++ [.attempted id now]) := by
      refine fun r => hlogged.concat rfl hspaced (fun other hne times => if_neg (Ne.symm hne)) ?_
      show Agrees _ (if id = id then _ else _)
      rw [if_pos rfl]
      exact hagrees.attempt now
    simp only [wp_bind, wp_note, wp_quietly, wp_modify]
    exact wp_mono ((restart_sameBooks host name container).wp _)
      (fun _ _ hs' => (hattempt _).of_sameTrackers hs'.trackers) fun _ _ hs' => (hattempt _).of_sameTrackers hs'.trackers

theorem reconcileContainerNoted_logged (h : Logged t) (name : PodName) (container : Container) :
    wp (reconcileContainerNoted host name container) (fun _ t' => Logged t') (fun _ t' => Logged t') t := by
  unfold reconcileContainerNoted
  rw [wp_bind]
  refine wp_mono (h.quietly (onRuntime_sameBooks _)) (fun state t₁ h₁ => ?_) fun _ _ h₁ => h₁
  cases state with
  | stopped | notFound => exact restartIfDueNoted_logged h₁ name container
  | created => exact h₁
  | running =>
    simp only [wp_bind, wp_note, wp_quietly, wp_modify]
    generalize name ++ "__" ++ container.name = id
    have hspaced : Spaced (t₁.2 ++ [.running id]) := h₁.spaced.concat_of_ne fun _ _ heq => by cases heq
    refine h₁.concat rfl hspaced (fun other hne times => if_neg (Ne.symm hne)) ?_
    show Agrees none (if id = id then [] else _)
    rw [if_pos rfl]
    exact agrees_nil

theorem reconcileLivenessNoted_logged (h : Logged t) (name : PodName) (pod : Pod) :
    wp (reconcileLivenessNoted host name pod) (fun _ t' => Logged t') (fun _ t' => Logged t') t := by
  unfold reconcileLivenessNoted
  simp only [wp_bind, wp_quietly, wp_get]
  cases t.1.store name with
  | none => exact h
  | some _ => exact wp_forM h fun t container _ ht => reconcileContainerNoted_logged ht name container

/-- A pod that goes takes its trackers with it. -/
structure Removed (name : PodName) (s s' : Reconciler ρ) : Prop where
  manifest : s'.manifest = Function.update s.manifest name none
  cache : s'.cache = s.cache
  trackers : s'.restartState = fun id => if id ∈ storedIds s name then none else s.restartState id

theorem removePod_removed (host : Host ρ) (name : PodName) (s : Reconciler ρ) :
    Removed name s (left (removePod host name s)) := by
  refine wp_left (x := removePod host name) (s := s) (P := fun s' : Reconciler ρ => Removed name s s') ?_
  unfold removePod
  rw [wp_bind, wp_get]
  cases hstate : s.store name with
  | none =>
    refine ⟨?_, rfl, ?_⟩
    · rw [eq_comm, Function.update_eq_self_iff, manifest, hstate]
      rfl
    · funext id
      simp [storedIds, hstate]
  | some state =>
    simp only [wp_bind, wp_set]
    -- all of it is done before the sandbox is destroyed
    have hremoved : ∀ s' : Reconciler ρ, SameBooks { s with
        store := Function.update s.store name none
        restartState := fun id => if id ∈ state.pod.spec.containers.map (fun container =>
          name ++ "__" ++ container.name) then none else s.restartState id
        lastPushedStatus := Function.update s.lastPushedStatus name none } s' → Removed name s s' := by
      intro s' h
      refine ⟨h.manifest.trans ?_, h.cache, h.trackers.trans ?_⟩
      · exact Function.comp_update (Option.map fun state : PodState => state.pod) s.store name none
      · unfold storedIds
        rw [hstate]
        rfl
    refine wp_mono ((onRuntime_sameBooks _).wp _) (fun _ s₁ h₁ => ?_) fun _ s₁ h₁ => hremoved s₁ h₁
    cases state.sandbox.podIp with
    | none => exact hremoved s₁ h₁
    | some ip => exact hremoved _ (IsTrans.trans _ _ _ h₁ (sameBooks_releaseIp ip s₁))

theorem removePodNoted_logged (h : Logged t) (name : PodName) : Logged (left (removePodNoted host name t)) := by
  have hcleared := (removePod_removed host name t.1).trackers
  rw [← (removePodNoted_erases host name).left t] at hcleared
  have hnotes : (left (removePodNoted host name t)).2 = t.2 ++ [.removed (storedIds t.1 name)] := by
    refine wp_left (x := removePodNoted host name) (s := t)
      (P := fun t' : Noted ρ => t'.2 = t.2 ++ [.removed (storedIds t.1 name)]) ?_
    unfold removePodNoted
    simp only [wp_bind, wp_quietly, wp_get, wp_note]
    exact wp_of_forall (fun _ _ => trivial) fun _ _ => trivial
  have hspaced : Spaced (t.2 ++ [.removed (storedIds t.1 name)]) := h.spaced.concat_of_ne fun _ _ heq => by cases heq
  refine ⟨hnotes ▸ hspaced, fun id => ?_⟩
  rw [hcleared, hnotes, streak_concat]
  show Agrees (if id ∈ storedIds t.1 name then none else _) (if id ∈ storedIds t.1 name then [] else _)
  split
  · exact agrees_nil
  · exact h.agrees id

theorem Logged.step (h : Logged t) (step : LivenessStep ρ) : Logged (livenessStepNoted host t step) := by
  cases step with
  | pass name pod => exact wp_left (reconcileLivenessNoted_logged h name pod)
  | remove name => exact removePodNoted_logged h name
  | other f hf => exact h.of_sameTrackers (hf t.1)

theorem Logged.run (h : Logged t) (steps : List (LivenessStep ρ)) :
    Logged (steps.foldl (livenessStepNoted host) t) := by
  induction steps generalizing t with
  | nil => exact h
  | cons step rest ih => exact ih (h.step step)

/-- **Restart spacing**, in every run: attempts `n` and `n + 1` of a streak begin at least the backoff of
`n` apart, and the backoff grows with `n`, up to its bound and within 64 bits. -/
theorem restart_spacing (host : Host ρ) (s : Reconciler ρ) (steps : List (LivenessStep ρ)) :
    Spaced (livenessNotes host s steps) ∧
      (∀ m n : UInt32, m ≤ n → computeBackoff m ≤ computeBackoff n) ∧
      (∀ n : UInt32, 2 ^ min (n.toNat - 1) 20 ≤ u64Max ∧ backoffBase * 2 ^ min (n.toNat - 1) 20 ≤ u64Max) ∧
      ∀ n, computeBackoff n ≤ backoffMax := by
  have hstart : Logged ({ s with restartState := fun _ => none }, []) := ⟨spaced_nil, fun _ => agrees_nil⟩
  exact ⟨(hstart.run steps).spaced, fun _ _ => computeBackoff_mono, backoff_fits, computeBackoff_le⟩

/-- The restart count of a container is the number of attempts in its streak. -/
theorem restartCount_eq_streak (host : Host ρ) (s : Reconciler ρ) (steps : List (LivenessStep ρ))
    {id : String} {tracker : RestartTracker}
    (h : (steps.foldl (livenessStep host) { s with restartState := fun _ => none }).restartState id =
      some tracker) :
    tracker.restartCount = UInt32.ofNat (streak id (livenessNotes host s steps)).length := by
  have hstart : Logged ({ s with restartState := fun _ => none }, []) := ⟨spaced_nil, fun _ => agrees_nil⟩
  have hrun : Logged (steps.foldl (livenessStepNoted host) _) := hstart.run steps
  have hagrees := hrun.agrees id
  rw [livenessNotes_erases, h] at hagrees
  exact hagrees.restartCount_eq

end Reconciler
end MyK8s.Kubelet
