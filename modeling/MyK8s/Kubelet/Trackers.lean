import MyK8s.Kubelet.Backoff
import MyK8s.Kubelet.Generations
import MyK8s.Kubelet.Ids

/-!
# Trackers and their pods

A tracker is made by a liveness pass, for a container of the object that is in the cache then. It is cleared
when the container is seen running, and with the pod, for the containers of the object that the pod was
created from. `trackers_owned`: as long as no pass meets a container that has been added since, each tracker
is of a container of a pod in the store, and a pod that comes has none.
-/

namespace MyK8s.Kubelet

open Fallible
open ApiServer (WatchEvent)

namespace Reconciler

variable {ρ : Type} {host : Host ρ} {s s' : Reconciler ρ} {name : PodName} {pod : Pod} {id : String}

theorem mem_storedIds : id ∈ storedIds s name ↔
    ∃ pod, s.manifest name = some pod ∧ ∃ c ∈ pod.spec.containers, containerIdOf name c.name = id := by
  unfold storedIds manifest containerIdOf
  cases s.store name <;> simp

/-! ## What the calls do to the books -/

/-- A pod is created from the object, or it is not. -/
structure Created (pod : Pod) (s s' : Reconciler ρ) : Prop where
  manifest : s'.manifest = s.manifest ∨
    s'.manifest = Function.update s.manifest pod.metadata.name (some pod)
  cache : s'.cache = s.cache
  trackers : SameTrackers s s'

theorem Created.of_sameBooks (h : SameBooks s s') : Created pod s s' :=
  ⟨.inl h.manifest, h.cache, h.trackers⟩

theorem Created.manifest_of_ne (h : Created pod s s') (hne : name ≠ pod.metadata.name) :
    s'.manifest name = s.manifest name := by
  obtain hsame | hcame := h.manifest
  · rw [hsame]
  · rw [hcame, Function.update_of_ne hne]

theorem Removed.manifest_of_ne {other : PodName} (h : Removed name s s') (hne : other ≠ name) :
    s'.manifest other = s.manifest other := by
  rw [h.manifest, Function.update_of_ne hne]

theorem ensurePodIp_sameBooks (pod : Pod) : Keeps (@SameBooks ρ) (ensurePodIp pod) := by
  refine .of_wp fun s => wp_mono ensurePodIp_frame (fun _ s' hs => ?_) fun _ s' hs => ?_
  · rw [hs]
    exact ⟨rfl, rfl, rfl⟩
  · rw [hs]
    exact ⟨rfl, rfl, rfl⟩

theorem addContainers_sameBooks (host : Host ρ) (podIp : String) (sandbox : PodSandbox)
    (containers : List Container) : Keeps SameBooks (addContainers host podIp sandbox containers) := by
  induction containers generalizing sandbox with
  | nil => exact .pure sandbox
  | cons container rest ih =>
    unfold addContainers
    refine (onRuntime_sameBooks _).attempt.bind fun added => ?_
    cases added with
    | ok sandbox => exact ih sandbox
    | error e =>
      refine (onRuntime_sameBooks _).attempt.bind fun destroyed => ?_
      exact .bind (.modify (sameBooks_releaseIp podIp)) fun _ => .throw _

theorem createPod_created (host : Host ρ) (pod : Pod) (s : Reconciler ρ) :
    Created pod s (left (createPod host pod s)) := by
  refine wp_left (x := createPod host pod) (s := s) (P := fun s' : Reconciler ρ => Created pod s s') ?_
  have hsandbox : Keeps SameBooks (createSandbox host pod) := by
    unfold createSandbox
    refine (ensurePodIp_sameBooks pod).bind fun podIp => .bind (fun s => Std.Refl.refl s) fun s => ?_
    exact (onRuntime_sameBooks _).bind fun sandbox => .pure _
  unfold createPod
  rw [wp_bind]
  refine wp_mono (hsandbox.wp s) (fun made s₁ h₁ => ?_) fun _ _ h₁ => .of_sameBooks h₁
  rw [wp_bind]
  refine wp_mono ((addContainers_sameBooks host _ _ _).wp s₁) (fun sandbox s₂ h₂ => ?_) fun _ _ h₂ =>
    .of_sameBooks (IsTrans.trans _ _ _ h₁ h₂)
  have h : SameBooks s s₂ := IsTrans.trans _ _ _ h₁ h₂
  refine ⟨.inr ?_, h.cache, h.trackers⟩
  rw [← h.manifest]
  exact Function.comp_update (Option.map fun state : PodState => state.pod) s₂.store pod.metadata.name _

/-- No tracker but that of one container has changed. -/
structure OnlyTracker (id : String) (s s' : Reconciler ρ) : Prop where
  manifest : s'.manifest = s.manifest
  cache : s'.cache = s.cache
  others : ∀ other ≠ id, s'.restartState other = s.restartState other

instance : Std.Refl (@OnlyTracker ρ id) where
  refl _ := ⟨rfl, rfl, fun _ _ => rfl⟩

instance : IsTrans (Reconciler ρ) (OnlyTracker id) where
  trans _ _ _ h h' := ⟨h'.manifest.trans h.manifest, h'.cache.trans h.cache,
    fun other hne => (h'.others other hne).trans (h.others other hne)⟩

theorem SameBooks.onlyTracker (h : SameBooks s s') : OnlyTracker id s s' :=
  ⟨h.manifest, h.cache, fun other _ => congrFun h.trackers other⟩

theorem update_onlyTracker (id : String) (tracker : Option RestartTracker) (s : Reconciler ρ) :
    OnlyTracker id s { s with restartState := Function.update s.restartState id tracker } :=
  ⟨rfl, rfl, fun _ hne => Function.update_of_ne hne _ _⟩

theorem onRuntime_onlyTracker {ε α : Type} (x : EStateM ε ρ α) : Keeps (OnlyTracker id) (onRuntime x) :=
  (onRuntime_sameBooks x).mono fun _ _ h => h.onlyTracker

theorem tracker_onlyTracker (host : Host ρ) (id : String) : Keeps (OnlyTracker id) (tracker host id) := by
  unfold tracker
  refine .bind (fun s => Std.Refl.refl s) fun s => ?_
  cases s.restartState id with
  | some tracker => exact .pure _
  | none =>
    refine (onRuntime_onlyTracker _).bind fun now => ?_
    exact .bind (.modify (update_onlyTracker id _)) fun _ => .pure _

theorem reconcileContainer_onlyTracker (host : Host ρ) (name : PodName) (container : Container) :
    Keeps (OnlyTracker (containerIdOf name container.name)) (reconcileContainer host name container) := by
  have hrestart : Keeps (OnlyTracker (containerIdOf name container.name))
      (restartIfDue host name container) := by
    unfold restartIfDue
    refine (tracker_onlyTracker host _).bind fun tracker => (onRuntime_onlyTracker _).bind fun now => ?_
    split
    · exact .pure ()
    · refine .bind (.modify (update_onlyTracker _ _)) fun _ => ?_
      exact (restart_sameBooks host name container).mono fun _ _ h => h.onlyTracker
  unfold reconcileContainer
  refine (onRuntime_onlyTracker _).bind fun state => ?_
  cases state with
  | stopped | notFound => exact hrestart
  | running => exact .modify (update_onlyTracker _ none)
  | created => exact .pure ()

/-! ## Trackers that are owned -/

/-- A name that can be read off an id. -/
def Splits (name : PodName) : Prop := ¬ "__".toList <:+: (name ++ "_").toList

/-- Each tracker is of a container of a pod in the store. -/
def Owned (s : Reconciler ρ) : Prop :=
  ∀ id, (s.restartState id).isSome → ∃ name, id ∈ storedIds s name

/-- The manifest of a pod, if there is one, has all containers of the object. -/
def Covers (s : Reconciler ρ) (name : PodName) (pod : Pod) : Prop :=
  ∀ old, s.manifest name = some old → ∀ c ∈ pod.spec.containers, ∃ c' ∈ old.spec.containers, c'.name = c.name

theorem storedIds_congr (h : s'.manifest name = s.manifest name) : storedIds s' name = storedIds s name := by
  have heq : ∀ s : Reconciler ρ, storedIds s name = ((s.manifest name).map fun pod =>
      pod.spec.containers.map fun c => containerIdOf name c.name).getD [] := by
    intro s
    unfold storedIds manifest
    cases s.store name <;> rfl
  rw [heq, heq, h]

theorem Owned.of_manifest (h : Owned s) (hmanifest : s'.manifest = s.manifest) (htrackers : SameTrackers s s') :
    Owned s' := by
  intro id hid
  rw [show s'.restartState = s.restartState from htrackers] at hid
  obtain ⟨name, hname⟩ := h id hid
  exact ⟨name, by rwa [storedIds_congr (congrFun hmanifest name)]⟩

theorem Owned.created (h : Owned s) (hnew : s.manifest pod.metadata.name = none) (hs : Created pod s s') :
    Owned s' := by
  intro id hid
  rw [show s'.restartState = s.restartState from hs.trackers] at hid
  obtain ⟨name, hname⟩ := h id hid
  have hne : name ≠ pod.metadata.name := by
    rintro rfl
    obtain ⟨old, hold, -⟩ := mem_storedIds.mp hname
    rw [hnew] at hold
    cases hold
  exact ⟨name, by rwa [storedIds_congr (hs.manifest_of_ne hne)]⟩

theorem Owned.removed (h : Owned s) (hs : Removed name s s') : Owned s' := by
  intro id hid
  rw [hs.trackers] at hid
  dsimp only at hid
  split at hid
  · cases hid
  · rename_i hnot
    obtain ⟨owner, howner⟩ := h id hid
    have hne : owner ≠ name := fun heq => hnot (heq ▸ howner)
    exact ⟨owner, by rwa [storedIds_congr (hs.manifest_of_ne hne)]⟩

/-- A liveness pass is about trackers and containers. -/
theorem reconcileLiveness_samePods (host : Host ρ) (name : PodName) (pod : Pod) (s : Reconciler ρ) :
    (left (reconcileLiveness host name pod s)).manifest = s.manifest ∧
      (left (reconcileLiveness host name pod s)).cache = s.cache := by
  refine wp_left (x := reconcileLiveness host name pod) (s := s) (P := fun s' : Reconciler ρ =>
    s'.manifest = s.manifest ∧ s'.cache = s.cache) ?_
  unfold reconcileLiveness
  rw [wp_bind, wp_get]
  cases s.store name with
  | none => exact ⟨rfl, rfl⟩
  | some state =>
    refine wp_forM ⟨rfl, rfl⟩ fun s₁ c _ ⟨hmanifest, hcache⟩ => ?_
    exact wp_mono ((reconcileContainer_onlyTracker host name c).wp s₁)
      (fun _ s₂ h₂ => ⟨h₂.manifest.trans hmanifest, h₂.cache.trans hcache⟩)
      fun _ s₂ h₂ => ⟨h₂.manifest.trans hmanifest, h₂.cache.trans hcache⟩

/-- **A liveness pass**, with an object whose containers are all in the manifest. -/
theorem Owned.reconcileLiveness (h : Owned s) (hcovers : Covers s name pod) :
    Owned (left (reconcileLiveness host name pod s)) := by
  refine (wp_left (x := Reconciler.reconcileLiveness host name pod) (s := s) (P := fun s' : Reconciler ρ =>
    Owned s' ∧ s'.manifest = s.manifest) ?_).1
  unfold Reconciler.reconcileLiveness
  rw [wp_bind, wp_get]
  cases hstate : s.store name with
  | none => exact ⟨h, rfl⟩
  | some state =>
    have hold : s.manifest name = some state.pod := congrArg (Option.map fun state : PodState => state.pod) hstate
    refine wp_forM ⟨h, rfl⟩ fun s₁ c hc ⟨h₁, hmanifest⟩ => ?_
    obtain ⟨c', hc', hname⟩ := hcovers state.pod hold c hc
    have hkept : ∀ s₂, OnlyTracker (containerIdOf name c.name) s₁ s₂ → Owned s₂ ∧ s₂.manifest = s.manifest := by
      refine fun s₂ h₂ => ⟨fun id hid => ?_, h₂.manifest.trans hmanifest⟩
      rcases eq_or_ne id (containerIdOf name c.name) with rfl | hne
      · -- the tracker that the pass is about
        refine ⟨name, mem_storedIds.mpr ⟨state.pod, ?_, c', hc', by rw [hname]⟩⟩
        rw [h₂.manifest, hmanifest, hold]
      · rw [h₂.others id hne] at hid
        obtain ⟨owner, howner⟩ := h₁ id hid
        exact ⟨owner, by rwa [storedIds_congr (congrFun h₂.manifest owner)]⟩
    exact wp_mono ((reconcileContainer_onlyTracker host name c).wp s₁) (fun _ s₂ h₂ => hkept s₂ h₂)
      fun _ s₂ h₂ => hkept s₂ h₂

/-! ## The cache -/

/-- After a resync the cache has what has been listed. -/
theorem cache_resync (host : Host ρ) (desired : PodMap) (names : List PodName) (s : Reconciler ρ) :
    (resync host desired names s).cache = desired.get := by
  have hcreate : ∀ (s : Reconciler ρ) (pod : Pod), (if (s.store pod.metadata.name).isNone then
      left (createPod host pod s) else s).cache = s.cache := by
    intro s pod
    split
    · exact (createPod_created host pod s).cache
    · rfl
  unfold resync applyDiff reconcileAll removeGone createMissing
  rw [Runs.foldl_keeps cache fun s pod => (reconcileLiveness_samePods host pod.metadata.name pod s).2,
    Runs.foldl_keeps cache fun s name => (removePod_removed host name s).cache,
    Runs.foldl_keeps cache hcreate]

/-- A watch event is about the object of one name. -/
theorem cache_watch (host : Host ρ) (event : WatchEvent Pod) (s : Reconciler ρ) :
    (applyWatchEvent host event s).cache =
      Function.update s.cache event.object.metadata.name event.value := by
  obtain ⟨type, pod⟩ := event
  have happly : (applyPod host pod s).cache = Function.update s.cache pod.metadata.name (some pod) := by
    unfold applyPod
    dsimp only
    split
    · exact (createPod_created host pod _).cache
    · rfl
  cases type with
  | added | modified => exact happly
  | deleted => exact (removePod_removed host pod.metadata.name _).cache

/-! ## Resyncs -/

theorem Owned.createMissing {desired : List Pod} (h : Owned s) :
    Owned (createMissing host desired s) ∧
      ∀ name, (createMissing host desired s).manifest name = s.manifest name ∨
        ∃ pod ∈ desired, pod.metadata.name = name ∧ (createMissing host desired s).manifest name = some pod := by
  induction desired generalizing s with
  | nil => exact ⟨h, fun _ => .inl rfl⟩
  | cons pod rest ih =>
    unfold Reconciler.createMissing at ih ⊢
    rw [List.foldl_cons]
    split
    · rename_i hnone
      have hnew : s.manifest pod.metadata.name = none := by
        rw [manifest, Option.isNone_iff_eq_none.mp hnone]
        rfl
      have hcreated := createPod_created host pod s
      obtain ⟨howned, hmanifest⟩ := ih (h.created hnew hcreated)
      refine ⟨howned, fun name => ?_⟩
      obtain hsame | ⟨pod', hpod', hname, hcame⟩ := hmanifest name
      · rw [hsame]
        obtain hsame' | hcame := hcreated.manifest
        · exact .inl (congrFun hsame' name)
        · rw [hcame]
          rcases eq_or_ne name pod.metadata.name with rfl | hne
          · exact .inr ⟨pod, List.mem_cons_self, rfl, Function.update_self ..⟩
          · exact .inl (Function.update_of_ne hne ..)
      · exact .inr ⟨pod', List.mem_cons_of_mem _ hpod', hname, hcame⟩
    · obtain ⟨howned, hmanifest⟩ := ih h
      refine ⟨howned, fun name => (hmanifest name).imp_right ?_⟩
      rintro ⟨pod', hpod', hname, hcame⟩
      exact ⟨pod', List.mem_cons_of_mem _ hpod', hname, hcame⟩

theorem Owned.removeAll (host : Host ρ) (h : Owned s) (names : List PodName) :
    Owned (names.foldl (fun s name => left (removePod host name s)) s) ∧
      ∀ name, (names.foldl (fun s name => left (removePod host name s)) s).manifest name =
        if name ∈ names then none else s.manifest name := by
  induction names generalizing s with
  | nil => exact ⟨h, fun _ => rfl⟩
  | cons first rest ih =>
    have hremoved := removePod_removed host first s
    obtain ⟨howned, hmanifest⟩ := ih (h.removed hremoved)
    refine ⟨howned, fun name => ?_⟩
    rw [List.foldl_cons, hmanifest, hremoved.manifest, Function.update_apply]
    by_cases hfirst : name = first <;> simp [hfirst]

theorem Owned.reconcileAll (host : Host ρ) {desired : List Pod} (h : Owned s)
    (hcovers : ∀ pod ∈ desired, Covers s pod.metadata.name pod) :
    Owned (reconcileAll host desired s) ∧ (reconcileAll host desired s).manifest = s.manifest := by
  induction desired generalizing s with
  | nil => exact ⟨h, rfl⟩
  | cons pod rest ih =>
    obtain ⟨hpod, hrest⟩ := List.forall_mem_cons.mp hcovers
    have howned : Owned (left (Reconciler.reconcileLiveness host pod.metadata.name pod s)) := h.reconcileLiveness hpod
    have hmanifest := (reconcileLiveness_samePods host pod.metadata.name pod s).1
    unfold Reconciler.reconcileAll at ih ⊢
    rw [List.foldl_cons]
    have hcovers' : ∀ pod' ∈ rest, Covers (left (Reconciler.reconcileLiveness host pod.metadata.name pod s))
        pod'.metadata.name pod' := by
      intro pod' hpod' old hold
      rw [hmanifest] at hold
      exact hrest pod' hpod' old hold
    obtain ⟨howned', hmanifest'⟩ := ih howned hcovers'
    exact ⟨howned', hmanifest'.trans hmanifest⟩

/-! ## Steps -/

/-- The trackers are owned, and the pods of the store are in the cache. -/
structure Settled (s : Reconciler ρ) : Prop where
  owned : Owned s
  cached : ∀ name, (s.manifest name).isSome → (s.cache name).isSome

/-- No pass meets a container that the manifest of its pod does not have. The names of a resync are those of
the store. -/
def MeetsNothingNew (s : Reconciler ρ) : KubeletStep → Prop
  | .resync desired names => (∀ pod ∈ desired.pods, Covers s pod.metadata.name pod) ∧
    ∀ name, (s.manifest name).isSome → name ∈ names
  | .liveness name => ∀ pod, s.cache name = some pod → Covers s name pod
  | .watch _ | .report _ | .push _ _ _ => True

/-- The cache changes and loses nothing. -/
structure Recached (s s' : Reconciler ρ) : Prop where
  manifest : s'.manifest = s.manifest
  trackers : SameTrackers s s'
  cached : ∀ name, (s.cache name).isSome → (s'.cache name).isSome

instance : Std.Refl (@Recached ρ) where
  refl _ := ⟨rfl, rfl, fun _ h => h⟩

instance : IsTrans (Reconciler ρ) Recached where
  trans _ _ _ h h' := ⟨h'.manifest.trans h.manifest, Eq.trans h'.trackers h.trackers,
    fun name hname => h'.cached name (h.cached name hname)⟩

theorem Settled.recached (h : Settled s) (hs : Recached s s') : Settled s' where
  owned := h.owned.of_manifest hs.manifest hs.trackers
  cached name hthere := hs.cached name (h.cached name (by rwa [← hs.manifest]))

theorem Pushed.recached {brought : PodName → Pod → Prop} (h : Pushed brought s s') : Recached s s' where
  manifest := by
    funext name
    rw [manifest, manifest, h.store]
  trackers := h.restartState
  cached := h.kept

theorem computePodStatus_sameBooks (host : Host ρ) (pod : Pod) :
    Keeps SameBooks (computePodStatus host pod) := by
  unfold computePodStatus
  refine .bind (fun s => Std.Refl.refl s) fun s => (Keeps.mapM (fun c => ?_) _).bind fun states => .pure _
  unfold stateOrNotFound
  refine (onRuntime_sameBooks _).attempt.bind fun state => ?_
  cases state <;> exact .pure _

theorem SameBooks.recached (h : SameBooks s s') : Recached s s' :=
  ⟨h.manifest, h.trackers, fun name hname => by rwa [h.cache]⟩

theorem Settled.applyPod (h : Settled s) : Settled (applyPod host pod s) := by
  have hcached : Pushed (fun _ _ => True) s
      { s with cache := Function.update s.cache pod.metadata.name (some pod) } := .update trivial rfl rfl rfl rfl
  have hrecached := h.recached hcached.recached
  unfold Reconciler.applyPod
  dsimp only
  split
  · rename_i hnone
    -- what is not in the cache is not in the store
    have hnew : s.manifest pod.metadata.name = none := by
      by_contra hthere
      have hcached := h.cached _ (Option.isSome_iff_ne_none.mpr hthere)
      rw [Option.isNone_iff_eq_none.mp hnone] at hcached
      cases hcached
    let cached := { s with cache := Function.update s.cache pod.metadata.name (some pod) }
    have hcreated : Created pod cached (left (createPod host pod cached)) := createPod_created host pod cached
    refine ⟨hrecached.owned.created hnew hcreated, fun name hthere => ?_⟩
    rw [hcreated.cache]
    rcases eq_or_ne name pod.metadata.name with rfl | hne
    · simp [cached]
    · rw [hcreated.manifest_of_ne hne] at hthere
      exact hrecached.cached name hthere
  · exact hrecached

theorem Settled.watch (h : Settled s) {event : WatchEvent Pod} :
    Settled (applyWatchEvent host event s) := by
  have hcache := cache_watch host event s
  obtain ⟨type, pod⟩ := event
  cases type with
  | added | modified => exact h.applyPod
  | deleted =>
    have hremoved := removePod_removed host pod.metadata.name
      { s with cache := Function.update s.cache pod.metadata.name none }
    have howned : Owned { s with cache := Function.update s.cache pod.metadata.name none } := h.owned
    refine ⟨howned.removed hremoved, fun name hthere => ?_⟩
    have hmanifest : (applyWatchEvent host ⟨.deleted, pod⟩ s).manifest =
        Function.update s.manifest pod.metadata.name none := hremoved.manifest
    rw [hmanifest] at hthere
    have hne : name ≠ pod.metadata.name := by
      rintro rfl
      rw [Function.update_self] at hthere
      cases hthere
    rw [hcache, Function.update_of_ne hne]
    rw [Function.update_of_ne hne] at hthere
    exact h.cached name hthere

theorem Settled.resync (h : Settled s) {desired : PodMap} {names : List PodName}
    (hmeets : s.MeetsNothingNew (.resync desired names)) : Settled (resync host desired names s) := by
  obtain ⟨hdesired, hnames⟩ := hmeets
  have howned : Owned { s with cache := desired.get } := h.owned
  obtain ⟨hcreated, hmanifest₁⟩ := @Owned.createMissing _ host _ desired.pods howned
  set s₁ := Reconciler.createMissing host desired.pods { s with cache := desired.get }
  obtain ⟨hremoved, hmanifest₂⟩ := hcreated.removeAll host
    (names.filter fun name => (s₁.store name).isSome ∧ (desired.get name).isNone)
  set s₂ := (names.filter fun name => (s₁.store name).isSome ∧ (desired.get name).isNone).foldl
    (fun s name => left (removePod host name s)) s₁
  have hcovers : ∀ pod ∈ desired.pods, Covers s₂ pod.metadata.name pod := by
    intro pod hpod old hold c hc
    have hold₁ : s₁.manifest pod.metadata.name = some old := by
      rw [hmanifest₂] at hold
      split at hold
      · cases hold
      · exact hold
    obtain hsame | ⟨pod', hpod', hname, hcame⟩ := hmanifest₁ pod.metadata.name
    · exact hdesired pod hpod old (hsame.symm.trans hold₁) c hc
    · -- the pod has just been created
      have hget := PodMap.get_of_mem hpod'
      rw [hname, PodMap.get_of_mem hpod] at hget
      rw [hcame, ← Option.some.inj hget] at hold₁
      exact ⟨c, Option.some.inj hold₁ ▸ hc, rfl⟩
  obtain ⟨hreconciled, hmanifest₃⟩ := hremoved.reconcileAll host hcovers
  refine ⟨hreconciled, fun name hthere => ?_⟩
  rw [cache_resync]
  rw [show (Reconciler.resync host desired names s).manifest = _ from hmanifest₃, hmanifest₂] at hthere
  split at hthere
  · cases hthere
  · rename_i hkept
    by_contra hnot
    have hnone : (desired.get name).isNone := by simpa using hnot
    have hstored : (s₁.store name).isSome := by rwa [manifest, Option.isSome_map] at hthere
    refine hkept (List.mem_filter.mpr ⟨?_, by simp [hstored, hnone]⟩)
    obtain hsame | ⟨pod, hpod, rfl, -⟩ := hmanifest₁ name
    · exact hnames name (by rwa [hsame] at hthere)
    · rw [PodMap.get_of_mem hpod] at hnone
      cases hnone

theorem Settled.step (h : Settled s) {step : KubeletStep} (hmeets : s.MeetsNothingNew step) :
    Settled (kubeletStep host s step) := by
  cases step with
  | watch event => exact h.watch
  | resync desired names => exact h.resync hmeets
  | liveness name =>
    simp only [kubeletStep]
    cases hcache : s.cache name with
    | none => exact h
    | some pod =>
      obtain ⟨hmanifest, hsame⟩ := reconcileLiveness_samePods host name pod s
      refine ⟨h.owned.reconcileLiveness (hmeets pod hcache), fun name hthere => ?_⟩
      rw [hsame]
      exact h.cached name (by rwa [← hmanifest])
  | report name =>
    simp only [kubeletStep]
    cases s.cache name with
    | none => exact h
    | some pod => exact h.recached (computePodStatus_sameBooks host pod s).recached
  | push name status answers => exact h.recached (pushStatus_pushed name status answers s).recached

/-! ## Runs -/

/-- Where there is no pod, there are no trackers of it. -/
theorem Owned.restartState_eq_none (h : Owned s) (hstored : ∀ name, (s.manifest name).isSome → Splits name)
    (hsplits : Splits name) (habsent : s.store name = none) (container : String) :
    s.restartState (containerIdOf name container) = none := by
  by_contra hthere
  obtain ⟨owner, howner⟩ := h _ (Option.isSome_iff_ne_none.mpr hthere)
  obtain ⟨pod, hpod, c, -, hid⟩ := mem_storedIds.mp howner
  have howner : Splits owner := hstored owner (by rw [hpod]; rfl)
  obtain ⟨rfl, -⟩ := Prod.mk.inj ((containerIdOf_eq_iff howner hsplits).mp hid)
  rw [manifest, habsent] at hpod
  cases hpod

/-- A pod without trackers is reported with counts of zero. -/
theorem restartCount_computePodStatus {status : PodStatus}
    (hnone : ∀ container, s.restartState (containerIdOf pod.metadata.name container) = none)
    (h : computePodStatus host pod s = .ok status s') :
    ∀ cs ∈ status.containerStatuses, cs.restartCount = 0 := by
  have hcounts : wp (computePodStatus host pod)
      (fun status _ => ∀ cs ∈ status.containerStatuses, cs.restartCount = 0) (fun _ _ => True) s := by
    unfold computePodStatus
    rw [wp_bind, wp_get, wp_bind]
    refine wp_of_forall (fun states _ => ?_) fun _ _ => trivial
    rw [wp_pure, List.forall_mem_map]
    rintro ⟨c, state⟩ -
    have hcount : (((s.restartState (pod.metadata.name ++ "__" ++ c.name)).map (·.restartCount)).getD 0) = 0 := by
      rw [show s.restartState (pod.metadata.name ++ "__" ++ c.name) = none from hnone c.name]
      rfl
    show (containerStatus _ c state).restartCount = 0
    rw [hcount]
    cases state <;> rfl
  unfold wp at hcounts
  rw [h] at hcounts
  exact hcounts

/-- **Trackers.** In every run in which no liveness pass meets a container that has been added since its
pod was created, each tracker is of a container of a pod in the store. Where names can be read off ids,
there are none then of a pod that is not in the store, and one that comes is reported with counts of zero. -/
theorem trackers_owned (host : Host ρ) (hstart : s.restartState = fun _ => none)
    (hstore : ∀ name, (s.manifest name).isSome → (s.cache name).isSome)
    (steps : List KubeletStep) (hmeets : ∀ past step, past ++ [step] <+: steps →
      (past.foldl (kubeletStep host) s).MeetsNothingNew step) {past : List KubeletStep} (hp : past <+: steps) :
    Owned (past.foldl (kubeletStep host) s) ∧
      ((∀ name, ((past.foldl (kubeletStep host) s).manifest name).isSome → Splits name) →
        ∀ pod : Pod, Splits pod.metadata.name →
          (past.foldl (kubeletStep host) s).store pod.metadata.name = none →
            (∀ container, (past.foldl (kubeletStep host) s).restartState
              (containerIdOf pod.metadata.name container) = none) ∧
            ∀ status s', computePodStatus host pod (left (createPod host pod
              (past.foldl (kubeletStep host) s))) = .ok status s' →
                ∀ cs ∈ status.containerStatuses, cs.restartCount = 0) := by
  have hinit : Settled s := by
    refine ⟨fun id hid => ?_, hstore⟩
    rw [hstart] at hid
    cases hid
  have hrun : ∀ past, past <+: steps → Settled (past.foldl (kubeletStep host) s) :=
    Runs.invariant_of_ok (fun s step h hok => h.step hok) hinit hmeets
  have h := (hrun past hp).owned
  refine ⟨h, fun hstored pod hsplits habsent => ?_⟩
  have hnone := h.restartState_eq_none hstored hsplits habsent
  refine ⟨hnone, fun status s' hstatus => restartCount_computePodStatus (fun container => ?_) hstatus⟩
  rw [show (left (createPod host pod _)).restartState = _ from (createPod_created host pod _).trackers]
  exact hnone container

/-! ### A pod that comes and goes -/

theorem manifest_watch_of_ne {event : WatchEvent Pod} (hne : name ≠ event.object.metadata.name) :
    (kubeletStep host s (.watch event)).manifest name = s.manifest name := by
  obtain ⟨type, pod⟩ := event
  have happly : (applyPod host pod s).manifest name = s.manifest name := by
    unfold applyPod
    dsimp only
    split
    · exact (createPod_created host pod _).manifest_of_ne hne
    · rfl
  cases type with
  | added | modified => exact happly
  | deleted => exact (removePod_removed host pod.metadata.name _).manifest_of_ne hne

theorem manifest_liveness (other : PodName) :
    (kubeletStep host s (.liveness other)).manifest = s.manifest := by
  simp only [kubeletStep]
  cases s.cache other with
  | none => rfl
  | some pod => exact (reconcileLiveness_samePods host other pod s).1

/-- "web" with these containers. -/
def webWith (containers : List String) : Pod :=
  { podNamed "web" none with
    spec := { containers := containers.map fun name => ⟨name, "busybox", []⟩, nodeName := some "a" } }

/-- "web" comes, a liveness pass follows, and the pod is deleted. -/
def plainSteps : List KubeletStep :=
  [.watch ⟨.added, webWith ["app"]⟩, .liveness "web", .watch ⟨.deleted, webWith ["app"]⟩]

theorem trackers_owned_plain :
    Owned (plainSteps.foldl (kubeletStep mockHost) bareNode) ∧
      ∀ container, (plainSteps.foldl (kubeletStep mockHost) bareNode).restartState
        (containerIdOf "web" container) = none := by
  have hmeets : ∀ past step, past ++ [step] <+: plainSteps →
      (past.foldl (kubeletStep mockHost) bareNode).MeetsNothingNew step := by
    refine Runs.forall_concat_prefix_iff.mpr fun i hi => ?_
    match i, hi with
    | 0, _ | 2, _ => exact trivial
    | 1, _ =>
      intro pod hpod old hold c hc
      -- the object in the cache is the manifest
      have hsame : ((plainSteps.take 1).foldl (kubeletStep mockHost) bareNode).cache "web" =
          ((plainSteps.take 1).foldl (kubeletStep mockHost) bareNode).manifest "web" := by decide +kernel
      rw [hpod, hold] at hsame
      exact ⟨c, Option.some.inj hsame ▸ hc, rfl⟩
    | _ + 3, hi =>
      simp only [plainSteps, List.length_cons, List.length_nil] at hi
      omega
  have hgone : (plainSteps.foldl (kubeletStep mockHost) bareNode).store "web" = none :=
    Option.isNone_iff_eq_none.mp (by decide +kernel)
  have hsplits : Splits (webWith ["app"]).metadata.name := by unfold Splits; decide
  have hthese : ∀ name, ((plainSteps.foldl (kubeletStep mockHost) bareNode).manifest name).isSome → Splits name := by
    intro name hthere
    rcases eq_or_ne name "web" with rfl | hne
    · exact hsplits
    · simp only [plainSteps, List.foldl_cons, List.foldl_nil] at hthere
      rw [manifest_watch_of_ne hne, manifest_liveness, manifest_watch_of_ne hne] at hthere
      exact absurd hthere Bool.false_ne_true
  obtain ⟨howned, hnone⟩ := trackers_owned mockHost (s := bareNode) rfl
    (fun name hname => absurd hname Bool.false_ne_true) plainSteps hmeets List.prefix_rfl
  have hweb := hnone hthese (webWith ["app"]) hsplits
  rw [show (webWith ["app"]).metadata.name = "web" from rfl] at hweb
  exact ⟨howned, (hweb hgone).1⟩

/-- A container is added to "web", a liveness pass follows, and the pod is deleted. -/
def grownSteps : List KubeletStep :=
  [.watch ⟨.added, webWith ["app"]⟩, .watch ⟨.modified, webWith ["app", "extra"]⟩, .liveness "web",
    .watch ⟨.deleted, webWith ["app", "extra"]⟩]

/-- The tracker of the container stays, and the next pod of the name begins with its count. -/
theorem trackers_outlive :
    ¬ Owned (grownSteps.foldl (kubeletStep mockHost) bareNode) ∧
      (grownSteps.foldl (kubeletStep mockHost) bareNode).store "web" = none ∧
      ((grownSteps.foldl (kubeletStep mockHost) bareNode).restartState "web__extra").map (·.restartCount) =
        some 1 ∧
      ∃ status s', computePodStatus mockHost (webWith ["extra"]) (left (createPod mockHost (webWith ["extra"])
        (grownSteps.foldl (kubeletStep mockHost) bareNode))) = .ok status s' ∧
          status.containerStatuses.map (·.restartCount) = [1] := by
  have hgone : (grownSteps.foldl (kubeletStep mockHost) bareNode).store "web" = none :=
    Option.isNone_iff_eq_none.mp (by decide +kernel)
  have htracker : ((grownSteps.foldl (kubeletStep mockHost) bareNode).restartState "web__extra").map
      (·.restartCount) = some 1 := by decide +kernel
  have hcounts : (match computePodStatus mockHost (webWith ["extra"]) (left (createPod mockHost
      (webWith ["extra"]) (grownSteps.foldl (kubeletStep mockHost) bareNode))) with
    | .ok status _ => status.containerStatuses.map (·.restartCount)
    | .error _ _ => []) = [1] := by decide +kernel
  refine ⟨fun h => ?_, hgone, htracker, ?_⟩
  · have hempty : ∀ name, (grownSteps.foldl (kubeletStep mockHost) bareNode).manifest name = none := by
      intro name
      rcases eq_or_ne name "web" with rfl | hne
      · rw [manifest, hgone]
        rfl
      · simp only [grownSteps, List.foldl_cons, List.foldl_nil]
        rw [manifest_watch_of_ne hne, manifest_liveness, manifest_watch_of_ne hne, manifest_watch_of_ne hne]
        rfl
    obtain ⟨tracker, hthere, -⟩ := Option.map_eq_some_iff.mp htracker
    obtain ⟨name, hname⟩ := h "web__extra" (by rw [hthere]; rfl)
    obtain ⟨pod, hpod, -⟩ := mem_storedIds.mp hname
    rw [hempty] at hpod
    cases hpod
  · cases hstatus : computePodStatus mockHost (webWith ["extra"]) (left (createPod mockHost (webWith ["extra"])
      (grownSteps.foldl (kubeletStep mockHost) bareNode))) with
    | ok status s' =>
      rw [hstatus] at hcounts
      exact ⟨status, s', rfl, hcounts⟩
    | error e s' =>
      rw [hstatus] at hcounts
      cases hcounts

end Reconciler

end MyK8s.Kubelet
