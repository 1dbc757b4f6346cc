import MyK8s.Kubelet.Rollback
import MyK8s.Kubelet.Trackers

/-!
# Containers that belong to nobody

A container whose pod is not in the store, or whose sandbox does not know of it, is never taken down. As
long as what has been created can be started and given an address, and what is there can be deleted, the
kubelet makes no such container, whatever else fails and whatever it is told (`strays_never_grow`). What
is left after `shutdown` was a stray before the kubelet started.
-/

namespace MyK8s.Kubelet

open Fallible
open ApiServer (WatchEvent)

variable {ρ : Type}

/-- A container that has been created comes up. -/
structure ComesUp (host : Host ρ) : Prop where
  start : ∀ id r, ¬ Fails (host.startContainer id) r
  pid : ∀ id dir r r' r'', host.createContainer id dir r = .ok () r' →
    host.startContainer id r' = .ok () r'' →
      ∃ pid r₃, host.containerPid id r'' = .ok (some pid) r₃
  setupPodNetwork : ∀ pid name ip r, ¬ Fails (host.setupPodNetwork pid name ip) r

/-! ## Sandboxes -/

namespace PodSandbox

variable {host : Host ρ} {inUse : ρ → Set String} {sandbox : PodSandbox} {r : ρ} {container : Container}

/-- A pause container that is there belongs to a sandbox. -/
theorem create_all_or_nothing (C : RuntimeContract host inUse) (U : ComesUp host) (ip : String) :
    wp (sandbox.create host (some ip)) (fun _ r' => inUse r' = insert sandbox.pauseId (inUse r))
      (fun _ r' => inUse r' = inUse r) r := by
  unfold create
  simp only [wp_bind, wp_addContext, wp_withContext]
  refine wp_mono ((C.writeBundle _ _ _ _).wp r) (fun _ r₁ h₁ => ?_) fun _ r₁ h₁ => h₁
  refine wp_mono (wp_and (C.create ..) wp_self) (fun _ r₂ h => ?_) fun _ r₂ h => h.1.2.trans h₁
  obtain ⟨⟨-, h₂⟩, hcreate⟩ := h
  refine wp_mono (wp_of_not_fails (U.start _ _) (wp_and ((C.start _).wp r₂) wp_self)) (fun _ r₃ h => ?_)
    fun _ _ h => h.elim
  obtain ⟨h₃, hstart⟩ := h
  obtain ⟨pid, r₄, hpid⟩ := U.pid _ _ _ _ _ hcreate hstart
  have h₄ : inUse r₄ = inUse r₃ := by
    have hleaves := (C.pid sandbox.pauseId).wp r₃
    rwa [wp_of_eq_ok hpid] at hleaves
  rw [wp_of_eq_ok hpid]
  show wp (sandbox.configureNetwork host pid (some ip) >>= _) _ _ r₄
  rw [wp_bind]
  have hnetwork : wp (sandbox.configureNetwork host pid (some ip)) (fun _ r' => inUse r' = inUse r₄)
      (fun _ _ => False) r₄ :=
    wp_addContext.mpr (wp_of_not_fails (U.setupPodNetwork _ _ _ _) ((C.setupPodNetwork _ _ _).wp r₄))
  refine wp_mono hnetwork (fun _ r₅ h₅ => ?_) fun _ _ h => h.elim
  rw [wp_pure, h₅, h₄, h₃, h₂, h₁]

theorem addContainer_all_or_nothing (C : RuntimeContract host inUse) (U : ComesUp host) :
    wp (sandbox.addContainer host container)
      (fun _ r' => inUse r' = insert (sandbox.containerIdFor container.name) (inUse r))
      (fun _ r' => inUse r' = inUse r) r := by
  unfold addContainer
  cases sandbox.pausePid with
  | none => exact rfl
  | some pausePid =>
    simp only [wp_bind, wp_addContext, wp_withContext, wp_pure]
    refine wp_mono ((C.writeBundle _ _ _ _).wp r) (fun _ r₁ h₁ => ?_) fun _ r₁ h₁ => h₁
    refine wp_mono (C.create ..) (fun _ r₂ h₂ => ?_) fun _ r₂ h₂ => h₂.2.trans h₁
    refine wp_mono (wp_of_not_fails (U.start _ _) ((C.start _).wp r₂)) (fun _ r₃ h₃ => ?_)
      fun _ _ h => h.elim
    rw [h₃, h₂.2, h₁]

end PodSandbox

namespace Reconciler

variable {host : Host ρ} {inUse : ρ → Set String} {s s' : Reconciler ρ} {pod : Pod} {name : PodName}

/-- The ids that the sandbox of a pod knows. -/
def heldIds (s : Reconciler ρ) (name : PodName) : Set String :=
  {id | ∃ state, s.store name = some state ∧ id ∈ state.sandbox.containerIds}

/-- The containers that no sandbox knows of. -/
def strays (inUse : ρ → Set String) (s : Reconciler ρ) : Set String :=
  {id | id ∈ inUse s.runtime ∧ ∀ name, id ∉ s.heldIds name}

/-- No container has become a stray. -/
def NoNewStrays (inUse : ρ → Set String) (s s' : Reconciler ρ) : Prop := strays inUse s' ⊆ strays inUse s

instance : Std.Refl (@NoNewStrays ρ inUse) where
  refl _ := subset_rfl

instance : IsTrans (Reconciler ρ) (NoNewStrays inUse) where
  trans _ _ _ h h' := Set.Subset.trans h' h

theorem NoNewStrays.trans {s'' : Reconciler ρ} (h : NoNewStrays inUse s s') (h' : NoNewStrays inUse s' s'') :
    NoNewStrays inUse s s'' := Set.Subset.trans h' h

/-- No container has come, and those that have stayed are known as before. -/
theorem NoNewStrays.of_fewer (hused : inUse s'.runtime ⊆ inUse s.runtime)
    (hheld : ∀ name id, id ∈ inUse s'.runtime → id ∈ s.heldIds name → id ∈ s'.heldIds name) :
    NoNewStrays inUse s s' := by
  rintro id ⟨hid, hnot⟩
  exact ⟨hused hid, fun name hmem => hnot name (hheld name id hid hmem)⟩

theorem heldIds_congr (hstore : s'.store = s.store) (name : PodName) : s'.heldIds name = s.heldIds name := by
  unfold heldIds
  rw [hstore]

theorem NoNewStrays.of_store (hused : inUse s'.runtime ⊆ inUse s.runtime) (hstore : s'.store = s.store) :
    NoNewStrays inUse s s' :=
  .of_fewer hused fun name id _ hmem => by rwa [heldIds_congr hstore]

theorem onRuntime_noNewStrays {ε α : Type} {x : EStateM ε ρ α} (h : Leaves inUse x) :
    Keeps (NoNewStrays inUse) (onRuntime x) :=
  .of_wp fun s => wp_onRuntime.mpr (wp_mono (h.wp s.runtime) (fun _ _ heq => .of_store heq.le rfl)
    fun _ _ heq => .of_store heq.le rfl)

/-! ## A pod that comes -/

/-- The containers that have been added, or none of the sandbox. -/
theorem addContainers_all_or_nothing (C : RuntimeContract host inUse) (D : Deletable host inUse)
    (U : ComesUp host) (ip : String) (sandbox : PodSandbox) (containers : List Container)
    (before : Set String) (hbefore : inUse s.runtime ⊆ before ∪ {id | id ∈ sandbox.containerIds}) :
    wp (addContainers host ip sandbox containers)
      (fun sandbox' s' => s'.store = s.store ∧
        inUse s'.runtime ⊆ before ∪ {id | id ∈ sandbox'.containerIds})
      (fun _ s' => s'.store = s.store ∧ inUse s'.runtime ⊆ before) s := by
  induction containers generalizing sandbox s with
  | nil => exact ⟨rfl, hbefore⟩
  | cons container rest ih =>
    unfold addContainers
    rw [wp_bind, wp_attempt, wp_onRuntime]
    refine wp_mono (wp_and PodSandbox.addContainer_eq (PodSandbox.addContainer_all_or_nothing C U))
      (fun sandbox' r h => ?_) fun e r h => ?_
    · obtain ⟨rfl, hgrown⟩ := h
      refine ih (s := { s with runtime := r }) _ fun id hid => ?_
      change id ∈ inUse r at hid
      rw [hgrown] at hid
      rcases hid with rfl | hid
      · exact .inr ((PodSandbox.mem_containerIds_push sandbox container.name _).mpr (.inr rfl))
      · exact (hbefore hid).imp_right fun hmem =>
          (PodSandbox.mem_containerIds_push sandbox container.name id).mpr (.inl hmem)
    · show wp (attempt (onRuntime (sandbox.destroy host)) >>= _) _ _ _
      rw [wp_bind, wp_attempt, wp_onRuntime]
      refine wp_mono (PodSandbox.destroy_clears C D) (fun _ r' hcleared => ?_) fun _ _ h => h.elim
      refine ⟨store_releaseIp .., fun id hid => ?_⟩
      rw [runtime_releaseIp] at hid
      obtain ⟨hid, hnot⟩ := hcleared hid
      rw [h.2] at hid
      exact (hbefore hid).resolve_right hnot

theorem createPod_noNewStrays (C : RuntimeContract host inUse) (D : Deletable host inUse) (U : ComesUp host)
    (hnew : s.store pod.metadata.name = none) : NoNewStrays inUse s (left (createPod host pod s)) := by
  refine wp_left (P := fun s' : Reconciler ρ => NoNewStrays inUse s s') ?_
  unfold createPod createSandbox
  simp only [wp_bind, wp_get, wp_onRuntime, wp_addContext, wp_pure]
  refine wp_mono ensurePodIp_frame (fun ip s₁ h₁ => ?_) fun _ s₁ h₁ => ?_
  swap
  · rw [h₁]
    exact .of_store subset_rfl rfl
  rw [h₁]
  refine wp_mono (wp_and PodSandbox.create_eq (PodSandbox.create_all_or_nothing C U ip)) (fun made r h => ?_)
    fun _ r h => .of_store h.2.le rfl
  obtain ⟨⟨pid, rfl⟩, hpaused⟩ := h
  refine wp_mono (addContainers_all_or_nothing C D U ip _ pod.spec.containers (inUse s.runtime)
    fun id hid => ?_) (fun sandbox s₂ h => ?_) fun _ s₂ h => .of_store h.2 h.1
  · change id ∈ inUse r at hid
    rw [hpaused] at hid
    rcases hid with rfl | hid
    · exact .inr List.mem_cons_self
    · exact .inl hid
  · obtain ⟨hstore, hused⟩ := h
    have hstore₂ : (insert ⟨pod, sandbox⟩ s₂).store =
        Function.update s.store pod.metadata.name (some ⟨pod, sandbox⟩) := by
      show Function.update s₂.store _ _ = _
      rw [hstore]
    rintro id ⟨hid, hnot⟩
    refine ⟨(hused hid).resolve_right fun hmem => hnot pod.metadata.name
      ⟨⟨pod, sandbox⟩, ?_, hmem⟩, fun name hmem => ?_⟩
    · rw [hstore₂, Function.update_self]
    · obtain ⟨state, hstate, hmem⟩ := hmem
      have hne : name ≠ pod.metadata.name := by
        rintro rfl
        rw [hnew] at hstate
        cases hstate
      refine hnot name ⟨state, ?_, hmem⟩
      rw [hstore₂, Function.update_of_ne hne, hstate]

/-! ## A pod that goes -/

theorem removePod_noNewStrays (C : RuntimeContract host inUse) (D : Deletable host inUse) (name : PodName) :
    NoNewStrays inUse s (left (removePod host name s)) := by
  refine wp_left (P := fun s' : Reconciler ρ => NoNewStrays inUse s s') ?_
  unfold removePod
  rw [wp_bind, wp_get]
  cases hstate : s.store name with
  | none => exact .of_store subset_rfl rfl
  | some state =>
    simp only [wp_bind, wp_set, wp_onRuntime]
    refine wp_mono (PodSandbox.destroy_clears C D) (fun _ r hcleared => ?_) fun _ _ h => h.elim
    -- what is left was not of this pod, and the other pods are as they were
    have hgone : ∀ s' : Reconciler ρ, s'.runtime = r → s'.store = Function.update s.store name none →
        NoNewStrays inUse s s' := by
      intro s' hruntime hstore
      refine .of_fewer (fun id hid => ?_) fun other id hid hmem => ?_
      · rw [hruntime] at hid
        exact (hcleared hid).1
      · rw [hruntime] at hid
        obtain ⟨state', hstate', hmem⟩ := hmem
        have hne : other ≠ name := by
          rintro rfl
          obtain rfl := Option.some.inj (hstate.symm.trans hstate')
          exact (hcleared hid).2 hmem
        exact ⟨state', by rw [hstore, Function.update_of_ne hne, hstate'], hmem⟩
    cases state.sandbox.podIp with
    | none => exact hgone _ rfl rfl
    | some ip => exact hgone _ (runtime_releaseIp ..) (store_releaseIp ..)

/-! ## A container that is restarted -/

/-- The sandbox of a pod gets another list. -/
theorem setSandbox_noNewStrays (fresh : Set String) {state : PodState} (hstate : s.store name = some state)
    {r : ρ} {sandbox : PodSandbox} (hused : inUse r ⊆ inUse s.runtime ∪ fresh)
    (hfresh : ∀ id ∈ fresh, id ∈ sandbox.containerIds)
    (hheld : ∀ id ∈ inUse r, id ∈ state.sandbox.containerIds → id ∈ sandbox.containerIds) :
    NoNewStrays inUse s (setSandbox name sandbox { s with runtime := r }) := by
  have hstore : (setSandbox name sandbox { s with runtime := r }).store =
      Function.update s.store name (some { state with sandbox := sandbox }) := by
    simp [setSandbox, hstate]
  have hown : ∀ id ∈ sandbox.containerIds, id ∈ (setSandbox name sandbox { s with runtime := r }).heldIds name :=
    fun id hid => ⟨_, by rw [hstore, Function.update_self], hid⟩
  rintro id ⟨hid, hnot⟩
  refine ⟨(hused hid).resolve_right fun hmem => hnot name (hown id (hfresh id hmem)), fun other hmem => ?_⟩
  obtain ⟨state', hstate', hmem⟩ := hmem
  rcases eq_or_ne other name with rfl | hne
  · obtain rfl := Option.some.inj (hstate.symm.trans hstate')
    exact hnot other (hown id (hheld id hid hmem))
  · exact hnot other ⟨state', by rw [hstore, Function.update_of_ne hne, hstate'], hmem⟩

theorem restart_noNewStrays (C : RuntimeContract host inUse) (D : Deletable host inUse) (U : ComesUp host)
    (name : PodName) (container : Container) :
    Keeps (NoNewStrays inUse) (restart host name container) := by
  refine .of_wp fun s => ?_
  unfold restart
  simp only [wp_bind, wp_get]
  cases hstate : s.store name with
  | none => exact Set.Subset.rfl
  | some state =>
    simp only [wp_bind, wp_onRuntime, wp_addContext, wp_modify]
    refine wp_mono (wp_and PodSandbox.removeOrKeep_eq (PodSandbox.removeOrKeep_clears C D container.name))
      (fun kept r h => ?_) fun _ _ h => h.2.elim
    obtain ⟨⟨names, rfl, hnames⟩, hcleared⟩ := h
    have hkept : ∀ id ∈ inUse r, id ∈ state.sandbox.containerIds →
        id ∈ PodSandbox.containerIds { state.sandbox with appContainers := names } := by
      intro id hid hmem
      rcases List.mem_cons.mp hmem with rfl | hmem
      · exact List.mem_cons_self
      · obtain ⟨other, hother, rfl⟩ := List.mem_map.mp hmem
        have hne : other ≠ container.name := by
          rintro rfl
          exact (hcleared hid).2 rfl
        exact List.mem_cons_of_mem _ (List.mem_map.mpr ⟨other, (hnames other hne).mpr hother, rfl⟩)
    have hless : inUse r ⊆ inUse s.runtime ∪ ∅ := fun id hid => .inl (hcleared hid).1
    have hfirst := setSandbox_noNewStrays ∅ hstate hless (fun _ h => h.elim) hkept
    refine wp_mono (wp_and PodSandbox.addContainer_eq (PodSandbox.addContainer_all_or_nothing C U))
      (fun added r' h => ?_) fun _ r' h => ?_
    · obtain ⟨rfl, hgrown⟩ := h
      have hstored := store_setSandbox (s := { s with runtime := r })
        { state.sandbox with appContainers := names } hstate
      refine hfirst.trans (setSandbox_noNewStrays {state.sandbox.containerIdFor container.name} (r := r')
        hstored (fun id hid => ?_) (fun id hid => ?_) fun id _ hmem => ?_)
      · rw [hgrown] at hid
        exact hid.symm
      · obtain rfl := hid
        exact (PodSandbox.mem_containerIds_push _ container.name _).mpr (.inr rfl)
      · exact (PodSandbox.mem_containerIds_push _ container.name id).mpr (.inl hmem)
    · exact hfirst.trans (.of_store h.2.le rfl)

theorem reconcileLiveness_noNewStrays (C : RuntimeContract host inUse) (D : Deletable host inUse)
    (U : ComesUp host) (name : PodName) (pod : Pod) :
    Keeps (NoNewStrays inUse) (reconcileLiveness host name pod) := by
  have hnow : ∀ x : EStateM Failure ρ ℕ, x = modifyGet host.now → Leaves inUse x := by
    rintro x rfl
    exact .modifyGet fun r => C.now r
  have hcontainer : ∀ container, Keeps (NoNewStrays inUse) (reconcileContainer host name container) := by
    intro container
    unfold reconcileContainer
    refine (onRuntime_noNewStrays (C.state _).adapt).bind fun state => ?_
    have hdue : Keeps (NoNewStrays inUse) (restartIfDue host name container) := by
      unfold restartIfDue tracker
      refine .bind (.bind (fun s => Set.Subset.rfl) fun s => ?_) fun tracker => ?_
      · cases s.restartState (name ++ "__" ++ container.name) with
        | some tracker => exact .pure tracker
        | none =>
          refine (onRuntime_noNewStrays (hnow _ rfl)).bind fun now => ?_
          exact .bind (.modify fun s => .of_store Set.Subset.rfl rfl) fun _ => .pure _
      · refine (onRuntime_noNewStrays (hnow _ rfl)).bind fun now => ?_
        split
        · exact .pure ()
        · exact .bind (.modify fun s => .of_store Set.Subset.rfl rfl) fun _ =>
            restart_noNewStrays C D U name container
    cases state with
    | stopped | notFound => exact hdue
    | running => exact .modify fun s => .of_store Set.Subset.rfl rfl
    | created => exact .pure ()
  unfold reconcileLiveness
  refine .bind (fun s => Set.Subset.rfl) fun s => ?_
  cases s.store name with
  | none => exact .pure ()
  | some state => exact .forM hcontainer _

/-! ## The store and the cache -/

/-- The pods of the store are in the cache. -/
def Known (s : Reconciler ρ) : Prop := ∀ name, (s.manifest name).isSome → (s.cache name).isSome

theorem manifest_isSome : (s.manifest name).isSome = (s.store name).isSome := Option.isSome_map

theorem Known.store_eq_none (h : Known s) (hcache : (s.cache name).isNone) : s.store name = none := by
  by_contra hthere
  have hcached := h name (by rw [manifest_isSome]; exact Option.isSome_iff_ne_none.mpr hthere)
  rw [Option.isNone_iff_eq_none.mp hcache] at hcached
  cases hcached

theorem Known.recached (h : Known s) (hs : Recached s s') : Known s' := fun name hthere =>
  hs.cached name (h name (by rwa [← hs.manifest]))

theorem manifest_createMissing (host : Host ρ) (desired : List Pod) (s : Reconciler ρ)
    (hthere : ((createMissing host desired s).manifest name).isSome) :
    (s.manifest name).isSome ∨ ∃ pod ∈ desired, pod.metadata.name = name := by
  induction desired generalizing s with
  | nil => exact .inl hthere
  | cons pod rest ih =>
    unfold createMissing at ih hthere
    rw [List.foldl_cons] at hthere
    rcases ih _ hthere with hthere | ⟨other, hother, hname⟩
    · split at hthere
      · rcases (createPod_created host pod s).manifest with heq | heq
        · exact .inl (by rwa [heq] at hthere)
        · rcases eq_or_ne name pod.metadata.name with rfl | hne
          · exact .inr ⟨pod, List.mem_cons_self, rfl⟩
          · rw [heq, Function.update_of_ne hne] at hthere
            exact .inl hthere
      · exact .inl hthere
    · exact .inr ⟨other, List.mem_cons_of_mem pod hother, hname⟩

theorem manifest_removeAll (host : Host ρ) (names : List PodName) (s : Reconciler ρ) :
    (names.foldl (fun s name => left (removePod host name s)) s).manifest name =
      if name ∈ names then none else s.manifest name := by
  induction names generalizing s with
  | nil => rfl
  | cons first rest ih =>
    rw [List.foldl_cons, ih, (removePod_removed host first s).manifest]
    rcases eq_or_ne name first with rfl | hne
    · simp
    · simp [hne]

theorem manifest_reconcileAll (host : Host ρ) (desired : List Pod) (s : Reconciler ρ) :
    (reconcileAll host desired s).manifest = s.manifest :=
  Runs.foldl_keeps manifest (fun s pod => (reconcileLiveness_samePods host _ pod s).1) desired s

/-- After a resync the store has nothing that is not desired. -/
theorem manifest_resync (host : Host ρ) {desired : PodMap} {names : List PodName}
    (hnames : ∀ name, (s.manifest name).isSome → name ∈ names)
    (hthere : ((resync host desired names s).manifest name).isSome) : (desired.get name).isSome := by
  unfold resync applyDiff at hthere
  rw [manifest_reconcileAll] at hthere
  unfold removeGone at hthere
  rw [manifest_removeAll] at hthere
  split at hthere
  · cases hthere
  · rename_i hkept
    by_contra hnot
    have hget : desired.get name = none := Option.not_isSome_iff_eq_none.mp hnot
    rcases manifest_createMissing host _ _ hthere with hold | ⟨pod, hpod, rfl⟩
    · refine hkept (List.mem_filter.mpr ⟨hnames name hold, ?_⟩)
      rw [manifest_isSome] at hthere
      simp [hthere, hget]
    · rw [PodMap.get_of_mem hpod] at hget
      cases hget

/-- A resync looks at all pods of the store. -/
def LooksAtAll (s : Reconciler ρ) : KubeletStep → Prop
  | .resync _ names => ∀ name, (s.manifest name).isSome → name ∈ names
  | _ => True

theorem Known.step (h : Known s) (host : Host ρ) {step : KubeletStep} (hall : s.LooksAtAll step) :
    Known (kubeletStep host s step) := by
  cases step with
  | watch event =>
    obtain ⟨type, pod⟩ := event
    intro name hthere
    show ((applyWatchEvent host ⟨type, pod⟩ s).cache name).isSome
    rw [cache_watch]
    have hupdate : ∀ {value : Option Pod}, name ≠ pod.metadata.name → (s.manifest name).isSome →
        (Function.update s.cache pod.metadata.name value name).isSome := by
      intro value hne hthere
      rw [Function.update_of_ne hne]
      exact h name hthere
    cases type with
    | added | modified =>
      rcases eq_or_ne name pod.metadata.name with rfl | hne
      · rw [Function.update_self]
        rfl
      · refine hupdate hne ?_
        change ((applyPod host pod s).manifest name).isSome at hthere
        unfold applyPod at hthere
        dsimp only at hthere
        split at hthere
        · rw [(createPod_created host pod _).manifest_of_ne hne] at hthere
          exact hthere
        · exact hthere
    | deleted =>
      have hremoved := (removePod_removed host pod.metadata.name
        { s with cache := Function.update s.cache pod.metadata.name none }).manifest
      change ((left (removePod host pod.metadata.name _)).manifest name).isSome at hthere
      rw [hremoved] at hthere
      rcases eq_or_ne name pod.metadata.name with rfl | hne
      · rw [Function.update_self] at hthere
        cases hthere
      · rw [Function.update_of_ne hne] at hthere
        exact hupdate hne hthere
  | resync desired names =>
    intro name hthere
    show ((resync host desired names s).cache name).isSome
    rw [cache_resync]
    exact manifest_resync host hall hthere
  | liveness name =>
    simp only [kubeletStep]
    cases s.cache name with
    | none => exact h
    | some pod =>
      obtain ⟨hmanifest, hcache⟩ := reconcileLiveness_samePods host name pod s
      intro other hthere
      rw [hcache]
      exact h other (by rwa [← hmanifest])
  | report name =>
    simp only [kubeletStep]
    cases s.cache name with
    | none => exact h
    | some pod => exact h.recached (computePodStatus_sameBooks host pod s).recached
  | push name status answers => exact h.recached (pushStatus_pushed name status answers s).recached

/-! ## Runs -/

theorem createMissing_noNewStrays (C : RuntimeContract host inUse) (D : Deletable host inUse)
    (U : ComesUp host) (desired : List Pod) (s : Reconciler ρ) :
    NoNewStrays inUse s (createMissing host desired s) := by
  induction desired generalizing s with
  | nil => exact Set.Subset.rfl
  | cons pod rest ih =>
    unfold createMissing at ih ⊢
    rw [List.foldl_cons]
    refine NoNewStrays.trans ?_ (ih _)
    split
    · rename_i hnew
      exact createPod_noNewStrays C D U (Option.isNone_iff_eq_none.mp hnew)
    · exact Set.Subset.rfl

theorem foldl_noNewStrays {ι : Type} {f : Reconciler ρ → ι → Reconciler ρ}
    (hf : ∀ s i, NoNewStrays inUse s (f s i)) (l : List ι) (s : Reconciler ρ) :
    NoNewStrays inUse s (l.foldl f s) := by
  induction l generalizing s with
  | nil => exact Set.Subset.rfl
  | cons i rest ih => exact (hf s i).trans (ih _)

/-- **One step** makes no stray. -/
theorem kubeletStep_noNewStrays (C : RuntimeContract host inUse) (D : Deletable host inUse)
    (U : ComesUp host) (h : Known s) (step : KubeletStep) :
    NoNewStrays inUse s (kubeletStep host s step) := by
  have hcache : ∀ cache, NoNewStrays inUse s { s with cache := cache } := fun _ => Set.Subset.rfl
  cases step with
  | watch event =>
    obtain ⟨type, pod⟩ := event
    cases type with
    | added | modified =>
      show NoNewStrays inUse s (applyPod host pod s)
      unfold applyPod
      dsimp only
      split
      · rename_i hnone
        exact (hcache _).trans (createPod_noNewStrays C D U (h.store_eq_none hnone))
      · exact hcache _
    | deleted => exact (hcache _).trans (removePod_noNewStrays C D pod.metadata.name)
  | resync desired names =>
    have hcreated := (hcache desired.get).trans (createMissing_noNewStrays C D U desired.pods _)
    set s₁ := createMissing host desired.pods { s with cache := desired.get }
    have hremoved : NoNewStrays inUse s₁ (removeGone host desired names s₁) :=
      foldl_noNewStrays (fun _ name => removePod_noNewStrays C D name) _ _
    have hreconciled : NoNewStrays inUse (removeGone host desired names s₁)
        (reconcileAll host desired.pods (removeGone host desired names s₁)) :=
      foldl_noNewStrays (fun s pod => reconcileLiveness_noNewStrays C D U _ pod s) _ _
    exact hcreated.trans (hremoved.trans hreconciled)
  | liveness name =>
    simp only [kubeletStep]
    cases s.cache name with
    | none => exact Set.Subset.rfl
    | some pod => exact reconcileLiveness_noNewStrays C D U name pod s
  | report name =>
    simp only [kubeletStep]
    cases s.cache name with
    | none => exact Set.Subset.rfl
    | some pod =>
      unfold computePodStatus
      refine Keeps.bind (R := NoNewStrays inUse) (fun s => Set.Subset.rfl) (fun s => ?_) s
      refine .bind (.mapM (fun c => ?_) _) fun states => .pure _
      unfold stateOrNotFound
      refine (onRuntime_noNewStrays (C.state _)).attempt.bind fun state => ?_
      cases state <;> exact .pure _
  | push name status answers =>
    have hpushed := pushStatus_pushed name status answers s
    exact .of_store (congrArg inUse hpushed.runtime).le hpushed.store

def kubeletRun (host : Host ρ) (s : Reconciler ρ) (steps : List KubeletStep) : Reconciler ρ :=
  steps.foldl (kubeletStep host) s

/-- `shutdown`, over the pods of the store in the order `names`. -/
def shutdown (host : Host ρ) (names : List PodName) (s : Reconciler ρ) : Reconciler ρ :=
  let s := names.foldl (fun s name =>
    match s.store name with
    | some state => left (onRuntime (state.sandbox.destroy host) s)
    | none => s) s
  { s with
    store := fun _ => none
    restartState := fun _ => none }

/-- The sandboxes that have been destroyed have no containers left. -/
theorem shutdown_clears (C : RuntimeContract host inUse) (D : Deletable host inUse)
    {names : List PodName} (hnames : ∀ name, (s.manifest name).isSome → name ∈ names) :
    inUse (shutdown host names s).runtime ⊆ strays inUse s := by
  have hloop : ∀ (names : List PodName) (s : Reconciler ρ),
      let s' := names.foldl (fun s name =>
        match s.store name with
        | some state => left (onRuntime (state.sandbox.destroy host) s)
        | none => s) s
      s'.store = s.store ∧ ∀ id ∈ inUse s'.runtime, id ∈ inUse s.runtime ∧ ∀ name ∈ names, id ∉ s.heldIds name := by
    intro names
    induction names with
    | nil => exact fun s => ⟨rfl, fun id hid => ⟨hid, fun _ hname => absurd hname List.not_mem_nil⟩⟩
    | cons first rest ih =>
      intro s
      dsimp only at ih ⊢
      rw [List.foldl_cons]
      cases hstate : s.store first with
      | none =>
        obtain ⟨hstore, hleft⟩ := ih s
        refine ⟨hstore, fun id hid => ⟨(hleft id hid).1, fun name hname => ?_⟩⟩
        rcases List.mem_cons.mp hname with rfl | hname
        · rintro ⟨state, hstate', -⟩
          rw [hstate] at hstate'
          cases hstate'
        · exact (hleft id hid).2 name hname
      | some state =>
        have hdestroyed : (left (onRuntime (state.sandbox.destroy host) s)).store = s.store ∧
            inUse (left (onRuntime (state.sandbox.destroy host) s)).runtime ⊆
              inUse s.runtime \ {id | id ∈ state.sandbox.containerIds} := by
          refine wp_left (P := fun s' : Reconciler ρ => s'.store = s.store ∧
            inUse s'.runtime ⊆ inUse s.runtime \ {id | id ∈ state.sandbox.containerIds}) ?_
          rw [wp_onRuntime]
          exact wp_mono (PodSandbox.destroy_clears C D) (fun _ _ h => ⟨rfl, h⟩) fun _ _ h => h.elim
        obtain ⟨hsame, hcleared⟩ := hdestroyed
        obtain ⟨hstore, hleft⟩ := ih (left (onRuntime (state.sandbox.destroy host) s))
        refine ⟨hstore.trans hsame, fun id hid => ?_⟩
        obtain ⟨hid, hrest⟩ := hleft id hid
        obtain ⟨hid, hnot⟩ := hcleared hid
        refine ⟨hid, fun name hname => ?_⟩
        rcases List.mem_cons.mp hname with rfl | hname
        · rintro ⟨state', hstate', hmem⟩
          obtain rfl := Option.some.inj (hstate.symm.trans hstate')
          exact hnot hmem
        · rw [← heldIds_congr hsame]
          exact hrest name hname
  obtain ⟨-, hleft⟩ := hloop names s
  intro id hid
  obtain ⟨hid, hnot⟩ := hleft id hid
  refine ⟨hid, fun name hmem => ?_⟩
  refine hnot name (hnames name ?_) hmem
  obtain ⟨state, hstate, -⟩ := hmem
  rw [manifest_isSome, hstate]
  rfl

theorem strays_run (C : RuntimeContract host inUse) (D : Deletable host inUse) (U : ComesUp host)
    (h : Known s) (steps : List KubeletStep)
    (hall : ∀ past step, past ++ [step] <+: steps → (kubeletRun host s past).LooksAtAll step) :
    Known (kubeletRun host s steps) ∧ NoNewStrays inUse s (kubeletRun host s steps) := by
  induction steps using List.reverseRecOn with
  | nil => exact ⟨h, Set.Subset.rfl⟩
  | append_singleton past step ih =>
    obtain ⟨hknown, hpast⟩ := ih fun p x hp => hall p x (hp.trans (List.prefix_append _ _))
    have hlooks := hall past step List.prefix_rfl
    unfold kubeletRun at hknown hpast hlooks ⊢
    rw [List.foldl_concat]
    exact ⟨hknown.step host hlooks, hpast.trans (kubeletStep_noNewStrays C D U hknown step)⟩

/-- **Strays.** Where containers that are created come up and those that are there can be deleted, no run
of the kubelet makes a container that no sandbox knows of, whatever else fails, whatever is watched and
listed, and whatever the server answers. After `shutdown` there is none but those that were strays at the
start. -/
theorem strays_never_grow (C : RuntimeContract host inUse) (D : Deletable host inUse) (U : ComesUp host)
    (h : Known s) (steps : List KubeletStep)
    (hall : ∀ past step, past ++ [step] <+: steps → (kubeletRun host s past).LooksAtAll step) :
    strays inUse (kubeletRun host s steps) ⊆ strays inUse s ∧
      ∀ names : List PodName, (∀ name, ((kubeletRun host s steps).store name).isSome → name ∈ names) →
        inUse (shutdown host names (kubeletRun host s steps)).runtime ⊆ strays inUse s := by
  obtain ⟨-, hstrays⟩ := strays_run C D U h steps hall
  refine ⟨hstrays, fun names hnames => (shutdown_clears C D fun name hname => ?_).trans hstrays⟩
  exact hnames name (by rwa [← manifest_isSome])

/-! ## A pod whose container cannot be created -/

theorem failingHost_comesUp (ids : List String) : ComesUp (failingHost (ids.map .create)) where
  start id r := by
    have hno : .start id ∉ ids.map RuntimeCall.create := by simp
    simp only [failingHost, if_neg hno]
    exact mockHost_nothingElseFails.start id r
  pid id dir r r' r'' hcreate hstart := by
    have hno : .pid id ∉ ids.map RuntimeCall.create := by simp
    have hno' : .start id ∉ ids.map RuntimeCall.create := by simp
    simp only [failingHost, if_neg hno, if_neg hno'] at hcreate hstart ⊢
    split at hcreate
    · cases hcreate
    · exact mockHost_nothingElseFails.pid id dir r r' r'' hcreate hstart
  setupPodNetwork := mockHost_nothingElseFails.setupPodNetwork

/-- "db" does not come up, and "web" goes with the kubelet. -/
def failingSteps : List KubeletStep :=
  [.watch ⟨.added, podNamed "web" none⟩, .watch ⟨.added, podNamed "db" none⟩]

theorem bareNode_clean : strays recoveredIds bareNode = ∅ := by
  ext id
  simp [strays, bareNode, new, recoveredIds]

theorem bareNode_known : Known bareNode := fun _ hthere => by cases hthere

/-- The pods come one after the other. -/
def added (pods : List Pod) : List KubeletStep := pods.map fun pod => .watch ⟨.added, pod⟩

theorem added_looks (host : Host ρ) (s : Reconciler ρ) {pods : List Pod} (past : List KubeletStep)
    (step : KubeletStep) (hp : past ++ [step] <+: added pods) : (kubeletRun host s past).LooksAtAll step := by
  obtain ⟨pod, -, rfl⟩ := List.mem_map.mp (hp.subset (List.mem_append_right past List.mem_cons_self))
  trivial

theorem Known.added (h : Known s) (host : Host ρ) (pods : List Pod) :
    Known (kubeletRun host s (added pods)) := by
  induction pods generalizing s with
  | nil => exact h
  | cons pod rest ih =>
    have hlooks : s.LooksAtAll (.watch ⟨.added, pod⟩) := trivial
    exact ih (h.step host hlooks)

theorem cache_added (host : Host ρ) (pods : List Pod) (s : Reconciler ρ)
    (hthere : ((kubeletRun host s (added pods)).cache name).isSome) :
    (s.cache name).isSome ∨ name ∈ pods.map fun pod => pod.metadata.name := by
  induction pods generalizing s with
  | nil => exact .inl hthere
  | cons pod rest ih =>
    rw [List.map_cons, List.mem_cons]
    rcases ih _ hthere with hthere | hname
    · change ((applyWatchEvent host ⟨.added, pod⟩ s).cache name).isSome at hthere
      rw [cache_watch] at hthere
      rcases eq_or_ne name pod.metadata.name with heq | hne
      · exact .inr (.inl heq)
      · exact .inl (by rwa [Function.update_of_ne hne] at hthere)
    · exact .inr (.inr hname)

theorem bareNode_names {host : Host (List RecoveredContainer)} {pods : List Pod}
    (hstored : ((kubeletRun host bareNode (added pods)).store name).isSome) :
    name ∈ pods.map fun pod => pod.metadata.name := by
  have hcached := bareNode_known.added host pods name (by rwa [manifest_isSome])
  exact (cache_added host pods bareNode hcached).resolve_left fun hbare => by cases hbare

theorem strays_never_grow_web :
    let host := failingHost (["db__app"].map .create)
    let s := kubeletRun host bareNode failingSteps
    s.runtime.map (·.id) = ["web__pause", "web__app"] ∧
      recoveredIds (shutdown host ["web", "db"] s).runtime = ∅ := by
  have hsteps : failingSteps = added [podNamed "web" none, podNamed "db" none] := rfl
  rw [hsteps]
  obtain ⟨-, hshutdown⟩ := strays_never_grow (failingHost_contract (["db__app"].map .create))
    (failingHost_deletable _) (failingHost_comesUp ["db__app"]) bareNode_known
    (added [podNamed "web" none, podNamed "db" none]) (added_looks _ _)
  refine ⟨by decide +kernel, ?_⟩
  rw [bareNode_clean] at hshutdown
  exact Set.subset_empty_iff.mp (hshutdown ["web", "db"] fun name hstored => bareNode_names hstored)

end Reconciler

end MyK8s.Kubelet
