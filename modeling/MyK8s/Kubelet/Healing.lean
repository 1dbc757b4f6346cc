import MyK8s.Kubelet.Ids
import MyK8s.Kubelet.Recovery
import MyK8s.Kubelet.Strays

/-!
# Healing

What one resync makes of a node on which anything has failed. The pods that have no entry are created, and
those that are no longer listed go; nothing else is left, since no container has become a stray. So the
node is as it should be if and only if the pods that are missing ask for ids that nobody has
(`resync_heals_iff`). Where the names fit in ids they do, and every run is healed (`kubelet_heals`).
-/

namespace MyK8s.Kubelet

open Fallible

variable {ρ : Type} {host host' : Host ρ} {inUse : ρ → Set String}

/-- No two of these pods, and no two containers of one, ask for the same id, and nobody has it yet. -/
structure Unclaimed (used : Set String) (pods : List Pod) : Prop where
  nodup : (pods.flatMap createIds).Nodup
  unused : ∀ id ∈ pods.flatMap createIds, id ∉ used

theorem unclaimed_nil (used : Set String) : Unclaimed used [] :=
  ⟨List.nodup_nil, fun _ hid => absurd hid List.not_mem_nil⟩

theorem unclaimed_cons_iff {used : Set String} {pod : Pod} {pods : List Pod} :
    Unclaimed used (pod :: pods) ↔ ((createIds pod).Nodup ∧ ∀ id ∈ createIds pod, id ∉ used) ∧
      Unclaimed (used ∪ {id | id ∈ createIds pod}) pods := by
  constructor
  · rintro ⟨hnodup, hunused⟩
    rw [List.flatMap_cons] at hnodup hunused
    obtain ⟨hpod, hrest, hdisjoint⟩ := List.nodup_append.mp hnodup
    refine ⟨⟨hpod, fun id hid => hunused id (List.mem_append_left _ hid)⟩, hrest, ?_⟩
    rintro id hid (hused | hown)
    · exact hunused id (List.mem_append_right _ hid) hused
    · exact hdisjoint id hown id hid rfl
  · rintro ⟨⟨hpod, hfree⟩, hrest, hunused⟩
    constructor
    · rw [List.flatMap_cons]
      refine List.nodup_append.mpr ⟨hpod, hrest, ?_⟩
      rintro id hid _ hid' rfl
      exact hunused id hid' (.inr hid)
    · intro id hid
      rw [List.flatMap_cons] at hid
      rcases List.mem_append.mp hid with hid | hid
      · exact hfree id hid
      · exact fun hused => hunused id hid (.inl hused)

theorem NothingElseFails.comesUp (N : NothingElseFails host inUse) : ComesUp host where
  start := N.start
  pid := N.pid
  setupPodNetwork := N.setupPodNetwork

theorem mockHost_deletable : Deletable mockHost recoveredIds where
  delete id r hid := mockHost_nothingElseFails.delete id true r hid
  state _ _ := by
    rintro ⟨e, r, heq⟩
    cases heq

/-! ## Ids of pods -/

/-- A name that can be read off an id. -/
def Fits (name : PodName) : Prop := ¬ "__".toList <:+: (name ++ "_").toList

theorem podName_eq {name other : PodName} {containerName otherName : String} (h : Fits name) (h' : Fits other)
    (heq : containerIdOf name containerName = containerIdOf other otherName) : name = other :=
  (Prod.mk.inj ((containerIdOf_eq_iff h h').mp heq)).1

theorem createIds_eq (pod : Pod) : createIds pod =
    ("pause" :: pod.spec.containers.map (·.name)).map (containerIdOf pod.metadata.name) := by
  rw [List.map_cons, List.map_map, ← pauseIdOf_eq]
  rfl

theorem exists_of_mem_createIds {pod : Pod} {id : String} (hid : id ∈ createIds pod) :
    ∃ containerName, id = containerIdOf pod.metadata.name containerName := by
  rw [createIds_eq] at hid
  obtain ⟨containerName, -, rfl⟩ := List.mem_map.mp hid
  exact ⟨containerName, rfl⟩

theorem Separable.nodup_createIds {pod : Pod} (h : Separable pod) : (createIds pod).Nodup := by
  rw [createIds_eq]
  refine List.Nodup.map (containerIdOf_injective _) (List.nodup_cons.mpr ⟨fun hmem => ?_, h.nodup⟩)
  obtain ⟨c, hc, hname⟩ := List.mem_map.mp hmem
  exact h.pause c hc hname

namespace Reconciler

variable {s : Reconciler ρ} {pod : Pod} {pods : List Pod} {name : PodName}

/-- The pods that have no entry. -/
def missing (s : Reconciler ρ) (pods : List Pod) : List Pod :=
  pods.filter fun pod => (s.store pod.metadata.name).isNone

/-! ## The pods that are missing -/

theorem store_createPod_of_ne (C : RuntimeContract host inUse) (hne : name ≠ pod.metadata.name) :
    (left (createPod host pod s)).store name = s.store name := by
  refine wp_left (P := fun s' : Reconciler ρ => s'.store name = s.store name) ?_
  refine wp_mono (createPod_contract C) (fun _ s' h => ?_) fun _ s' h => by rw [h]
  obtain ⟨⟨pausePid, podIp, hstore⟩, -⟩ := h
  rw [hstore, Function.update_of_ne hne]

/-- **A missing pod** gets its entry if and only if its ids are free. -/
theorem createPod_stored_iff (C : RuntimeContract host inUse) (N : NothingElseFails host inUse)
    (hnone : s.store pod.metadata.name = none) (hip : ¬ Fails (ensurePodIp pod) s) :
    ((left (createPod host pod s)).store pod.metadata.name).isSome ↔
      (createIds pod).Nodup ∧ ∀ id ∈ createIds pod, id ∉ inUse s.runtime := by
  constructor
  · intro hstored
    obtain ⟨hnodup, hfree, -⟩ := createPod_stored C hnone hstored
    exact ⟨hnodup, hfree⟩
  · rintro ⟨hnodup, hfree⟩
    refine wp_left (P := fun s' : Reconciler ρ => (s'.store pod.metadata.name).isSome) ?_
    refine wp_mono (wp_of_not_fails (createPod_not_fails C N hip hnodup hfree) (createPod_contract C))
      (fun _ s' h => ?_) fun _ _ h => h.elim
    obtain ⟨⟨pausePid, podIp, hstore⟩, -⟩ := h
    rw [hstore, Function.update_self]
    rfl

/-- A turn of the loop. -/
def createIfMissing (host : Host ρ) (pod : Pod) (s : Reconciler ρ) : Reconciler ρ :=
  if (s.store pod.metadata.name).isNone then left (createPod host pod s) else s

theorem createMissing_cons (host : Host ρ) (pod : Pod) (rest : List Pod) (s : Reconciler ρ) :
    createMissing host (pod :: rest) s = createMissing host rest (createIfMissing host pod s) := rfl

theorem store_createIfMissing_of_ne (C : RuntimeContract host inUse) (hne : name ≠ pod.metadata.name) :
    (createIfMissing host pod s).store name = s.store name := by
  unfold createIfMissing
  split
  · exact store_createPod_of_ne C hne
  · rfl

theorem store_createMissing_of_notMem (C : RuntimeContract host inUse)
    (hname : name ∉ pods.map fun pod => pod.metadata.name) :
    (createMissing host pods s).store name = s.store name := by
  induction pods generalizing s with
  | nil => rfl
  | cons pod rest ih =>
    rw [List.map_cons, List.mem_cons, not_or] at hname
    rw [createMissing_cons, ih hname.2, store_createIfMissing_of_ne C hname.1]

theorem missing_createIfMissing (C : RuntimeContract host inUse)
    (hnew : pod.metadata.name ∉ pods.map fun pod => pod.metadata.name) :
    (createIfMissing host pod s).missing pods = s.missing pods := by
  refine List.filter_congr fun other hother => ?_
  have hne : other.metadata.name ≠ pod.metadata.name := fun heq =>
    hnew (List.mem_map.mpr ⟨other, hother, heq⟩)
  rw [store_createIfMissing_of_ne C hne]

/-- **The first loop** gives all pods their entries if and only if those that are missing ask for ids that
nobody has. -/
theorem createMissing_stored_iff (C : RuntimeContract host inUse) (N : NothingElseFails host inUse)
    (hnames : (pods.map fun pod => pod.metadata.name).Nodup)
    (hip : ∀ past pod, past ++ [pod] <+: pods → s.store pod.metadata.name = none →
      ¬ Fails (ensurePodIp pod) (createMissing host past s)) :
    (∀ pod ∈ pods, ((createMissing host pods s).store pod.metadata.name).isSome) ↔
      Unclaimed (inUse s.runtime) (s.missing pods) := by
  induction pods generalizing s with
  | nil => exact ⟨fun _ => unclaimed_nil _, fun _ pod hpod => absurd hpod List.not_mem_nil⟩
  | cons pod rest ih =>
    rw [List.map_cons, List.nodup_cons] at hnames
    obtain ⟨hnew, hnames⟩ := hnames
    have hrest := ih (s := createIfMissing host pod s) hnames fun past other hpast hnone => by
      have hne : other.metadata.name ≠ pod.metadata.name := fun heq =>
        hnew (List.mem_map.mpr ⟨other, hpast.subset (by simp), heq⟩)
      rw [store_createIfMissing_of_ne C hne] at hnone
      exact hip (pod :: past) other (List.cons_prefix_cons.mpr ⟨rfl, hpast⟩) hnone
    rw [missing_createIfMissing C hnew] at hrest
    rw [List.forall_mem_cons, createMissing_cons, hrest, store_createMissing_of_notMem C hnew]
    cases hstore : s.store pod.metadata.name with
    | some state =>
      have hkept : createIfMissing host pod s = s := if_neg (by simp [hstore])
      have hmissing : s.missing (pod :: rest) = s.missing rest := List.filter_cons_of_neg (by simp [hstore])
      rw [hkept, hstore, hmissing]
      exact and_iff_right rfl
    | none =>
      have hturn : createIfMissing host pod s = left (createPod host pod s) := if_pos (by simp [hstore])
      have hmissing : s.missing (pod :: rest) = pod :: s.missing rest := List.filter_cons_of_pos (by simp [hstore])
      have hstored := createPod_stored_iff C N hstore (hip [] pod (by simp) hstore)
      rw [hturn, hmissing, unclaimed_cons_iff, ← hstored]
      refine and_congr_right fun hthere => ?_
      obtain ⟨-, -, hgrown, -⟩ := createPod_stored C hstore hthere
      rw [hgrown]

/-! ## The resync -/

theorem exists_held {id : String} (hclean : strays inUse s = ∅) (hid : id ∈ inUse s.runtime) :
    ∃ name, id ∈ s.heldIds name := by
  by_contra hnobody
  exact Set.eq_empty_iff_forall_notMem.mp hclean id ⟨hid, not_exists.mp hnobody⟩

/-- What is listed stays. -/
theorem store_resync_isSome (host : Host ρ) {desired : PodMap} {names : List PodName}
    (hlisted : (desired.get name).isSome) : ((resync host desired names s).store name).isSome =
      ((createMissing host desired.pods { s with cache := desired.get }).store name).isSome := by
  rw [← manifest_isSome, ← manifest_isSome]
  unfold resync applyDiff
  rw [manifest_reconcileAll]
  unfold removeGone
  rw [manifest_removeAll, if_neg]
  intro hgone
  have hnot := (List.mem_filter.mp hgone).2
  rw [decide_eq_true_eq, Option.isNone_iff_eq_none] at hnot
  rw [hnot.2] at hlisted
  cases hlisted

/-- **A resync** in which nothing fails, on a node without strays, gives every listed pod its entry and
leaves nothing but the containers of their sandboxes, if and only if the pods that are missing ask for ids
that nobody has. -/
theorem resync_complete_iff (C : RuntimeContract host inUse) (D : Deletable host inUse)
    (N : NothingElseFails host inUse) (h : Known s) (hclean : strays inUse s = ∅) {desired : PodMap}
    {names : List PodName} (hnames : ∀ name, (s.store name).isSome → name ∈ names)
    (hip : ∀ past pod, past ++ [pod] <+: desired.pods → s.store pod.metadata.name = none →
      ¬ Fails (ensurePodIp pod) (createMissing host past { s with cache := desired.get })) :
    Complete inUse desired.pods (resync host desired names s) ↔
      Unclaimed (inUse s.runtime) (s.missing desired.pods) := by
  have hlooks : ∀ name, (s.manifest name).isSome → name ∈ names := fun name hthere =>
    hnames name (by rwa [← manifest_isSome])
  have hlisted : ∀ pod ∈ desired.pods, (desired.get pod.metadata.name).isSome := fun pod hpod => by
    rw [PodMap.get_of_mem hpod]
    rfl
  have hcreated : (∀ pod ∈ desired.pods, ((createMissing host desired.pods
      { s with cache := desired.get }).store pod.metadata.name).isSome) ↔
        Unclaimed (inUse s.runtime) (s.missing desired.pods) :=
    createMissing_stored_iff (s := { s with cache := desired.get }) C N desired.nodup hip
  rw [← hcreated]
  constructor
  · intro hcomplete pod hpod
    rw [← store_resync_isSome host (hlisted pod hpod)]
    exact hcomplete.stored pod hpod
  · intro hstored
    refine ⟨fun pod hpod => ?_, fun id hid => ?_⟩
    · rw [store_resync_isSome host (hlisted pod hpod)]
      exact hstored pod hpod
    · have hnone : strays inUse (resync host desired names s) = ∅ :=
        Set.subset_empty_iff.mp (hclean ▸ kubeletStep_noNewStrays C D N.comesUp h (.resync desired names))
      obtain ⟨name, state, hstate, hmem⟩ := exists_held hnone hid
      have hthere : ((resync host desired names s).manifest name).isSome := by
        rw [manifest_isSome, hstate]
        rfl
      obtain ⟨pod, hpod⟩ := Option.isSome_iff_exists.mp (manifest_resync host hlooks hthere)
      obtain rfl := PodMap.get_eq_some hpod
      exact ⟨pod, List.mem_of_find?_eq_some hpod, state, hstate, hmem⟩

/-! ## Names that fit in ids -/

/-- The sandboxes are named as their entries, by names that fit in ids. -/
def Labelled (s : Reconciler ρ) : Prop := ∀ name state, s.store name = some state →
  state.sandbox.podName = name ∧ state.sandbox.pauseId = pauseIdOf name ∧ Fits name

def KeepsLabels (s s' : Reconciler ρ) : Prop := Labelled s → Labelled s'

instance : Std.Refl (@KeepsLabels ρ) where
  refl _ h := h

instance : IsTrans (Reconciler ρ) KeepsLabels where
  trans _ _ _ h h' hs := h' (h hs)

theorem Labelled.setSandbox (h : Labelled s) {state : PodState} {sandbox : PodSandbox}
    (hstate : s.store name = some state) (hname : sandbox.podName = state.sandbox.podName)
    (hpause : sandbox.pauseId = state.sandbox.pauseId) : Labelled (setSandbox name sandbox s) := by
  intro other state' hstate'
  rcases eq_or_ne other name with rfl | hne
  · rw [store_setSandbox sandbox hstate] at hstate'
    obtain rfl := Option.some.inj hstate'
    rw [hname, hpause]
    exact h other state hstate
  · have hother : (Reconciler.setSandbox name sandbox s).store other = s.store other :=
      Function.update_of_ne hne ..
    exact h other state' (hother ▸ hstate')

theorem onRuntime_keepsLabels {ε α : Type} (x : EStateM ε ρ α) : Keeps KeepsLabels (onRuntime x) :=
  .of_wp fun _ => wp_onRuntime.mpr (wp_of_forall (fun _ _ h => h) fun _ _ h => h)

theorem restart_keepsLabels (host : Host ρ) (name : PodName) (container : Container) :
    Keeps KeepsLabels (restart host name container) := by
  refine .of_wp fun s => ?_
  unfold restart
  simp only [wp_bind, wp_get]
  cases hstate : s.store name with
  | none => exact fun h => h
  | some state =>
    simp only [wp_bind, wp_onRuntime, wp_addContext, wp_modify]
    refine wp_mono PodSandbox.removeOrKeep_eq (fun kept r hkept => ?_) fun _ _ h => h.elim
    obtain ⟨names, rfl, -⟩ := hkept
    have hfirst : KeepsLabels s (setSandbox name { state.sandbox with appContainers := names }
        { s with runtime := r }) := fun h => Labelled.setSandbox (s := { s with runtime := r }) h hstate rfl rfl
    refine wp_mono PodSandbox.addContainer_eq (fun added r' hadded h => ?_) fun _ _ _ h => hfirst h
    subst hadded
    exact Labelled.setSandbox (hfirst h) (store_setSandbox _ hstate) rfl rfl

theorem reconcileLiveness_keepsLabels (host : Host ρ) (name : PodName) (pod : Pod) :
    Keeps KeepsLabels (reconcileLiveness host name pod) := by
  have htrackers : ∀ f : Reconciler ρ → Reconciler ρ, (∀ s, (f s).store = s.store) →
      Keeps KeepsLabels (modify f : Action (Reconciler ρ) Unit) := fun f hf =>
    .modify fun s h name state hstate => h name state (by rwa [hf] at hstate)
  have hdue : ∀ container, Keeps KeepsLabels (restartIfDue host name container) := by
    intro container
    unfold restartIfDue tracker
    refine .bind (.bind (fun s h => h) fun s => ?_) fun tracker => ?_
    · cases s.restartState (name ++ "__" ++ container.name) with
      | some tracker => exact .pure tracker
      | none => exact (onRuntime_keepsLabels _).bind fun now => .bind (htrackers _ fun s => rfl) fun _ => .pure _
    · refine (onRuntime_keepsLabels _).bind fun now => ?_
      split
      · exact .pure ()
      · exact .bind (htrackers _ fun s => rfl) fun _ => restart_keepsLabels host name container
  unfold reconcileLiveness
  refine .bind (fun s h => h) fun s => ?_
  cases s.store name with
  | none => exact .pure ()
  | some _ =>
    refine .forM (fun container => ?_) _
    unfold reconcileContainer
    refine (onRuntime_keepsLabels _).bind fun state => ?_
    cases state with
    | stopped | notFound => exact hdue container
    | running => exact htrackers _ fun s => rfl
    | created => exact .pure ()

theorem createPod_keepsLabels (C : RuntimeContract host inUse) (hfits : Fits pod.metadata.name) :
    Keeps KeepsLabels (createPod host pod) := by
  refine .of_wp fun s => wp_mono (createPod_contract C) (fun _ s' hs' h => ?_) fun _ s' hs' h => ?_
  · obtain ⟨⟨pausePid, podIp, hstore⟩, -⟩ := hs'
    intro name state hstate
    rw [hstore] at hstate
    rcases eq_or_ne name pod.metadata.name with rfl | hne
    · rw [Function.update_self] at hstate
      obtain rfl := Option.some.inj hstate
      exact ⟨rfl, rfl, hfits⟩
    · rw [Function.update_of_ne hne] at hstate
      exact h name state hstate
  · intro name state hstate
    rw [hs'] at hstate
    exact h name state hstate

theorem removePod_keepsLabels (host : Host ρ) (name : PodName) : Keeps KeepsLabels (removePod host name) := by
  refine .of_wp fun s => ?_
  have hgone : ∀ s' : Reconciler ρ, s'.store = Function.update s.store name none → KeepsLabels s s' := by
    intro s' hstore h other state hstate
    rw [hstore] at hstate
    rcases eq_or_ne other name with rfl | hne
    · rw [Function.update_self] at hstate
      cases hstate
    · rw [Function.update_of_ne hne] at hstate
      exact h other state hstate
  unfold removePod
  rw [wp_bind, wp_get]
  cases hstate : s.store name with
  | none => exact fun h => h
  | some state =>
    simp only [wp_bind, wp_set, wp_onRuntime]
    refine wp_of_forall (fun _ r => ?_) fun _ r => hgone _ rfl
    cases state.sandbox.podIp with
    | none => exact hgone _ rfl
    | some ip => exact hgone _ (store_releaseIp ..)

theorem foldl_keepsLabels {ι : Type} {f : Reconciler ρ → ι → Reconciler ρ} (l : List ι)
    (hf : ∀ i ∈ l, ∀ s, KeepsLabels s (f s i)) (s : Reconciler ρ) : KeepsLabels s (l.foldl f s) := by
  induction l generalizing s with
  | nil => exact fun h => h
  | cons i rest ih =>
    intro h
    exact ih (fun j hj => hf j (List.mem_cons_of_mem i hj)) _ (hf i List.mem_cons_self s h)

/-- **One step** keeps the labels, if the names that it brings fit. -/
theorem Labelled.step (C : RuntimeContract host inUse) (h : Labelled s) {step : KubeletStep}
    (hfits : ∀ name pod, step.Brings name pod → Fits name) : Labelled (kubeletStep host s step) := by
  cases step with
  | watch event =>
    obtain ⟨type, pod⟩ := event
    cases type with
    | added | modified =>
      have hname : Fits pod.metadata.name := hfits _ pod ⟨(fun heq => by cases heq), rfl, rfl⟩
      show Labelled (applyPod host pod s)
      unfold applyPod
      dsimp only
      split
      · exact createPod_keepsLabels C hname _ h
      · exact h
    | deleted => exact removePod_keepsLabels host pod.metadata.name _ h
  | resync desired names =>
    show Labelled (reconcileAll host desired.pods (removeGone host desired names
      (createMissing host desired.pods { s with cache := desired.get })))
    refine foldl_keepsLabels _ (fun pod _ s => reconcileLiveness_keepsLabels host _ pod s) _ ?_
    refine foldl_keepsLabels _ (fun name _ s => removePod_keepsLabels host name s) _ ?_
    refine foldl_keepsLabels _ (fun pod hpod s => ?_) _ h
    split
    · exact createPod_keepsLabels C (hfits _ pod (PodMap.get_of_mem hpod)) s
    · exact fun h => h
  | liveness name =>
    simp only [kubeletStep]
    cases s.cache name with
    | none => exact h
    | some pod => exact reconcileLiveness_keepsLabels host name pod s h
  | report name =>
    simp only [kubeletStep]
    cases s.cache name with
    | none => exact h
    | some pod =>
      have hkeeps : Keeps KeepsLabels (computePodStatus host pod) := by
        unfold computePodStatus
        refine .bind (fun s h => h) fun s => .bind (.mapM (fun c => ?_) _) fun states => .pure _
        unfold stateOrNotFound
        refine (onRuntime_keepsLabels _).attempt.bind fun state => ?_
        cases state <;> exact .pure _
      exact hkeeps s h
  | push name status answers =>
    intro other state hstate
    refine h other state ?_
    rw [← (pushStatus_pushed name status answers s).store]
    exact hstate

theorem Labelled.run (C : RuntimeContract host inUse) (h : Labelled s) (steps : List KubeletStep)
    (hfits : ∀ step ∈ steps, ∀ name pod, step.Brings name pod → Fits name) :
    Labelled (kubeletRun host s steps) := by
  induction steps generalizing s with
  | nil => exact h
  | cons step rest ih =>
    exact ih (h.step C (hfits step List.mem_cons_self)) fun x hx => hfits x (List.mem_cons_of_mem step hx)

theorem Labelled.exists_id {id : String} (h : Labelled s) (hid : id ∈ s.heldIds name) :
    Fits name ∧ ∃ containerName, id = containerIdOf name containerName := by
  obtain ⟨state, hstate, hmem⟩ := hid
  obtain ⟨hname, hpause, hfits⟩ := h name state hstate
  refine ⟨hfits, ?_⟩
  rcases List.mem_cons.mp hmem with rfl | hmem
  · exact ⟨"pause", hpause.trans (pauseIdOf_eq name)⟩
  · obtain ⟨containerName, -, rfl⟩ := List.mem_map.mp hmem
    exact ⟨containerName, by rw [PodSandbox.containerIdFor, hname, containerIdOf]⟩

/-- Nobody has the ids of a pod that is missing. -/
theorem Labelled.unclaimed (h : Labelled s) (hclean : strays inUse s = ∅)
    (hpods : ∀ pod ∈ pods, Separable pod) (hnames : (pods.map fun pod => pod.metadata.name).Nodup) :
    Unclaimed (inUse s.runtime) (s.missing pods) := by
  have hmissing : ∀ pod ∈ s.missing pods, Separable pod ∧ s.store pod.metadata.name = none := by
    intro pod hpod
    obtain ⟨hlisted, hnone⟩ := List.mem_filter.mp hpod
    exact ⟨hpods pod hlisted, Option.isNone_iff_eq_none.mp hnone⟩
  constructor
  · refine List.nodup_flatMap.mpr ⟨fun pod hpod => (hmissing pod hpod).1.nodup_createIds, ?_⟩
    have hapart : (s.missing pods).Pairwise fun p q => p.metadata.name ≠ q.metadata.name :=
      (List.pairwise_map.mp hnames).filter _
    refine hapart.imp_of_mem fun {p q} hp hq hne id hid hid' => hne ?_
    obtain ⟨c, rfl⟩ := exists_of_mem_createIds hid
    obtain ⟨d, heq⟩ := exists_of_mem_createIds hid'
    exact podName_eq (hmissing p hp).1.name (hmissing q hq).1.name heq
  · intro id hid hused
    obtain ⟨pod, hpod, hid⟩ := List.mem_flatMap.mp hid
    obtain ⟨name, hheld⟩ := exists_held hclean hused
    obtain ⟨hfits, d, rfl⟩ := h.exists_id hheld
    obtain ⟨c, heq⟩ := exists_of_mem_createIds hid
    obtain rfl := podName_eq hfits (hmissing pod hpod).1.name heq
    obtain ⟨state, hstate, -⟩ := hheld
    rw [(hmissing pod hpod).2] at hstate
    cases hstate

/-! ## Runs -/

/-- **Healing.** Let a node without strays run, whatever fails in it. Where nothing fails any more, the next
resync makes it what is listed, if and only if the pods that are missing ask for ids that nobody has. -/
theorem resync_heals_iff (C : RuntimeContract host inUse) (D : Deletable host inUse) (U : ComesUp host)
    (h : Known s) (hclean : strays inUse s = ∅) (steps : List KubeletStep)
    (hall : ∀ past step, past ++ [step] <+: steps → (kubeletRun host s past).LooksAtAll step)
    (C' : RuntimeContract host' inUse) (D' : Deletable host' inUse) (N' : NothingElseFails host' inUse)
    {desired : PodMap} {names : List PodName}
    (hnames : ∀ name, ((kubeletRun host s steps).store name).isSome → name ∈ names)
    (hip : ∀ past pod, past ++ [pod] <+: desired.pods →
      (kubeletRun host s steps).store pod.metadata.name = none →
        ¬ Fails (ensurePodIp pod)
          (createMissing host' past { kubeletRun host s steps with cache := desired.get })) :
    Complete inUse desired.pods (resync host' desired names (kubeletRun host s steps)) ↔
      Unclaimed (inUse (kubeletRun host s steps).runtime) ((kubeletRun host s steps).missing desired.pods) := by
  obtain ⟨hknown, hstrays⟩ := strays_run C D U h steps hall
  exact resync_complete_iff C' D' N' hknown (Set.subset_empty_iff.mp (hclean ▸ hstrays)) hnames hip

theorem concat_prefix_pair {α : Type} {a b x : α} {past : List α} (h : past ++ [x] <+: [a, b]) :
    past = [] ∧ x = a ∨ past = [a] ∧ x = b := by
  rcases past with _ | ⟨first, _ | ⟨second, past⟩⟩
  · obtain ⟨rfl, -⟩ := List.cons_prefix_cons.mp h
    exact .inl ⟨rfl, rfl⟩
  · obtain ⟨rfl, hrest⟩ := List.cons_prefix_cons.mp h
    obtain ⟨rfl, -⟩ := List.cons_prefix_cons.mp hrest
    exact .inr ⟨rfl, rfl⟩
  · have hlen := h.length_le
    simp only [List.length_append, List.length_cons, List.length_nil] at hlen
    omega

/-- Both pods ask for "web__a__b". -/
def clashing : PodMap := ⟨[podWith "web" "a__b", podWith "web__a" "b"], by decide⟩

/-- The one that comes second is not created. -/
theorem resync_heals_iff_clash : ¬ Complete recoveredIds clashing.pods (resync mockHost clashing ["web"]
    (kubeletRun mockHost bareNode (added [podWith "web" "a__b"]))) := by
  have hused : "web__a__b" ∈ (kubeletRun mockHost bareNode (added [podWith "web" "a__b"])).runtime.map
      (·.id) := by decide +kernel
  have hasked : "web__a__b" ∈ ((kubeletRun mockHost bareNode (added [podWith "web" "a__b"])).missing
      clashing.pods).flatMap createIds := by decide +kernel
  have hweb : (kubeletRun mockHost bareNode (added [podWith "web" "a__b"])).store
      (podWith "web" "a__b").metadata.name ≠ none := by decide +kernel
  refine (resync_heals_iff mockHost_contract mockHost_deletable mockHost_nothingElseFails.comesUp
    bareNode_known bareNode_clean (added [podWith "web" "a__b"]) (added_looks _ _) mockHost_contract
    mockHost_deletable mockHost_nothingElseFails (fun name hstored => bareNode_names hstored)
    fun past pod hp hnone => ?_).not.mpr fun h => h.unused _ hasked (mem_recoveredIds.mpr hused)
  obtain ⟨rfl, rfl⟩ | ⟨rfl, rfl⟩ := concat_prefix_pair hp
  · exact absurd hnone hweb
  · decide +kernel

/-- **The kubelet heals.** Where the names of the pods fit in ids, the next resync makes the node what is
listed after every run. -/
theorem kubelet_heals (C : RuntimeContract host inUse) (D : Deletable host inUse) (U : ComesUp host)
    (h : Known s) (hclean : strays inUse s = ∅) (hlabelled : Labelled s) (steps : List KubeletStep)
    (hall : ∀ past step, past ++ [step] <+: steps → (kubeletRun host s past).LooksAtAll step)
    (hfits : ∀ step ∈ steps, ∀ name pod, step.Brings name pod → Fits name)
    (C' : RuntimeContract host' inUse) (D' : Deletable host' inUse) (N' : NothingElseFails host' inUse)
    {desired : PodMap} {names : List PodName} (hdesired : ∀ pod ∈ desired.pods, Separable pod)
    (hnames : ∀ name, ((kubeletRun host s steps).store name).isSome → name ∈ names)
    (hip : ∀ past pod, past ++ [pod] <+: desired.pods →
      (kubeletRun host s steps).store pod.metadata.name = none →
        ¬ Fails (ensurePodIp pod)
          (createMissing host' past { kubeletRun host s steps with cache := desired.get })) :
    Complete inUse desired.pods (resync host' desired names (kubeletRun host s steps)) := by
  obtain ⟨hknown, hstrays⟩ := strays_run C D U h steps hall
  have hclean' : strays inUse (kubeletRun host s steps) = ∅ := Set.subset_empty_iff.mp (hclean ▸ hstrays)
  exact (resync_complete_iff C' D' N' hknown hclean' hnames hip).mpr
    ((hlabelled.run C steps hfits).unclaimed hclean' hdesired desired.nodup)

def webAndDb : PodMap := ⟨[podNamed "web" none, podNamed "db" none], by decide⟩

/-- "db" did not come up, and the next resync brings it. -/
theorem kubelet_heals_web : Complete recoveredIds webAndDb.pods (resync mockHost webAndDb ["web", "db"]
    (kubeletRun (failingHost (["db__app"].map .create)) bareNode (added webAndDb.pods))) := by
  have hseparable : ∀ pod ∈ webAndDb.pods, Separable pod := by
    intro pod hpod
    simp only [webAndDb, List.mem_cons, List.not_mem_nil, or_false] at hpod
    rcases hpod with rfl | rfl <;> exact ⟨by decide, by decide, by decide⟩
  have hweb : (kubeletRun (failingHost (["db__app"].map .create)) bareNode (added webAndDb.pods)).store
      (podNamed "web" none).metadata.name ≠ none := by decide +kernel
  refine kubelet_heals (failingHost_contract (["db__app"].map .create)) (failingHost_deletable _)
    (failingHost_comesUp ["db__app"]) bareNode_known bareNode_clean (fun _ _ hstate => by cases hstate)
    (added webAndDb.pods) (added_looks _ _) (fun step hstep name pod hbrings => ?_) mockHost_contract
    mockHost_deletable mockHost_nothingElseFails hseparable (fun name hstored => bareNode_names hstored)
    fun past pod hp hnone => ?_
  · obtain ⟨pod', hpod', rfl⟩ := List.mem_map.mp hstep
    rw [hbrings.2.1]
    exact (hseparable pod' hpod').name
  · obtain ⟨rfl, rfl⟩ | ⟨rfl, rfl⟩ := concat_prefix_pair hp
    · exact absurd hnone hweb
    · decide +kernel

end Reconciler

end MyK8s.Kubelet
