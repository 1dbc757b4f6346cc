import MyK8s.Kubelet.Steady
import MyK8s.Kubelet.Traced
import MyK8s.Lib.Runs

/-!
# Observed generations

The status of a pod reports the generation of the object in the cache; what runs is the sandbox in the
store, which was made from an older object. The report is honest as long as nothing that comes into the
cache for a pod in the store has another uid, or other containers or commands, than that older object
(`observed_generation_honest`). An edit of a command is not acted on, and reported all the same.
-/

namespace MyK8s.Kubelet

open Fallible
open ApiServer (WatchEvent)

/-! ## What a sandbox is made from -/

/-- The names of the containers, with their commands. -/
def commandsOf (pod : Pod) : List (String × List String) :=
  pod.spec.containers.map fun container => (container.name, container.command)

/-- The same object, with the same containers. -/
structure SameMake (pod other : Pod) : Prop where
  uid : pod.metadata.uid = other.metadata.uid
  subset : commandsOf pod ⊆ commandsOf other
  superset : commandsOf other ⊆ commandsOf pod

theorem SameMake.refl (pod : Pod) : SameMake pod pod := ⟨rfl, List.Subset.refl _, List.Subset.refl _⟩

theorem mem_commandsOf {pod : Pod} {container : Container} (h : container ∈ pod.spec.containers) :
    (container.name, container.command) ∈ commandsOf pod := List.mem_map.mpr ⟨container, h, rfl⟩

theorem exists_of_subset {pod other : Pod} (h : commandsOf pod ⊆ commandsOf other)
    {container : Container} (hc : container ∈ pod.spec.containers) :
    ∃ c ∈ other.spec.containers, c.name = container.name ∧ c.command = container.command := by
  obtain ⟨c, hc', heq⟩ := List.mem_map.mp (h (mem_commandsOf hc))
  obtain ⟨hname, hcommand⟩ := Prod.mk.inj heq
  exact ⟨c, hc', hname, hcommand⟩

/-- The sandbox is that of the object, and has its containers, each last created from its command. -/
structure BuiltFrom (made : String → Option (List String)) (pod : Pod) (state : PodState) : Prop where
  uid : state.pod.metadata.uid = pod.metadata.uid
  containers : ∀ name, name ∈ state.sandbox.appContainers ↔
    ∃ container ∈ pod.spec.containers, container.name = name
  commands : ∀ container ∈ pod.spec.containers,
    made (state.sandbox.containerIdFor container.name) = some container.command

theorem BuiltFrom.of_sameMake {made : String → Option (List String)} {pod : Pod} {state : PodState}
    (h : BuiltFrom made state.pod state) (hsame : SameMake pod state.pod) : BuiltFrom made pod state where
  uid := hsame.uid.symm
  containers name := by
    rw [h.containers]
    constructor
    · rintro ⟨container, hc, rfl⟩
      obtain ⟨c, hc', hname, -⟩ := exists_of_subset hsame.superset hc
      exact ⟨c, hc', hname⟩
    · rintro ⟨container, hc, rfl⟩
      obtain ⟨c, hc', hname, -⟩ := exists_of_subset hsame.subset hc
      exact ⟨c, hc', hname⟩
  commands container hc := by
    obtain ⟨c, hc', hname, hcommand⟩ := exists_of_subset hsame.subset hc
    rw [← hname, ← hcommand]
    exact h.commands c hc'

/-! ## The invariant -/

variable {ρ : Type} {host : Host ρ} {inUse : ρ → Set String}

/-- An entry of the store: the sandbox is made from the object of the entry, and its ids are in use. -/
structure Entry (inUse : ρ → Set String) (rt : ρ × Trace) (name : PodName) (state : PodState) : Prop where
  podName : state.sandbox.podName = name
  named : state.pod.metadata.name = name
  pausePid : state.sandbox.pausePid.isSome
  built : BuiltFrom rt.2.made state.pod state
  used : ∀ id ∈ state.sandbox.containerIds, id ∈ inUse rt.1

/-- The entries of the store have their containers to themselves, and the cache has objects of their
make. -/
structure Accounted (inUse : ρ → Set String) (s : Reconciler (ρ × Trace)) : Prop where
  cached : ∀ name pod, s.cache name = some pod → pod.metadata.name = name
  same : ∀ name pod state, s.cache name = some pod → s.store name = some state → SameMake pod state.pod
  entry : ∀ name state, s.store name = some state → Entry inUse s.runtime name state
  disjoint : ∀ name other state state', s.store name = some state → s.store other = some state' →
    name ≠ other → ∀ id ∈ state.sandbox.containerIds, id ∉ state'.sandbox.containerIds

theorem containerIdFor_mem {sandbox : PodSandbox} {name : String} (h : name ∈ sandbox.appContainers) :
    sandbox.containerIdFor name ∈ sandbox.containerIds :=
  List.mem_cons_of_mem _ (List.mem_map.mpr ⟨name, h, rfl⟩)

theorem Entry.spared {own : Set String} {rt rt' : ρ × Trace} {name : PodName} {state : PodState}
    (h : Entry inUse rt name state) (hspares : Spares inUse own rt rt')
    (hown : ∀ id ∈ state.sandbox.containerIds, id ∉ own) : Entry inUse rt' name state where
  podName := h.podName
  named := h.named
  pausePid := h.pausePid
  built :=
    { h.built with
      commands := fun container hc => by
        have hid := containerIdFor_mem ((h.built.containers _).mpr ⟨container, hc, rfl⟩)
        rw [hspares.made _ (hown _ hid) (h.used _ hid)]
        exact h.built.commands container hc }
  used id hid := hspares.used id (hown id hid) (h.used id hid)

/-! ### A container that is added again -/

/-- The entry with the container behind the others. -/
def readded (state : PodState) (names : List String) (container : Container) : PodState :=
  { state with sandbox := { state.sandbox with appContainers := names ++ [container.name] } }

section Readded

variable {rt rt' : ρ × Trace} {name : PodName} {state : PodState} {names : List String}
  {container : Container} (h : Entry inUse rt name state)
  (hlisted : ∃ c ∈ state.pod.spec.containers, c.name = container.name ∧ c.command = container.command)
  (hnames : ∀ other, other ≠ container.name → (other ∈ names ↔ other ∈ state.sandbox.appContainers))
include h hlisted hnames

theorem appContainers_readded (other : String) :
    other ∈ (readded state names container).sandbox.appContainers ↔
      other ∈ state.sandbox.appContainers := by
  obtain ⟨c, hc, hname, -⟩ := hlisted
  show other ∈ names ++ [container.name] ↔ _
  rw [List.mem_append, List.mem_singleton]
  rcases eq_or_ne other container.name with rfl | hne
  · exact iff_of_true (.inr rfl) ((h.built.containers _).mpr ⟨c, hc, hname⟩)
  · rw [hnames other hne]
    exact or_iff_left hne

theorem containerIds_readded {id : String}
    (hid : id ∈ (readded state names container).sandbox.containerIds) :
    id ∈ state.sandbox.containerIds := by
  obtain rfl | hid := List.mem_cons.mp hid
  · exact List.mem_cons_self
  · obtain ⟨other, hother, rfl⟩ := List.mem_map.mp hid
    exact containerIdFor_mem ((appContainers_readded h hlisted hnames other).mp hother)

theorem Entry.readded (hspares : Spares inUse {state.sandbox.containerIdFor container.name} rt rt')
    (hused : state.sandbox.containerIdFor container.name ∈ inUse rt'.1)
    (hmade : rt'.2.made (state.sandbox.containerIdFor container.name) = some container.command) :
    Entry inUse rt' name (readded state names container) where
  podName := h.podName
  named := h.named
  pausePid := h.pausePid
  built :=
    { uid := rfl
      containers := fun other => (appContainers_readded h hlisted hnames other).trans (h.built.containers other)
      commands := fun c hc => by
        have hbefore := h.built.commands c hc
        show rt'.2.made (state.sandbox.containerIdFor c.name) = _
        rcases eq_or_ne c.name container.name with hname | hname
        · obtain ⟨c', hc', hname', hcommand⟩ := hlisted
          have hsame := h.built.commands c' hc'
          rw [hname', ← hname, hbefore] at hsame
          rw [hname, hmade, ← hcommand, ← hsame]
        · have hne : state.sandbox.containerIdFor c.name ≠ state.sandbox.containerIdFor container.name :=
            fun heq => hname (by simpa [PodSandbox.containerIdFor] using heq)
          have hid := containerIdFor_mem ((h.built.containers _).mpr ⟨c, hc, rfl⟩)
          rw [hspares.made _ hne (h.used _ hid), hbefore] }
  used id hid := by
    rcases eq_or_ne id (state.sandbox.containerIdFor container.name) with rfl | hne
    · exact hused
    · exact hspares.used id hne (h.used id (containerIds_readded h hlisted hnames hid))

end Readded

namespace Accounted

variable {s s' : Reconciler (ρ × Trace)} {own : Set String} {name : PodName}

/-- One entry changes, and the others are left alone. -/
theorem replace (name : PodName) (h : Accounted inUse s) (hspares : Spares inUse own s.runtime s'.runtime)
    (hcache : s'.cache = s.cache) (hstore : ∀ other, other ≠ name → s'.store other = s.store other)
    (hown : ∀ other state, other ≠ name → s.store other = some state →
      ∀ id ∈ state.sandbox.containerIds, id ∉ own)
    (hentry : ∀ state, s'.store name = some state → Entry inUse s'.runtime name state ∧
      (∀ pod, s.cache name = some pod → SameMake pod state.pod) ∧
      ∀ other state', other ≠ name → s.store other = some state' →
        ∀ id ∈ state.sandbox.containerIds, id ∉ state'.sandbox.containerIds) : Accounted inUse s' where
  cached other pod hpod := h.cached other pod (hcache ▸ hpod)
  same other pod state hpod hstate := by
    rw [hcache] at hpod
    rcases eq_or_ne other name with rfl | hne
    · exact (hentry state hstate).2.1 pod hpod
    · exact h.same other pod state hpod (hstore other hne ▸ hstate)
  entry other state hstate := by
    rcases eq_or_ne other name with rfl | hne
    · exact (hentry state hstate).1
    · rw [hstore other hne] at hstate
      exact (h.entry other state hstate).spared hspares (hown other state hne hstate)
  disjoint first second state state' hstate hstate' hne id hid hid' := by
    rcases eq_or_ne first name with rfl | hfirst
    · rw [hstore second hne.symm] at hstate'
      exact (hentry state hstate).2.2 second state' hne.symm hstate' id hid hid'
    · rw [hstore first hfirst] at hstate
      rcases eq_or_ne second name with rfl | hsecond
      · exact (hentry state' hstate').2.2 first state hne hstate id hid' hid
      · rw [hstore second hsecond] at hstate'
        exact h.disjoint first second state state' hstate hstate' hne id hid hid'

/-- Nothing but the runtime changes, and what is known of restarts and addresses. -/
theorem idle (h : Accounted inUse s) (hspares : Spares inUse ∅ s.runtime s'.runtime)
    (hcache : s'.cache = s.cache) (hstore : s'.store = s.store) : Accounted inUse s' where
  cached := hcache ▸ h.cached
  same := hcache ▸ hstore ▸ h.same
  entry name state hstate :=
    (h.entry name state (hstore ▸ hstate)).spared hspares fun _ _ => Set.notMem_empty _
  disjoint := hstore ▸ h.disjoint

/-- Objects come into the cache, or go. -/
theorem recache (h : Accounted inUse s) (hruntime : s'.runtime = s.runtime) (hstore : s'.store = s.store)
    (hcache : ∀ name pod, s'.cache name = some pod → s.cache name = some pod ∨
      pod.metadata.name = name ∧ ∀ state, s.store name = some state → SameMake pod state.pod) :
    Accounted inUse s' where
  cached name pod hpod := (hcache name pod hpod).elim (h.cached name pod) And.left
  same name pod state hpod hstate := by
    rw [hstore] at hstate
    exact (hcache name pod hpod).elim (h.same name pod state · hstate) (·.2 state hstate)
  entry := hruntime ▸ hstore ▸ h.entry
  disjoint := hstore ▸ h.disjoint

end Accounted

namespace Reconciler

variable {s s' : Reconciler (ρ × Trace)} {name : PodName} {pod : Pod}

/-- Unless a call that makes a container has failed. -/
def Ok (inUse : ρ → Set String) (s : Reconciler (ρ × Trace)) : Prop :=
  s.runtime.2.failed = true ∨ Accounted inUse s

theorem cache_releaseIp (ip : String) (s : Reconciler (ρ × Trace)) : (releaseIp ip s).cache = s.cache := by
  unfold releaseIp
  split <;> rfl

/-! ## Pods that are created -/

theorem addContainers_made (C : RuntimeContract host inUse) (ip : String) (sandbox : PodSandbox)
    (containers : List Container) (hpause : sandbox.pausePid.isSome) :
    wp (addContainers host.traced ip sandbox containers)
      (fun _ s' => s'.cache = s.cache ∧ Spares inUse ∅ s.runtime s'.runtime ∧
        ∀ c ∈ containers, s'.runtime.2.made (sandbox.containerIdFor c.name) = some c.command)
      (fun _ s' => s'.cache = s.cache ∧ s'.runtime.2.failed = true) s := by
  induction containers generalizing sandbox s with
  | nil => exact ⟨rfl, .refl _, nofun⟩
  | cons container rest ih =>
    unfold addContainers
    rw [wp_bind, wp_attempt, wp_onRuntime]
    have hadd : Keeps (Spares inUse ∅) (sandbox.addContainer host.traced container) :=
      PodSandbox.addContainer_spares C
    refine wp_mono (wp_and PodSandbox.addContainer_eq (wp_and (hadd.wp s.runtime)
      (PodSandbox.addContainer_made C hpause))) (fun sandbox' rt h => ?_) fun e rt h => ?_
    · obtain ⟨rfl, hspares, hused, hmade⟩ := h
      refine wp_mono (ih (s := { s with runtime := rt }) _ hpause) (fun _ s' h => ?_) fun _ s' h => h
      obtain ⟨hcache, hspares', hrest⟩ := h
      refine ⟨hcache, hspares.trans hspares', fun c hc => ?_⟩
      obtain rfl | hc := List.mem_cons.mp hc
      · exact (hspares'.made _ (Set.notMem_empty _) hused).trans hmade
      · exact hrest c hc
    · have hdestroy : Keeps (Spares inUse Set.univ) (sandbox.destroy host.traced) :=
        PodSandbox.destroy_keeps (C.removal Set.univ) fun _ _ => trivial
      show wp (attempt (onRuntime (sandbox.destroy host.traced)) >>= _) _ _ _
      rw [wp_bind, wp_attempt, wp_onRuntime]
      refine wp_mono (hdestroy.wp rt) (fun _ rt' h' => ?_) fun _ rt' h' => ?_
      all_goals
        refine ⟨cache_releaseIp .., ?_⟩
        rw [runtime_releaseIp]
        exact h'.failed h.2.2

/-- A pod that is created has its containers created from its commands. -/
theorem createPod_made (C : RuntimeContract host inUse) : wp (createPod host.traced pod)
    (fun _ s' => s'.cache = s.cache ∧ Spares inUse ∅ s.runtime s'.runtime ∧
      ∀ c ∈ pod.spec.containers,
        s'.runtime.2.made (pod.metadata.name ++ "__" ++ c.name) = some c.command)
    (fun _ s' => s'.cache = s.cache ∧
      (s'.runtime.2.failed = true ∨ Spares inUse ∅ s.runtime s'.runtime)) s := by
  unfold createPod createSandbox
  simp only [wp_bind, wp_get, wp_onRuntime, wp_addContext, wp_pure, wp_modify]
  refine wp_mono ensurePodIp_frame (fun ip s₁ h₁ => ?_) fun _ s₁ h₁ => ?_
  · rw [h₁]
    refine wp_mono (wp_and PodSandbox.create_eq ((PodSandbox.create_spares C (some ip)).wp _))
      (fun sandbox rt h => ?_) fun _ rt h => ⟨rfl, .inr h.2⟩
    obtain ⟨⟨pausePid, rfl⟩, hspares⟩ := h
    refine wp_mono (addContainers_made C ip _ pod.spec.containers rfl) (fun _ s₂ h => ?_) fun _ s₂ h => ?_
    · exact ⟨h.1, hspares.trans h.2.1, h.2.2⟩
    · exact ⟨h.1, .inl h.2⟩
  · rw [h₁]
    exact ⟨rfl, .inr (.refl _)⟩

theorem Ok.createPod (C : RuntimeContract host inUse) (h : Ok inUse s)
    (hcache : s.cache pod.metadata.name = some pod) :
    Ok inUse (left (createPod host.traced pod s)) ∧
      (left (createPod host.traced pod s)).cache = s.cache := by
  have hcreate : wp (Reconciler.createPod host.traced pod) (fun _ s' => Ok inUse s' ∧ s'.cache = s.cache)
      (fun _ s' => Ok inUse s' ∧ s'.cache = s.cache) s := by
    obtain hfailed | h := h
    · refine wp_mono (createPod_made C) (fun _ s' h' => ⟨.inl (h'.2.1.failed hfailed), h'.1⟩)
        fun _ s' h' => ⟨.inl (h'.2.elim id fun hspares => hspares.failed hfailed), h'.1⟩
    · refine wp_mono (wp_and (createPod_contract C.traced) (createPod_made C))
        (fun _ s' h' => ⟨.inr ?_, h'.2.1⟩) fun _ s' h' => ⟨?_, h'.2.1⟩
      · obtain ⟨⟨⟨pausePid, podIp, hstore⟩, -, hfree, hgrown⟩, hcache', hspares, hmade⟩ := h'
        refine h.replace pod.metadata.name hspares hcache' (fun other hne => ?_)
          (fun _ _ _ _ _ _ => Set.notMem_empty _) fun state hstate => ?_
        · rw [hstore, Function.update_of_ne hne]
        · rw [hstore, Function.update_self] at hstate
          cases hstate
          refine ⟨⟨rfl, rfl, rfl, ⟨rfl, fun n => ?_, hmade⟩, fun id hid => ?_⟩, fun pod' hpod' => ?_, ?_⟩
          · exact List.mem_map
          · rw [containerIds_sandboxOf] at hid
            show id ∈ tracedIds inUse s'.runtime
            rw [hgrown]
            exact .inr hid
          · cases hcache.symm.trans hpod'
            exact .refl pod
          · intro other state' _ hstate' id hid hid'
            rw [containerIds_sandboxOf] at hid
            exact hfree id hid ((h.entry other state' hstate').used id hid')
      · obtain ⟨hstore, hcache', hfailed | hspares⟩ := h'
        · exact .inl hfailed
        · exact .inr (h.idle hspares hcache' hstore)
  exact wp_left (P := fun s' : Reconciler (ρ × Trace) => Ok inUse s' ∧ s'.cache = s.cache) hcreate

/-! ## Pods that are removed -/

theorem Ok.removePod (C : RuntimeContract host inUse) (h : Ok inUse s) (name : PodName) :
    Ok inUse (left (removePod host.traced name s)) ∧
      (left (removePod host.traced name s)).cache = s.cache := by
  have hremove : wp (Reconciler.removePod host.traced name) (fun _ s' => Ok inUse s' ∧ s'.cache = s.cache)
      (fun _ s' => Ok inUse s' ∧ s'.cache = s.cache) s := by
    unfold Reconciler.removePod
    simp only [wp_bind, wp_get]
    cases hstate : s.store name with
    | none => exact ⟨h, rfl⟩
    | some state =>
      simp only [wp_bind, wp_set, wp_onRuntime]
      have hdestroy : Keeps (Spares inUse {id | id ∈ state.sandbox.containerIds})
          (state.sandbox.destroy host.traced) :=
        PodSandbox.destroy_keeps (C.removal _) fun _ hid => hid
      have hgone : ∀ s', Spares inUse {id | id ∈ state.sandbox.containerIds} s.runtime s'.runtime →
          s'.cache = s.cache → s'.store = Function.update s.store name none →
            Ok inUse s' ∧ s'.cache = s.cache := by
        intro s' hspares hcache hstore
        refine ⟨h.imp hspares.failed fun h => h.replace name hspares hcache (fun other hne => ?_)
          (fun other state' hne hstate' id hid => ?_) fun state' hstate' => ?_, hcache⟩
        · rw [hstore, Function.update_of_ne hne]
        · exact h.disjoint other name state' state hstate' hstate hne id hid
        · rw [hstore, Function.update_self] at hstate'
          cases hstate'
      refine wp_mono (hdestroy.wp s.runtime) (fun _ rt hspares => ?_) fun _ rt hspares => ?_
      · cases state.sandbox.podIp with
        | none =>
          refine hgone _ ?_ ?_ ?_
          exacts [hspares, rfl, rfl]
        | some ip =>
          rw [wp_modify]
          refine hgone _ ?_ (cache_releaseIp ..) (store_releaseIp ..)
          rw [runtime_releaseIp]
          exact hspares
      · refine ⟨(hgone _ ?_ ?_ ?_).1, trivial⟩
        exacts [hspares, rfl, rfl]
  exact wp_left (P := fun s' : Reconciler (ρ × Trace) => Ok inUse s' ∧ s'.cache = s.cache) hremove

/-! ## Containers that are restarted -/

theorem store_setSandbox_twice {state : PodState} {first second : PodSandbox} {rt rt' : ρ × Trace}
    (h : s.store name = some state) :
    (setSandbox name second
      { setSandbox name first { s with runtime := rt } with runtime := rt' }).store =
        Function.update s.store name (some { state with sandbox := second }) := by
  funext other
  rcases eq_or_ne other name with rfl | hne <;> simp [setSandbox, *]

/-- The cache stays as it is, and a failure is not forgotten. -/
structure SameCache (s s' : Reconciler (ρ × Trace)) : Prop where
  cache : s'.cache = s.cache
  failed : s.runtime.2.failed = true → s'.runtime.2.failed = true

instance : Std.Refl (@SameCache ρ) where
  refl _ := ⟨rfl, fun h => h⟩

instance : IsTrans (Reconciler (ρ × Trace)) SameCache where
  trans _ _ _ h h' := ⟨h'.cache.trans h.cache, fun hfailed => h'.failed (h.failed hfailed)⟩

theorem onRuntime_sameCache {ε α : Type} {x : EStateM ε (ρ × Trace) α}
    (h : Keeps (Spares inUse Set.univ) x) : Keeps SameCache (onRuntime x) :=
  .of_wp fun s => wp_onRuntime.mpr (wp_mono (h.wp s.runtime) (fun _ _ h => ⟨rfl, h.failed⟩)
    fun _ _ h => ⟨rfl, h.failed⟩)

theorem restart_sameCache (C : RuntimeContract host inUse) (name : PodName) (container : Container) :
    Keeps SameCache (restart host.traced name container) := by
  unfold restart
  refine .bind (fun s => Std.Refl.refl s) fun s => ?_
  cases s.store name with
  | none => exact .pure ()
  | some state =>
    have hremove : Keeps SameCache (onRuntime (state.sandbox.removeOrKeep host.traced container.name)) :=
      onRuntime_sameCache (PodSandbox.removeOrKeep_keeps (C.removal Set.univ) trivial)
    refine hremove.bind fun sandbox => .bind (.modify fun s => ⟨rfl, fun h => h⟩) fun _ => ?_
    refine (onRuntime_sameCache (PodSandbox.addContainer_spares C).adapt).bind fun sandbox => ?_
    exact .modify fun s => ⟨rfl, fun h => h⟩

theorem Ok.restart (C : RuntimeContract host inUse) (h : Accounted inUse s) {container : Container}
    (hcache : s.cache name = some pod) (hc : container ∈ pod.spec.containers) :
    wp (restart host.traced name container) (fun _ s' => Ok inUse s') (fun _ s' => Ok inUse s') s := by
  unfold Reconciler.restart
  simp only [wp_bind, wp_get]
  cases hstate : s.store name with
  | none => exact .inr h
  | some state =>
    simp only [wp_bind, wp_onRuntime, wp_addContext, wp_modify]
    have hentry := h.entry name state hstate
    have hlisted := exists_of_subset (h.same name pod state hcache hstate).subset hc
    have hremove : Keeps (Spares inUse {state.sandbox.containerIdFor container.name})
        (state.sandbox.removeOrKeep host.traced container.name) :=
      PodSandbox.removeOrKeep_keeps (C.removal _) (Set.mem_singleton _)
    refine wp_mono (wp_and PodSandbox.removeOrKeep_eq (hremove.wp s.runtime)) (fun kept rt h₁ => ?_)
      fun _ _ h₁ => h₁.1.elim
    obtain ⟨⟨names, rfl, hnames⟩, hspares⟩ := h₁
    have hadd : Keeps (Spares inUse {state.sandbox.containerIdFor container.name})
        (PodSandbox.addContainer host.traced { state.sandbox with appContainers := names } container) :=
      PodSandbox.addContainer_spares C
    refine wp_mono (wp_and PodSandbox.addContainer_eq (wp_and (hadd.wp rt)
      (PodSandbox.addContainer_made C hentry.pausePid))) (fun added rt' h₂ => ?_) fun _ rt' h₂ => .inl h₂.2.2
    obtain ⟨rfl, hspares', hused, hmade⟩ := h₂
    refine .inr (h.replace name (hspares.trans hspares') rfl (fun other hne => ?_)
      (fun other state' hne hstate' id hid hown => ?_) fun state' hstate' => ?_)
    · rw [store_setSandbox_twice hstate, Function.update_of_ne hne]
    · obtain ⟨c, hc, hname, -⟩ := hlisted
      rw [Set.mem_singleton_iff.mp hown, ← hname] at hid
      have hmem := containerIdFor_mem ((hentry.built.containers _).mpr ⟨c, hc, rfl⟩)
      exact h.disjoint other name state' state hstate' hstate hne _ hid hmem
    · rw [store_setSandbox_twice hstate, Function.update_self] at hstate'
      obtain rfl : readded state names container = state' := Option.some.inj hstate'
      refine ⟨hentry.readded hlisted hnames (hspares.trans hspares') hused hmade,
        fun pod' hpod' => ?_, fun other state' hne hstate' id hid => ?_⟩
      · exact h.same name pod' state hpod' hstate
      · exact h.disjoint name other state state' hstate hstate' hne.symm id
          (containerIds_readded hentry hlisted hnames hid)

/-! ## Liveness -/

/-- Nothing has happened to the entries, nor to the cache. -/
structure Idle (inUse : ρ → Set String) (s s' : Reconciler (ρ × Trace)) : Prop where
  spares : Spares inUse ∅ s.runtime s'.runtime
  cache : s'.cache = s.cache
  store : s'.store = s.store

instance : Std.Refl (Idle inUse) where
  refl _ := ⟨.refl _, rfl, rfl⟩

instance : IsTrans (Reconciler (ρ × Trace)) (Idle inUse) where
  trans _ _ _ h h' := ⟨h.spares.trans h'.spares, h'.cache.trans h.cache, h'.store.trans h.store⟩

theorem Idle.accounted (h : Idle inUse s s') (hs : Accounted inUse s) : Accounted inUse s' :=
  hs.idle h.spares h.cache h.store

theorem Idle.sameCache (h : Idle inUse s s') : SameCache s s' := ⟨h.cache, h.spares.failed⟩

theorem onRuntime_idle {ε α : Type} {x : EStateM ε (ρ × Trace) α} (h : Keeps (Spares inUse ∅) x) :
    Keeps (Idle inUse) (onRuntime x) :=
  .of_wp fun s => wp_onRuntime.mpr (wp_mono (h.wp s.runtime) (fun _ _ h => ⟨h, rfl, rfl⟩)
    fun _ _ h => ⟨h, rfl, rfl⟩)

theorem now_idle (C : RuntimeContract host inUse) :
    Keeps (Idle inUse) (onRuntime (modifyGet host.traced.now) : Action (Reconciler (ρ × Trace)) ℕ) :=
  onRuntime_idle (.modifyGet (C.removal ∅).now)

theorem containerState_idle (C : RuntimeContract host inUse) (id : String) :
    Keeps (Idle inUse) (onRuntime (host.traced.containerState id)) := onRuntime_idle (C.state id).spares

theorem readState_idle (C : RuntimeContract host inUse) (text id : String) :
    Keeps (Idle inUse) (onRuntime (withContext text (host.traced.containerState id))) :=
  onRuntime_idle (C.state id).spares.adapt

theorem restartState_idle (s : Reconciler (ρ × Trace)) (restartState : String → Option RestartTracker) :
    Idle inUse s { s with restartState := restartState } := ⟨.refl _, rfl, rfl⟩

theorem tracker_idle (C : RuntimeContract host inUse) (id : String) :
    Keeps (Idle inUse) (tracker host.traced id) := by
  unfold tracker
  refine .bind (fun s => Std.Refl.refl s) fun s => ?_
  cases s.restartState id with
  | some tracker => exact .pure _
  | none =>
    refine (now_idle C).bind fun now => ?_
    exact .bind (.modify fun s => restartState_idle s _) fun _ => .pure _

/-- What comes before the restart is idle. -/
theorem restartIfDue_sameCache (C : RuntimeContract host inUse) (name : PodName) (container : Container) :
    Keeps SameCache (restartIfDue host.traced name container) := by
  unfold restartIfDue
  refine ((tracker_idle C _).mono fun _ _ h => h.sameCache).bind fun tracker => ?_
  refine ((now_idle C).mono fun _ _ h => h.sameCache).bind fun now => ?_
  split
  · exact .pure ()
  · exact .bind (.modify fun s => ⟨rfl, fun h => h⟩) fun _ => restart_sameCache C name container

theorem Ok.restartIfDue (C : RuntimeContract host inUse) (h : Accounted inUse s) {container : Container}
    (hcache : s.cache name = some pod) (hc : container ∈ pod.spec.containers) :
    wp (restartIfDue host.traced name container) (fun _ s' => Ok inUse s') (fun _ s' => Ok inUse s') s := by
  unfold Reconciler.restartIfDue
  rw [wp_bind]
  refine wp_mono ((tracker_idle C _).wp s) (fun tracker s₁ h₁ => ?_) fun _ s₁ h₁ => .inr (h₁.accounted h)
  rw [wp_bind]
  refine wp_mono ((now_idle C).wp s₁) (fun now s₂ h₂ => ?_) fun _ s₂ h₂ =>
    .inr (h₂.accounted (h₁.accounted h))
  have h₂' := h₂.accounted (h₁.accounted h)
  have hcache' : s₂.cache name = some pod := by rw [h₂.cache, h₁.cache, hcache]
  split
  · exact .inr h₂'
  · rw [wp_bind, wp_modify]
    exact Ok.restart C ((restartState_idle s₂ _).accounted h₂') hcache' hc

theorem reconcileContainer_sameCache (C : RuntimeContract host inUse) (name : PodName)
    (container : Container) : Keeps SameCache (reconcileContainer host.traced name container) := by
  unfold reconcileContainer
  refine ((readState_idle C _ _).mono fun _ _ h => h.sameCache).bind fun state => ?_
  cases state with
  | stopped | notFound => exact restartIfDue_sameCache C name container
  | running => exact .modify fun s => ⟨rfl, fun h => h⟩
  | created => exact .pure ()

theorem Ok.reconcileContainer (C : RuntimeContract host inUse) (h : Accounted inUse s)
    {container : Container} (hcache : s.cache name = some pod) (hc : container ∈ pod.spec.containers) :
    wp (reconcileContainer host.traced name container) (fun _ s' => Ok inUse s')
      (fun _ s' => Ok inUse s') s := by
  unfold Reconciler.reconcileContainer
  rw [wp_bind]
  refine wp_mono ((readState_idle C _ _).wp s) (fun state s₁ h₁ => ?_) fun _ s₁ h₁ => .inr (h₁.accounted h)
  have hcache' : s₁.cache name = some pod := by rw [h₁.cache, hcache]
  cases state with
  | stopped | notFound => exact Ok.restartIfDue C (h₁.accounted h) hcache' hc
  | running => exact .inr ((restartState_idle s₁ _).accounted (h₁.accounted h))
  | created => exact .inr (h₁.accounted h)

/-- **A liveness pass** of a pod, with the object in the cache. -/
theorem Ok.reconcileLiveness (C : RuntimeContract host inUse) (h : Ok inUse s)
    (hcache : s.cache name = some pod) :
    Ok inUse (left (reconcileLiveness host.traced name pod s)) ∧
      (left (reconcileLiveness host.traced name pod s)).cache = s.cache := by
  refine wp_left (P := fun s' : Reconciler (ρ × Trace) => Ok inUse s' ∧ s'.cache = s.cache) ?_
  unfold Reconciler.reconcileLiveness
  rw [wp_bind, wp_get]
  cases s.store name with
  | none => exact ⟨h, rfl⟩
  | some _ =>
    refine wp_forM ⟨h, rfl⟩ fun s₁ container hc hs₁ => ?_
    have hframe := (reconcileContainer_sameCache C name container).wp s₁
    obtain ⟨hfailed | h₁, hsame⟩ := hs₁
    · exact wp_mono hframe (fun _ s₂ h₂ => ⟨.inl (h₂.failed hfailed), h₂.cache.trans hsame⟩)
        fun _ s₂ h₂ => ⟨.inl (h₂.failed hfailed), h₂.cache.trans hsame⟩
    · have hcache₁ : s₁.cache name = some pod := by rw [hsame, hcache]
      exact wp_mono (wp_and hframe (Ok.reconcileContainer C h₁ hcache₁ hc))
        (fun _ s₂ h₂ => ⟨h₂.2, h₂.1.cache.trans hsame⟩) fun _ s₂ h₂ => ⟨h₂.2, h₂.1.cache.trans hsame⟩

theorem computePodStatus_idle (C : RuntimeContract host inUse) (pod : Pod) :
    Keeps (Idle inUse) (computePodStatus host.traced pod) := by
  unfold computePodStatus
  refine .bind (fun s => Std.Refl.refl s) fun s => (Keeps.mapM (fun c => ?_) _).bind fun states => .pure _
  unfold stateOrNotFound
  refine (containerState_idle C _).attempt.bind fun state => ?_
  cases state <;> exact .pure _

theorem observedGeneration_computePodStatus {ρ : Type} {host : Host ρ} {pod : Pod} {s s' : Reconciler ρ}
    {status : PodStatus} (h : computePodStatus host pod s = .ok status s') :
    status.observedGeneration = pod.metadata.generation := by
  have hgeneration : wp (computePodStatus host pod)
      (fun status _ => status.observedGeneration = pod.metadata.generation) (fun _ _ => True) s := by
    unfold computePodStatus
    rw [wp_bind, wp_get, wp_bind]
    exact wp_of_forall (fun _ _ => rfl) fun _ _ => trivial
  unfold wp at hgeneration
  rw [h] at hgeneration
  exact hgeneration

/-! ## Resyncs -/

theorem Ok.createMissing (C : RuntimeContract host inUse) {desired : List Pod} (h : Ok inUse s)
    (hcache : ∀ pod ∈ desired, s.cache pod.metadata.name = some pod) :
    Ok inUse (createMissing host.traced desired s) ∧
      (createMissing host.traced desired s).cache = s.cache := by
  induction desired generalizing s with
  | nil => exact ⟨h, rfl⟩
  | cons pod rest ih =>
    have hfirst := hcache pod List.mem_cons_self
    have hrest : ∀ pod ∈ rest, s.cache pod.metadata.name = some pod := fun pod hpod =>
      hcache pod (List.mem_cons_of_mem _ hpod)
    unfold Reconciler.createMissing at ih ⊢
    rw [List.foldl_cons]
    split
    · obtain ⟨hok, hsame⟩ := h.createPod C hfirst
      rw [← hsame] at hrest ⊢
      exact ih hok hrest
    · exact ih h hrest

theorem Ok.removeAll (C : RuntimeContract host inUse) (h : Ok inUse s) (names : List PodName) :
    Ok inUse (names.foldl (fun s name => left (Reconciler.removePod host.traced name s)) s) ∧
      (names.foldl (fun s name => left (Reconciler.removePod host.traced name s)) s).cache = s.cache := by
  induction names generalizing s with
  | nil => exact ⟨h, rfl⟩
  | cons name rest ih =>
    obtain ⟨hok, hsame⟩ := h.removePod C name
    rw [List.foldl_cons, ← hsame]
    exact ih hok

theorem Ok.reconcileAll (C : RuntimeContract host inUse) {desired : List Pod} (h : Ok inUse s)
    (hcache : ∀ pod ∈ desired, s.cache pod.metadata.name = some pod) :
    Ok inUse (reconcileAll host.traced desired s) := by
  induction desired generalizing s with
  | nil => exact h
  | cons pod rest ih =>
    obtain ⟨hok, hsame⟩ := h.reconcileLiveness C (hcache pod List.mem_cons_self)
    unfold Reconciler.reconcileAll at ih ⊢
    rw [List.foldl_cons]
    exact ih hok fun pod hpod => by rw [hsame]; exact hcache pod (List.mem_cons_of_mem _ hpod)

end Reconciler

/-! ## A run -/

theorem PodMap.get_eq_some {m : PodMap} {name : PodName} {pod : Pod} (h : m.get name = some pod) :
    pod.metadata.name = name := by
  have hname := List.find?_some h
  rwa [decide_eq_true_eq] at hname

theorem PodMap.get_of_mem {m : PodMap} {pod : Pod} (h : pod ∈ m.pods) :
    m.get pod.metadata.name = some pod := by
  cases hget : m.get pod.metadata.name with
  | none =>
    have hnone := List.find?_eq_none.mp hget pod h
    simp at hnone
  | some other =>
    rw [List.inj_on_of_nodup_map m.nodup (List.mem_of_find?_eq_some hget) h (PodMap.get_eq_some hget)]

/-- What happens to a kubelet. A liveness tick is a liveness pass and a report for each pod in the
cache, and a push for each status that is new. -/
inductive KubeletStep
  | watch (event : WatchEvent Pod)
  | resync (desired : PodMap) (names : List PodName)
  | liveness (name : PodName)
  | report (name : PodName)
  | push (name : PodName) (status : PodStatus) (answers : PushAnswers)

namespace KubeletStep

/-- An object that the step brings for a pod. -/
def Brings : KubeletStep → PodName → Pod → Prop
  | watch event, name, pod =>
    event.eventType ≠ .deleted ∧ name = event.object.metadata.name ∧ pod = event.object
  | resync desired _, name, pod => desired.get name = some pod
  | liveness _, _, _ | report _, _, _ => False
  | push pushed _ answers, name, pod => name = pushed ∧
    (answers.replaced = .ok pod ∨ (∃ message, answers.replaced = .error (.conflict message)) ∧
      (answers.latest = .ok (some pod) ∨ answers.retried = .ok pod))

end KubeletStep

namespace Reconciler

def kubeletStep {ρ : Type} (host : Host ρ) (s : Reconciler ρ) : KubeletStep → Reconciler ρ
  | .watch event => applyWatchEvent host event s
  | .resync desired names => resync host desired names s
  | .liveness name =>
    match s.cache name with
    | none => s
    | some pod => left (reconcileLiveness host name pod s)
  | .report name =>
    match s.cache name with
    | none => s
    | some pod => left (computePodStatus host pod s)
  | .push name status answers => left (pushStatus name status answers s)

section Push

variable {ρ : Type} {brought : PodName → Pod → Prop} {s s' : Reconciler ρ} {name : PodName} {pod : Pod}

/-- Nothing but the cache and the statuses that have been pushed is different. The cache has lost nothing, and
what it has gained has been brought. -/
structure Pushed (brought : PodName → Pod → Prop) (s s' : Reconciler ρ) : Prop where
  runtime : s'.runtime = s.runtime
  store : s'.store = s.store
  restartState : s'.restartState = s.restartState
  gained : ∀ name pod, s'.cache name = some pod → s.cache name = some pod ∨ brought name pod
  kept : ∀ name, (s.cache name).isSome → (s'.cache name).isSome

instance : Std.Refl (@Pushed ρ brought) where
  refl _ := ⟨rfl, rfl, rfl, fun _ _ h => .inl h, fun _ h => h⟩

instance : IsTrans (Reconciler ρ) (Pushed brought) where
  trans _ _ _ h h' := ⟨h'.runtime.trans h.runtime, h'.store.trans h.store, h'.restartState.trans h.restartState,
    fun name pod hpod => (h'.gained name pod hpod).elim (h.gained name pod) .inr,
    fun name hname => h'.kept name (h.kept name hname)⟩

theorem Pushed.update (h : brought name pod) (hruntime : s'.runtime = s.runtime) (hstore : s'.store = s.store)
    (hrestart : s'.restartState = s.restartState) (hcache : s'.cache = Function.update s.cache name (some pod)) :
    Pushed brought s s' := by
  refine ⟨hruntime, hstore, hrestart, fun other pod' hpod' => ?_, fun other hother => ?_⟩
  · rw [hcache] at hpod'
    rcases eq_or_ne other name with rfl | hne
    · rw [Function.update_self] at hpod'
      exact .inr (Option.some.inj hpod' ▸ h)
    · rw [Function.update_of_ne hne] at hpod'
      exact .inl hpod'
  · rw [hcache]
    rcases eq_or_ne other name with rfl | hne
    · rw [Function.update_self]
      rfl
    · rwa [Function.update_of_ne hne]

/-- **What a push does**, with any answers of the server. -/
theorem pushStatus_pushed (name : PodName) (status : PodStatus) (answers : PushAnswers) :
    Keeps (@Pushed ρ (KubeletStep.push name status answers).Brings) (pushStatus name status answers) := by
  unfold pushStatus
  refine .bind (fun s => Std.Refl.refl s) fun s => ?_
  cases (s.cache name).bind fun pod => pod.metadata.resourceVersion with
  | none => exact .pure ()
  | some _ =>
    cases hreplaced : answers.replaced with
    | ok updated => exact .modify fun s => .update ⟨rfl, .inl hreplaced⟩ rfl rfl rfl rfl
    | error e =>
      cases e with
      | conflict message =>
        have hconflict : ∃ message, answers.replaced = .error (.conflict message) := ⟨message, hreplaced⟩
        cases hlatest : answers.latest with
        | error e => exact .throw _
        | ok found =>
          cases found with
          | none => exact .pure ()
          | some latest =>
            dsimp only
            split
            · exact .throw _
            · refine .bind (.modify fun s => .update ⟨rfl, .inr ⟨hconflict, .inl hlatest⟩⟩ rfl rfl rfl rfl) fun _ => ?_
              cases hretried : answers.retried with
              | error e => exact .throw _
              | ok updated => exact .modify fun s => .update ⟨rfl, .inr ⟨hconflict, .inr hretried⟩⟩ rfl rfl rfl rfl
      | http | alreadyExists | notFound | other => exact .throw _

end Push

/-- The objects that the step brings are named as they should be. For a pod in the store, each of them is
of the make of the object from which the sandbox was created. -/
def BringsSame (s : Reconciler (ρ × Trace)) (step : KubeletStep) : Prop :=
  ∀ name pod, step.Brings name pod → pod.metadata.name = name ∧
    ∀ state, s.store name = some state → SameMake pod state.pod

variable {s s' : Reconciler (ρ × Trace)} {name : PodName} {pod : Pod}

theorem Ok.recache (h : Ok inUse s) (hruntime : s'.runtime = s.runtime) (hstore : s'.store = s.store)
    (hcache : ∀ name pod, s'.cache name = some pod → s.cache name = some pod ∨
      pod.metadata.name = name ∧ ∀ state, s.store name = some state → SameMake pod state.pod) :
    Ok inUse s' :=
  h.imp (hruntime ▸ ·) (·.recache hruntime hstore hcache)

/-- One object comes into the cache, or goes. -/
theorem Ok.update_cache (h : Ok inUse s) {cached : Option Pod} (hruntime : s'.runtime = s.runtime)
    (hstore : s'.store = s.store) (hcache : s'.cache = Function.update s.cache name cached)
    (hsame : ∀ pod, cached = some pod → pod.metadata.name = name ∧
      ∀ state, s.store name = some state → SameMake pod state.pod) : Ok inUse s' := by
  refine h.recache hruntime hstore fun other pod hpod => ?_
  rw [hcache] at hpod
  rcases eq_or_ne other name with rfl | hne
  · rw [Function.update_self] at hpod
    exact .inr (hsame pod hpod)
  · rw [Function.update_of_ne hne] at hpod
    exact .inl hpod

theorem Ok.pushStatus (h : Ok inUse s) {status : PodStatus} {answers : PushAnswers}
    (hbrings : s.BringsSame (.push name status answers)) :
    Ok inUse (left (pushStatus name status answers s)) := by
  have hpushed := pushStatus_pushed name status answers s
  exact h.recache hpushed.runtime hpushed.store fun other pod hpod =>
    (hpushed.gained other pod hpod).imp id (hbrings other pod)

theorem Ok.step (C : RuntimeContract host inUse) (h : Ok inUse s) {step : KubeletStep}
    (hbrings : s.BringsSame step) : Ok inUse (kubeletStep host.traced s step) := by
  cases step with
  | watch event =>
    obtain ⟨type, pod⟩ := event
    have happly : type ≠ .deleted → Ok inUse (applyPod host.traced pod s) := by
      intro htype
      have hsame := hbrings pod.metadata.name pod ⟨htype, rfl, rfl⟩
      have hcached : Ok inUse { s with cache := Function.update s.cache pod.metadata.name (some pod) } :=
        h.update_cache rfl rfl rfl fun pod' hpod' => Option.some.inj hpod' ▸ hsame
      unfold applyPod
      dsimp only
      split
      · exact (hcached.createPod C (Function.update_self ..)).1
      · exact hcached
    cases type with
    | added | modified => exact happly nofun
    | deleted =>
      have hcached : Ok inUse { s with cache := Function.update s.cache pod.metadata.name none } :=
        h.update_cache rfl rfl rfl fun _ hpod => by cases hpod
      exact (hcached.removePod C _).1
  | resync desired names =>
    have hcached : Ok inUse { s with cache := desired.get } :=
      h.recache rfl rfl fun name pod hpod => .inr (hbrings name pod hpod)
    obtain ⟨hcreated, hsame⟩ := hcached.createMissing C fun pod hpod => PodMap.get_of_mem hpod
    obtain ⟨hremoved, hsame'⟩ := hcreated.removeAll C _
    refine hremoved.reconcileAll C fun pod hpod => ?_
    rw [hsame', hsame]
    exact PodMap.get_of_mem hpod
  | liveness name =>
    simp only [kubeletStep]
    cases hcache : s.cache name with
    | none => exact h
    | some pod => exact (h.reconcileLiveness C hcache).1
  | report name =>
    simp only [kubeletStep]
    cases s.cache name with
    | none => exact h
    | some pod =>
      have hidle := computePodStatus_idle C pod s
      exact h.imp hidle.spares.failed hidle.accounted
  | push name status answers => exact h.pushStatus hbrings

theorem tickPod_eq_run {ρ : Type} (host : Host ρ) (name : PodName) (s : Reconciler ρ) :
    (tickPod host name s).2 =
      kubeletStep host (kubeletStep host s (.liveness name)) (.report name) := by
  unfold tickPod
  cases hcache : s.cache name with
  | none => simp only [kubeletStep, hcache]
  | some pod =>
    have hsame : (left (reconcileLiveness host name pod s)).cache name = some pod := by
      rw [(reconcileLiveness_sameAddresses host name pod s).cache, hcache]
    simp only [kubeletStep, hcache, hsame]
    cases computePodStatus host pod (left (reconcileLiveness host name pod s)) <;> rfl

/-- A whole tick is a run of these steps. -/
theorem tickLiveness_eq_run {ρ : Type} (host : Host ρ) (names : List PodName) (s : Reconciler ρ) :
    (tickLiveness host names s).2 =
      (names.flatMap fun name => [.liveness name, .report name]).foldl (kubeletStep host) s := by
  have hloop : ∀ dirty, (names.foldl (fun (st : List (PodName × PodStatus) × Reconciler ρ) name =>
      (st.1 ++ (tickPod host name st.2).1.toList.map (name, ·), (tickPod host name st.2).2))
        (dirty, s)).2 = (names.flatMap fun name => [.liveness name, .report name]).foldl
          (kubeletStep host) s := by
    induction names generalizing s with
    | nil => exact fun _ => rfl
    | cons name rest ih =>
      intro dirty
      rw [List.foldl_cons, ih, tickPod_eq_run]
      rfl
  exact hloop []

/-- Whenever `compute_pod_status` reports a generation of a pod in the store, the sandbox is made from the
object of that generation. -/
def HonestReports (host : Host ρ) (s : Reconciler (ρ × Trace)) : Prop :=
  ∀ name pod state status s', s.cache name = some pod → s.store name = some state →
    computePodStatus host.traced pod s = .ok status s' →
      status.observedGeneration = pod.metadata.generation ∧ BuiltFrom s'.runtime.2.made pod state

/-- **Observed generations.** In every run in which no call that makes a container fails, the reports are
honest, as long as what the steps bring for a pod in the store is of the make of the object from which
its sandbox was created. -/
theorem observed_generation_honest (C : RuntimeContract host inUse) (h : Accounted inUse s)
    (steps : List KubeletStep) (hbrings : ∀ past step, past ++ [step] <+: steps →
      (past.foldl (kubeletStep host.traced) s).BringsSame step) :
    ∀ past, past <+: steps → (past.foldl (kubeletStep host.traced) s).runtime.2.failed = false →
      HonestReports host (past.foldl (kubeletStep host.traced) s) := by
  have hrun : ∀ past, past <+: steps → Ok inUse (past.foldl (kubeletStep host.traced) s) :=
    Runs.invariant_of_ok (fun s step h hstep => h.step C hstep) (.inr h) hbrings
  intro past hp hfailed name pod state status s' hcache hstore hstatus
  obtain hcontra | hs := hrun past hp
  · rw [hfailed] at hcontra
    cases hcontra
  · refine ⟨observedGeneration_computePodStatus hstatus, ?_⟩
    have hidle := computePodStatus_idle C pod (past.foldl (kubeletStep host.traced) s)
    rw [hstatus, left_ok] at hidle
    have hs' := hidle.accounted hs
    have hbuilt := (hs'.entry name state (hidle.store ▸ hstore)).built
    exact hbuilt.of_sameMake (hs.same name pod state hcache hstore)

/-! ### A pod that is edited -/

/-- The kubelet of a node without pods, on a host that takes notes. -/
def tracedNode : Reconciler (List RecoveredContainer × Trace) :=
  { new ["pods"] ["rootfs"] ([], Trace.empty) with
    ipam := (IpAllocator.fromCidr "10.244.1.0/24").toOption }

/-- "web" at a generation, with the command of its container. -/
def webAt (generation : UInt64) (command : List String) : Pod :=
  { podNamed "web" none with
    metadata := { (podNamed "web" none).metadata with generation := some generation }
    spec := { containers := [⟨"app", "busybox", command⟩], nodeName := some "a" } }

theorem cache_tracedNode (name : PodName) : tracedNode.cache name = none := rfl

theorem store_tracedNode (name : PodName) : tracedNode.store name = none := rfl

theorem tracedNode_accounted : Accounted recoveredIds tracedNode where
  cached name pod hpod := by rw [cache_tracedNode] at hpod; cases hpod
  same name pod state hpod := by rw [cache_tracedNode] at hpod; cases hpod
  entry name state hstate := by rw [store_tracedNode] at hstate; cases hstate
  disjoint name other state state' hstate := by rw [store_tracedNode] at hstate; cases hstate

theorem bringsSame_added :
    BringsSame tracedNode (.watch ⟨.added, webAt 1 ["sleep", "1"]⟩) := by
  rintro name pod ⟨-, rfl, rfl⟩
  refine ⟨rfl, fun state hstate => ?_⟩
  rw [store_tracedNode] at hstate
  cases hstate

theorem bringsSame_modified :
    BringsSame ([KubeletStep.watch ⟨.added, webAt 1 ["sleep", "1"]⟩].foldl
      (kubeletStep mockHost.traced) tracedNode) (.watch ⟨.modified, webAt 2 ["sleep", "1"]⟩) := by
  have hpod : (([KubeletStep.watch ⟨.added, webAt 1 ["sleep", "1"]⟩].foldl
      (kubeletStep mockHost.traced) tracedNode).store "web").map (fun state => state.pod) =
        some (webAt 1 ["sleep", "1"]) := by decide +kernel
  generalize [KubeletStep.watch ⟨.added, webAt 1 ["sleep", "1"]⟩].foldl
    (kubeletStep mockHost.traced) tracedNode = s at hpod ⊢
  rintro name pod ⟨-, rfl, rfl⟩
  refine ⟨rfl, fun state hstate => ?_⟩
  have hname : (webAt 2 ["sleep", "1"]).metadata.name = "web" := rfl
  rw [hname] at hstate
  rw [hstate, Option.map_some, Option.some.injEq] at hpod
  rw [hpod]
  exact ⟨rfl, by decide, by decide⟩

/-- An edit that leaves the commands alone. -/
theorem observed_generation_honest_web :
    HonestReports mockHost ([KubeletStep.watch ⟨.added, webAt 1 ["sleep", "1"]⟩,
      .watch ⟨.modified, webAt 2 ["sleep", "1"]⟩].foldl (kubeletStep mockHost.traced)
        tracedNode) := by
  refine observed_generation_honest mockHost_contract tracedNode_accounted _
    (Runs.forall_concat_prefix_iff.mpr fun i hi => ?_) _ List.prefix_rfl (by decide +kernel)
  match i, hi with
  | 0, _ => exact bringsSame_added
  | 1, _ => exact bringsSame_modified
  | _ + 2, hi =>
    simp only [List.length_cons, List.length_nil] at hi
    omega

/-- The command of "web" is edited, and a liveness pass follows. -/
def editSteps : List KubeletStep :=
  [.watch ⟨.added, webAt 1 ["sleep", "1"]⟩, .watch ⟨.modified, webAt 2 ["sleep", "2"]⟩, .liveness "web"]

/-- Generation 2 is reported, and the container still runs the command of generation 1. -/
theorem not_honest_edited :
    (editSteps.foldl (kubeletStep mockHost.traced) tracedNode).runtime.2.failed = false ∧
      ¬ HonestReports mockHost (editSteps.foldl (kubeletStep mockHost.traced) tracedNode) := by
  refine ⟨by decide +kernel, ?_⟩
  have hcache : (editSteps.foldl (kubeletStep mockHost.traced) tracedNode).cache "web" =
      some (webAt 2 ["sleep", "2"]) := by decide +kernel
  have hid : ((editSteps.foldl (kubeletStep mockHost.traced) tracedNode).store "web").map
      (fun state => state.sandbox.containerIdFor "app") = some "web__app" := by decide +kernel
  have hmade : (left (computePodStatus mockHost.traced (webAt 2 ["sleep", "2"])
      (editSteps.foldl (kubeletStep mockHost.traced) tracedNode))).runtime.2.made "web__app" =
        some ["sleep", "1"] := by decide +kernel
  have hok : ¬ Fails (computePodStatus mockHost.traced (webAt 2 ["sleep", "2"]))
      (editSteps.foldl (kubeletStep mockHost.traced) tracedNode) := by decide +kernel
  generalize editSteps.foldl (kubeletStep mockHost.traced) tracedNode = s at *
  intro h
  obtain ⟨state, hstate, hid⟩ := Option.map_eq_some_iff.mp hid
  cases hstatus : computePodStatus mockHost.traced (webAt 2 ["sleep", "2"]) s with
  | error e s' => exact hok ⟨e, s', hstatus⟩
  | ok status s' =>
    have hcommand := (h "web" _ state status s' hcache hstate hstatus).2.commands
      ⟨"app", "busybox", ["sleep", "2"]⟩ (by decide)
    rw [hstatus, left_ok] at hmade
    rw [hid, hmade] at hcommand
    exact absurd hcommand (by decide)

end Reconciler

end MyK8s.Kubelet
