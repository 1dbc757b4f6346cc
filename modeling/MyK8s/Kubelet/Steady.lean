import MyK8s.Kubelet.Addresses
import MyK8s.Lib.Runs

/-!
# Addresses in steady state

Pods come with watch events and with the diff of a resync, and go with either. A liveness pass leaves the
addresses alone, and a pod that goes gives its own back; a pod that comes keeps them if its report can be
trusted (`steady_addresses`).
-/

namespace MyK8s.Kubelet.Reconciler

open Fallible
open ApiServer (WatchEvent)

variable {ρ : Type} {host : Host ρ} {s s' : Reconciler ρ} {pod : Pod} {name : PodName}

/-! ## Liveness -/

/-- Nothing but the runtime and what is known of restarts has changed. -/
structure SameAddresses (s s' : Reconciler ρ) : Prop where
  podIps : s'.podIps = s.podIps
  ipam : s'.ipam = s.ipam
  cache : s'.cache = s.cache

theorem SameAddresses.kept (h : SameAddresses s s') (hs : s.AddressesKept) : s'.AddressesKept := by
  unfold AddressesKept marked at hs ⊢
  rw [h.podIps, h.ipam]
  exact hs

theorem SameAddresses.slice (h : SameAddresses s s') : s'.slice = s.slice := by
  unfold Reconciler.slice
  rw [h.ipam]

instance : Std.Refl (@SameAddresses ρ) where
  refl _ := ⟨rfl, rfl, rfl⟩

instance : IsTrans (Reconciler ρ) SameAddresses where
  trans _ _ _ h h' := ⟨h'.podIps.trans h.podIps, h'.ipam.trans h.ipam, h'.cache.trans h.cache⟩

theorem SameAddresses.refl (s : Reconciler ρ) : SameAddresses s s := Std.Refl.refl s

theorem SameAddresses.trans {s'' : Reconciler ρ} (h : SameAddresses s s') (h' : SameAddresses s' s'') :
    SameAddresses s s'' := IsTrans.trans _ _ _ h h'

theorem SameAddresses.setSandbox {state : PodState} (h : SameAddresses s s') (sandbox : PodSandbox)
    (hstate : s'.store name = some state) (hip : sandbox.podIp = state.sandbox.podIp) :
    SameAddresses s (setSandbox name sandbox s') := by
  refine ⟨Eq.trans ?_ h.podIps, h.ipam, h.cache⟩
  funext n
  unfold Reconciler.podIps Reconciler.setSandbox
  rcases eq_or_ne n name with rfl | hne
  · simp [hstate, hip]
  · simp [Function.update_of_ne hne]

theorem SameAddresses.onRuntime (h : SameAddresses s s') (r : ρ) :
    SameAddresses s { s' with runtime := r } := ⟨h.podIps, h.ipam, h.cache⟩

/-- Whatever is asked of the host. -/
theorem onRuntime_sameAddresses {ε α : Type} (x : EStateM ε ρ α) : Keeps SameAddresses (onRuntime x) :=
  .of_wp fun _ => wp_onRuntime.mpr (wp_of_forall (fun _ _ => ⟨rfl, rfl, rfl⟩) fun _ _ => ⟨rfl, rfl, rfl⟩)

theorem restart_sameAddresses (host : Host ρ) (name : PodName) (container : Container) :
    Keeps SameAddresses (restart host name container) := by
  refine .of_wp fun s => ?_
  unfold restart
  simp only [wp_bind, wp_get]
  cases hstate : s.store name with
  | none => exact .refl s
  | some state =>
    simp only [wp_bind, wp_onRuntime, wp_addContext, wp_modify]
    refine wp_mono PodSandbox.removeOrKeep_eq (fun kept r hkept => ?_) fun _ r _ => .onRuntime (.refl s) r
    obtain ⟨names, rfl, -⟩ := hkept
    have hfirst := ((SameAddresses.refl s).onRuntime r).setSandbox
      { state.sandbox with appContainers := names } hstate rfl
    refine wp_mono PodSandbox.addContainer_eq (fun added r' hadded => ?_) fun _ r' _ => hfirst.onRuntime r'
    subst hadded
    exact (hfirst.onRuntime r').setSandbox _ (store_setSandbox _ hstate) rfl

theorem tracker_sameAddresses (host : Host ρ) (id : String) :
    Keeps SameAddresses (tracker host id) := by
  unfold tracker
  refine .bind (fun s => .refl s) fun s => ?_
  cases s.restartState id with
  | some tracker => exact .pure _
  | none =>
    refine (onRuntime_sameAddresses _).bind fun now => ?_
    exact .bind (.modify fun _ => ⟨rfl, rfl, rfl⟩) fun _ => .pure _

theorem restartIfDue_sameAddresses (host : Host ρ) (name : PodName) (container : Container) :
    Keeps SameAddresses (restartIfDue host name container) := by
  unfold restartIfDue
  refine (tracker_sameAddresses host _).bind fun tracker => ?_
  refine (onRuntime_sameAddresses _).bind fun now => ?_
  split
  · exact .pure ()
  · exact .bind (.modify fun _ => ⟨rfl, rfl, rfl⟩) fun _ => restart_sameAddresses host name container

theorem reconcileContainer_sameAddresses (host : Host ρ) (name : PodName) (container : Container) :
    Keeps SameAddresses (reconcileContainer host name container) := by
  unfold reconcileContainer
  refine (onRuntime_sameAddresses _).bind fun state => ?_
  cases state with
  | stopped | notFound => exact restartIfDue_sameAddresses host name container
  | running => exact .modify fun _ => ⟨rfl, rfl, rfl⟩
  | created => exact .pure ()

/-- A liveness pass leaves the addresses alone. -/
theorem reconcileLiveness_sameAddresses (host : Host ρ) (name : PodName) (pod : Pod) :
    Keeps SameAddresses (reconcileLiveness host name pod) := by
  unfold reconcileLiveness
  refine .bind (fun s => .refl s) fun s => ?_
  cases s.store name with
  | none => exact .pure ()
  | some _ => exact .forM (fun container => reconcileContainer_sameAddresses host name container) _

theorem reconcileAll_sameAddresses (host : Host ρ) (desired : List Pod) (s : Reconciler ρ) :
    SameAddresses s (reconcileAll host desired s) := by
  induction desired generalizing s with
  | nil => exact .refl s
  | cons pod rest ih => exact SameAddresses.trans (reconcileLiveness_sameAddresses host _ pod s) (ih _)

/-! ## Pods that go -/

theorem podIps_erase (s : Reconciler ρ) (name : PodName) :
    (fun n => (Function.update s.store name none n).bind fun state => state.sandbox.podIp) =
      Function.update s.podIps name none := by
  funext n
  rcases eq_or_ne n name with rfl | hne
  · simp
  · simp [Function.update_of_ne hne, Reconciler.podIps]

/-- What `remove_pod` leaves: a pod less, and its address no longer marked. -/
theorem AddressesKept.removePod (h : s.AddressesKept) (host : Host ρ) (name : PodName) :
    (left (removePod host name s)).AddressesKept ∧
      (left (removePod host name s)).slice = s.slice := by
  have hremoved : wp (Reconciler.removePod host name) (fun _ s' => s'.AddressesKept ∧ s'.slice = s.slice)
      (fun _ s' => s'.AddressesKept ∧ s'.slice = s.slice) s := by
    unfold Reconciler.removePod
    simp only [wp_bind, wp_get]
    cases hstate : s.store name with
    | none => exact ⟨h, rfl⟩
    | some state =>
      have hdropped : Addressed (Function.update s.podIps name none) s.marked := h.drop name
      rw [← podIps_erase] at hdropped
      simp only [wp_bind, wp_set, wp_onRuntime]
      refine wp_of_forall (fun _ r => ?_) fun _ r => ⟨hdropped, rfl⟩
      cases hip : state.sandbox.podIp with
      | none => exact ⟨hdropped, rfl⟩
      | some ip =>
        have hips : s.podIps name = some ip := by rw [podIps, hstate, Option.bind_some, hip]
        obtain ⟨addr, hparse⟩ := Option.isSome_iff_exists.mp (h.readable name ip hips)
        refine ⟨?_, slice_releaseIp⟩
        show Addressed _ _
        rw [marked_releaseIp hparse, podIps_releaseIp]
        refine hdropped.release ?_
        rw [podIps_erase, addrsOf_update]
        exact h.leases.free_drop (by rw [addrsOf, hips, Option.bind_some, hparse])
  exact wp_left hremoved

/-! ## Runs -/

inductive SteadyStep
  | watch (event : WatchEvent Pod)
  | diff (desired : PodMap) (names : List PodName)
  | remove (name : PodName)

variable (host) in
def steadyStep (s : Reconciler ρ) : SteadyStep → Reconciler ρ
  | .watch event => applyWatchEvent host event s
  | .diff desired names => applyDiff host desired names s
  | .remove name => left (Reconciler.removePod host name s)

variable (host) in
/-- Each pod that the step creates reports a free address, if it reports one. -/
def CreatesFree (s : Reconciler ρ) : SteadyStep → Prop
  | .watch event => event.eventType ≠ .deleted → s.cache event.object.metadata.name = none →
      s.ReportFree event.object
  | .diff desired _ => ∀ past pod, past ++ [pod] <+: desired.pods →
      (createMissing host past s).store pod.metadata.name = none →
        (createMissing host past s).ReportFree pod
  | .remove _ => True

theorem slice_createPod : (left (Reconciler.createPod host pod s)).slice = s.slice := by
  have hslice : wp (Reconciler.createPod host pod) (fun _ s' => s'.slice = s.slice)
      (fun _ s' => s'.slice = s.slice) s :=
    wp_mono createPod_spec (fun _ _ h => h.2.1) fun _ _ h => h.1.slice
  exact wp_left hslice

theorem AddressesKept.createMissing {desired : List Pod} (h : s.AddressesKept)
    (hfree : ∀ past pod, past ++ [pod] <+: desired →
      (createMissing host past s).store pod.metadata.name = none →
        (createMissing host past s).ReportFree pod) :
    (createMissing host desired s).AddressesKept ∧ (createMissing host desired s).slice = s.slice := by
  refine Runs.prefix_induction (C := fun past => (Reconciler.createMissing host past s).AddressesKept ∧
    (Reconciler.createMissing host past s).slice = s.slice) ⟨h, rfl⟩ (fun past pod hp ih => ?_) desired
    List.prefix_rfl
  have hconcat : Reconciler.createMissing host (past ++ [pod]) s =
      if ((Reconciler.createMissing host past s).store pod.metadata.name).isNone
      then left (Reconciler.createPod host pod (Reconciler.createMissing host past s))
      else Reconciler.createMissing host past s := List.foldl_concat ..
  rw [hconcat]
  split
  · rename_i hnone
    exact ⟨ih.1.createPod host pod (.inl (hfree past pod hp (Option.isNone_iff_eq_none.mp hnone))),
      slice_createPod.trans ih.2⟩
  · exact ih

theorem AddressesKept.removeAll (h : s.AddressesKept) (host : Host ρ) (names : List PodName) :
    (names.foldl (fun s name => left (Reconciler.removePod host name s)) s).AddressesKept ∧
      (names.foldl (fun s name => left (Reconciler.removePod host name s)) s).slice = s.slice := by
  induction names generalizing s with
  | nil => exact ⟨h, rfl⟩
  | cons name names ih =>
    obtain ⟨hkept, hslice⟩ := h.removePod host name
    exact ⟨(ih hkept).1, (ih hkept).2.trans hslice⟩

theorem AddressesKept.step {step : SteadyStep} (h : s.AddressesKept) (hfree : CreatesFree host s step) :
    (steadyStep host s step).AddressesKept ∧ (steadyStep host s step).slice = s.slice := by
  cases step with
  | watch event =>
    obtain ⟨type, pod⟩ := event
    have happly : type ≠ .deleted → (applyPod host pod s).AddressesKept ∧
        (applyPod host pod s).slice = s.slice := by
      intro htype
      unfold applyPod
      dsimp only
      split
      · rename_i hnone
        have hcreated := AddressesKept.createPod host pod
          (s := { s with cache := Function.update s.cache pod.metadata.name (some pod) }) h
          (.inl (hfree htype (Option.isNone_iff_eq_none.mp hnone)))
        exact ⟨hcreated, slice_createPod⟩
      · exact ⟨h, rfl⟩
    cases type with
    | added | modified => exact happly nofun
    | deleted =>
      exact AddressesKept.removePod
        (s := { s with cache := Function.update s.cache pod.metadata.name none }) h host _
  | diff desired names =>
    obtain ⟨hcreated, hslice⟩ := h.createMissing hfree
    obtain ⟨hremoved, hslice'⟩ := hcreated.removeAll host _
    have hsame := reconcileAll_sameAddresses host desired.pods
      (removeGone host desired names (Reconciler.createMissing host desired.pods s))
    exact ⟨hsame.kept hremoved, hsame.slice.trans (hslice'.trans hslice)⟩
  | remove name => exact h.removePod host name

/-- **Steady state and addresses.** Along any run of watch events, diffs and removals, whatever the
runtime answers, the addresses are kept and stay in the slice of the node, as long as each pod that is
created reports no address, or one of the slice that no pod in the store has. -/
theorem steady_addresses (host : Host ρ) (s : Reconciler ρ) (steps : List SteadyStep)
    (h : s.AddressesKept) (hfree : ∀ past step, past ++ [step] <+: steps →
      CreatesFree host (past.foldl (steadyStep host) s) step) :
    ∀ past, past <+: steps → (past.foldl (steadyStep host) s).AddressesKept ∧
      ∀ name addr, addrsOf (past.foldl (steadyStep host) s).podIps name = some addr → s.InRange addr := by
  have hrun : ∀ past, past <+: steps → (past.foldl (steadyStep host) s).AddressesKept ∧
      (past.foldl (steadyStep host) s).slice = s.slice := by
    refine Runs.prefix_induction ⟨h, rfl⟩ fun past step hp ih => ?_
    rw [List.foldl_concat]
    obtain ⟨hkept, hslice⟩ := ih.1.step (hfree past step hp)
    exact ⟨hkept, hslice.trans ih.2⟩
  intro past hp
  obtain ⟨hkept, hslice⟩ := hrun past hp
  refine ⟨hkept, fun name addr hheld => ?_⟩
  obtain ⟨hnet, hhost⟩ := hkept.inRange hheld
  exact ⟨hslice ▸ hnet, hhost⟩

/-- Pod `db` gets an address, `web` reports another one that is free, and `again` gets that of `db`, which has
been removed. -/
def givenAgain : List SteadyStep :=
  [.watch ⟨.added, podNamed "db" none⟩, .watch ⟨.added, podNamed "web" (some "10.244.1.7")⟩, .remove "db",
    .watch ⟨.added, podNamed "again" none⟩]

theorem createsFree_of_unreported (s : Reconciler (List RecoveredContainer)) (name : PodName) :
    CreatesFree mockHost s (.watch ⟨.added, podNamed name none⟩) := by
  intro _ _ addr haddr
  cases haddr

theorem createsFree_web {s : Reconciler (List RecoveredContainer)} (h : s.AddressesKept)
    (hslice : s.slice = some (10, 244, 1))
    (hnot : s.ipam.all (fun ipam => decide ((⟨(10, 244, 1), 7⟩ : Ipv4Addr) ∉ ipam.marked)) = true) :
    CreatesFree mockHost s (.watch ⟨.added, podNamed "web" (some "10.244.1.7")⟩) := by
  intro _ _ addr haddr
  have hweb : reportedAddr (podNamed "web" (some "10.244.1.7")) = some ⟨(10, 244, 1), 7⟩ := by
    decide +kernel
  obtain rfl := Option.some.inj (hweb.symm.trans haddr)
  refine ⟨⟨hslice, by decide⟩, h.free ?_⟩
  rintro ⟨ipam, hipam, hmem⟩
  rw [hipam] at hnot
  exact of_decide_eq_true hnot hmem

theorem steady_addresses_again : (givenAgain.foldl (steadyStep mockHost) bareNode).AddressesKept ∧
    ["db", "web", "again"].map (addrsOf (givenAgain.foldl (steadyStep mockHost) bareNode).podIps) =
      [none, some ⟨(10, 244, 1), 7⟩, some ⟨(10, 244, 1), 2⟩] ∧
    ∀ name addr, addrsOf (givenAgain.foldl (steadyStep mockHost) bareNode).podIps name = some addr →
      bareNode.InRange addr := by
  have hfirst : ([SteadyStep.watch ⟨.added, podNamed "db" none⟩].foldl (steadyStep mockHost)
      bareNode).AddressesKept := by
    rw [List.foldl_cons, List.foldl_nil]
    exact (bareNode_kept.step (createsFree_of_unreported bareNode "db")).1
  obtain ⟨hkept, hrange⟩ := steady_addresses mockHost bareNode givenAgain bareNode_kept
    (Runs.forall_concat_prefix_iff.mpr fun i hi => by
      have hlt : i < 4 := hi
      interval_cases i
      · exact createsFree_of_unreported _ "db"
      · exact createsFree_web hfirst (by decide +kernel) (by decide +kernel)
      · exact trivial
      · exact createsFree_of_unreported _ "again") _ List.prefix_rfl
  exact ⟨hkept, by decide +kernel, hrange⟩

/-- A pod whose status still shows an address that has been given to "db" since. -/
theorem steady_gives_twice : ¬ ([SteadyStep.watch ⟨.added, podNamed "db" none⟩,
    .watch ⟨.added, podNamed "web" (some "10.244.1.2")⟩].foldl
      (steadyStep mockHost) bareNode).AddressesKept := by
  intro h
  have hdb : addrsOf ([SteadyStep.watch ⟨.added, podNamed "db" none⟩,
      .watch ⟨.added, podNamed "web" (some "10.244.1.2")⟩].foldl
        (steadyStep mockHost) bareNode).podIps "db" = some ⟨(10, 244, 1), 2⟩ := by decide +kernel
  have hweb : addrsOf ([SteadyStep.watch ⟨.added, podNamed "db" none⟩,
      .watch ⟨.added, podNamed "web" (some "10.244.1.2")⟩].foldl
        (steadyStep mockHost) bareNode).podIps "web" = some ⟨(10, 244, 1), 2⟩ := by decide +kernel
  exact absurd (h.leases.unique hdb hweb) (by decide)

end MyK8s.Kubelet.Reconciler
