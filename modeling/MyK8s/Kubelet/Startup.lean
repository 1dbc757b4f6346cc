import MyK8s.Kubelet.Reconciler

/-!
# Startup of the kubelet

`src/reconciler.rs`, `Reconciler::startup`: containers that have survived a restart are grouped by the
pod that their id names. A listed pod whose pause container still has a pid is taken over as it is, any
other is created anew, and the containers of pods that are not listed are deleted.
-/

namespace MyK8s.Kubelet

open Fallible

/-! ## Recovered containers -/

/-- The pod that the id of a container names, and the rest of the id. -/
def RecoveredContainer.split (rc : RecoveredContainer) : Option (PodName × String) :=
  Text.splitOnce "__" rc.id

def RecoveredContainer.podName (rc : RecoveredContainer) : Option PodName := rc.split.map Prod.fst

theorem RecoveredContainer.id_eq {rc : RecoveredContainer} {name : PodName} {rest : String}
    (h : rc.split = some (name, rest)) : rc.id = name ++ "__" ++ rest :=
  Text.eq_of_splitOnce h

/-- `by_pod`. A pod without recovered containers has no entry. -/
abbrev ByPod := PodName → List RecoveredContainer

def groupByPod (recovered : List RecoveredContainer) : ByPod :=
  fun name => recovered.filter fun rc => rc.podName = some name

/-- The keys of `by_pod`. -/
def podNames (recovered : List RecoveredContainer) : List PodName :=
  (recovered.filterMap RecoveredContainer.podName).dedup

def pauseIdOf (name : PodName) : String := name ++ "__pause"

/-- The pid of the pause container of a pod, if both have survived. -/
def recoveredPause (byPod : ByPod) (name : PodName) : Option ℕ :=
  ((byPod name).find? fun rc => rc.id = pauseIdOf name).bind (·.pid)

/-- The other containers of the pod. -/
def recoveredApps (byPod : ByPod) (name : PodName) : List String :=
  ((byPod name).filter fun rc => rc.id ≠ pauseIdOf name).filterMap fun rc => rc.split.map Prod.snd

namespace Reconciler

variable {ρ : Type} (host : Host ρ)

/-- The address that the status of the pod reports is reserved, if it can be read. A refusal is only
logged. -/
def reserveReported (pod : Pod) (s : Reconciler ρ) : Reconciler ρ :=
  match s.ipam, reportedAddr pod with
  | some ipam, some addr => { s with ipam := some (ipam.reserve addr).2 }
  | _, _ => s

/-- A pod whose pause container has survived is taken over, and any other created. -/
def recoverSandbox (byPod : ByPod) (pod : Pod) (s : Reconciler ρ) : Reconciler ρ :=
  let name := pod.metadata.name
  match recoveredPause byPod name with
  | some pausePid =>
    insert ⟨pod, PodSandbox.fromRecovered name pausePid (recoveredApps byPod name) s.podsDir
      s.rootfsBase (reportedIp pod)⟩ s
  | none => left (createPod host pod s)

/-- A turn of the loop over the listed pods. -/
def recoverPod (st : Reconciler ρ × ByPod) (pod : Pod) : Reconciler ρ × ByPod :=
  let name := pod.metadata.name
  let s := recoverSandbox host st.2 pod (reserveReported pod st.1)
  ({ s with cache := Function.update s.cache name (some pod) }, Function.update st.2 name [])

/-- The loop over the listed pods. -/
def recoverPods (recovered : List RecoveredContainer) (pods : List Pod) (s : Reconciler ρ) :
    Reconciler ρ × ByPod :=
  pods.foldl (recoverPod host) (s, groupByPod recovered)

theorem recoverPods_concat (recovered : List RecoveredContainer) (past : List Pod) (pod : Pod)
    (s : Reconciler ρ) : recoverPods host recovered (past ++ [pod]) s =
      recoverPod host (recoverPods host recovered past s) pod := List.foldl_concat ..

def deleteOrphan (s : Reconciler ρ) (rc : RecoveredContainer) : Reconciler ρ :=
  left (onRuntime (host.deleteContainer rc.id true) s)

/-- The loop over the groups that are left. -/
def deleteOrphans (names : List PodName) (st : Reconciler ρ × ByPod) : Reconciler ρ :=
  names.foldl (fun s name => (st.2 name).foldl (deleteOrphan host) s) st.1

/-- What comes before the loops: the bridge, the allocator and the recovered containers. -/
def prepare (cidr : String) : Action (Reconciler ρ) (List RecoveredContainer) := do
  onRuntime (addContext "ensure host bridge" host.ensureBridge)
  match IpAllocator.fromCidr cidr with
  | .error e => throw (.context "build IP allocator" (.message e))
  | .ok ipam =>
    modify fun s => { s with ipam := some ipam }
    onRuntime (withContext "recover containers from runtime state dir" host.recoverAll)

/-- `startup`, with the slice and the pods that the API server answers. -/
def startup (cidr : String) (initialPods : List Pod) : Action (Reconciler ρ) Unit := do
  let recovered ← prepare host cidr
  modify fun s => deleteOrphans host (podNames recovered) (recoverPods host recovered initialPods s)

end Reconciler

end MyK8s.Kubelet
