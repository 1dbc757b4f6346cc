import MyK8s.Lib.Fallible
import MyK8s.Resource.Kinds

/-!
# The sandbox of a pod

`src/runtime.rs` and `src/runtime/sandbox.rs`: what the kubelet asks of its host, and how the
containers of a pod are brought up and taken down. The host is any `Host`: it answers each call as it
likes, from a state of its own.
-/

namespace MyK8s.Kubelet

open Fallible

/-! ## Errors -/

/-- A path, by its components. -/
abbrev Path := List String

inductive RuntimeError
  | notFound (id : String)
  | alreadyExists (id : String)
  | invalidBundle (path : Path) (reason : String)
  | other (text : String)
  deriving DecidableEq, Repr

/-- `anyhow::Error`: the cause, with the contexts that it has been given. -/
inductive Failure
  | message (text : String)
  | runtime (cause : RuntimeError)
  | context (text : String) (cause : Failure)
  deriving DecidableEq, Repr

/-- What works on a state and may fail. -/
abbrev Action (σ α : Type) := EStateM Failure σ α

variable {σ ρ α : Type}

/-- `context`, of an error of the runtime. -/
def withContext (text : String) (x : EStateM RuntimeError σ α) : Action σ α :=
  x.adaptExcept fun e => .context text (.runtime e)

/-- `context`. -/
def addContext (text : String) (x : Action σ α) : Action σ α := x.adaptExcept (.context text)

@[simp] theorem wp_withContext {text : String} {x : EStateM RuntimeError σ α} {Q : α → σ → Prop}
    {E : Failure → σ → Prop} {s : σ} :
    wp (withContext text x) Q E s ↔ wp x Q (fun e s' => E (.context text (.runtime e)) s') s := wp_adapt

@[simp] theorem wp_addContext {text : String} {x : Action σ α} {Q : α → σ → Prop}
    {E : Failure → σ → Prop} {s : σ} :
    wp (addContext text x) Q E s ↔ wp x Q (fun e s' => E (.context text e) s') s := wp_adapt

/-! ## The host -/

inductive ContainerState
  | created
  | running
  | stopped
  | notFound
  deriving DecidableEq, Repr

structure RecoveredContainer where
  id : String
  state : ContainerState
  pid : Option ℕ
  deriving DecidableEq, Repr

/-- What the kubelet asks for: the `RuntimeClient`, the bundles and their directories, the network
and the clock. -/
structure Host (ρ : Type) where
  createContainer (id : String) (bundle : Path) : EStateM RuntimeError ρ Unit
  startContainer (id : String) : EStateM RuntimeError ρ Unit
  killContainer (id : String) (signal : ℕ) : EStateM RuntimeError ρ Unit
  deleteContainer (id : String) (force : Bool) : EStateM RuntimeError ρ Unit
  containerState (id : String) : EStateM RuntimeError ρ ContainerState
  containerPid (id : String) : EStateM RuntimeError ρ (Option ℕ)
  recoverAll : EStateM RuntimeError ρ (List RecoveredContainer)
  writeBundle (container : Container) (dir rootfsBase : Path) (shareFrom : Option ℕ) : Action ρ Unit
  removeDirAll (dir : Path) : ρ → ρ
  ensureBridge : Action ρ Unit
  setupPodNetwork (pausePid : ℕ) (podName podIp : String) : Action ρ Unit
  loopbackOnly (pausePid : ℕ) : Action ρ Unit
  deleteLink (podName : String) : ρ → ρ
  now : ρ → ℕ × ρ
  sleep (micros : ℕ) : ρ → ρ

/-! ## The sandbox -/

def sigterm : ℕ := 15

/-- Times are in microseconds. -/
def terminationGrace : ℕ := 5000000

def pollingInterval : ℕ := 100000

structure PodSandbox where
  podName : String
  pauseId : String
  pausePid : Option ℕ
  appContainers : List String
  podsDir : Path
  rootfsBase : Path
  podIp : Option String
  deriving DecidableEq

def pauseContainerSpec : Container where
  name := "__pause"
  image := "busybox"
  command := ["/bin/busybox", "sleep", "infinity"]

namespace PodSandbox

def new (podName : String) (podsDir rootfsBase : Path) : PodSandbox where
  podName := podName
  pauseId := podName ++ "__pause"
  pausePid := none
  appContainers := []
  podsDir := podsDir
  rootfsBase := rootfsBase
  podIp := none

def fromRecovered (podName : String) (pausePid : ℕ) (appContainerNames : List String)
    (podsDir rootfsBase : Path) (podIp : Option String) : PodSandbox where
  podName := podName
  pauseId := podName ++ "__pause"
  pausePid := some pausePid
  appContainers := appContainerNames
  podsDir := podsDir
  rootfsBase := rootfsBase
  podIp := podIp

variable (host : Host ρ) (sandbox : PodSandbox)

def containerIdFor (containerName : String) : String := sandbox.podName ++ "__" ++ containerName

def bundleDirFor (containerName : String) : Path :=
  sandbox.podsDir ++ [sandbox.podName, containerName]

def configureNetwork (pid : ℕ) : Option String → Action ρ Unit
  | some ip => addContext "configure pod network" (host.setupPodNetwork pid sandbox.podName ip)
  | none => addContext "configure loopback" (host.loopbackOnly pid)

/-- `create`: the pause container first, then the network. -/
def create (podIp : Option String) : Action ρ PodSandbox := do
  let dir := sandbox.bundleDirFor pauseContainerSpec.name
  addContext "write pause bundle" (host.writeBundle pauseContainerSpec dir sandbox.rootfsBase none)
  withContext "create pause container" (host.createContainer sandbox.pauseId dir)
  withContext "start pause container" (host.startContainer sandbox.pauseId)
  match ← withContext "get pause container pid" (host.containerPid sandbox.pauseId) with
  | none => throw (.message "pause container pid not found")
  | some pid =>
    sandbox.configureNetwork host pid podIp
    pure { sandbox with pausePid := some pid, podIp := podIp }

/-- `add_container`. -/
def addContainer (container : Container) : Action ρ PodSandbox := do
  match sandbox.pausePid with
  | none =>
    let podName := sandbox.podName
    throw (.message s!"sandbox {podName} not created (pause has no pid)")
  | some pausePid =>
    let id := sandbox.containerIdFor container.name
    let dir := sandbox.bundleDirFor container.name
    addContext "write container bundle"
      (host.writeBundle container dir sandbox.rootfsBase (some pausePid))
    withContext "create container" (host.createContainer id dir)
    withContext "start container" (host.startContainer id)
    pure { sandbox with appContainers := sandbox.appContainers ++ [container.name] }

/-- The loop of `remove_container` that waits for the container to end. Each of its turns sleeps, so
that no more than `turns` of them begin before the deadline. -/
def awaitEnd (id : String) (deadline : ℕ) : ℕ → Action ρ Unit
  | 0 => pure ()
  | turns + 1 => do
    let now ← modifyGet host.now
    if now < deadline then
      let state ← withContext "polling container state during graceful shutdown"
        (host.containerState id)
      if state = .stopped ∨ state = .notFound then pure ()
      else
        modify (host.sleep pollingInterval)
        awaitEnd id deadline turns
    else pure ()

/-- The container is told to end, and is given time for it. -/
def terminate (id : String) : Action ρ Unit := do
  match ← attempt (host.killContainer id sigterm) with
  | .ok () =>
    let now ← modifyGet host.now
    awaitEnd host id (now + terminationGrace) (terminationGrace / pollingInterval)
  | .error _ => pure ()

/-- A container that is not there has been deleted. -/
def deleteIfThere (name id : String) : Action ρ Unit := do
  match ← attempt (host.deleteContainer id true) with
  | .ok () => pure ()
  | .error (.notFound _) => pure ()
  | .error e => throw (.context s!"delete container {name}" (.runtime e))

/-- `remove_container`. -/
def removeContainer (name : String) : Action ρ PodSandbox := do
  let id := sandbox.containerIdFor name
  terminate host id
  deleteIfThere host name id
  modify (host.removeDirAll (sandbox.bundleDirFor name))
  pure { sandbox with appContainers := sandbox.appContainers.filter (· ≠ name) }

/-- A container that cannot be removed is left behind. -/
def removeOrKeep (name : String) : Action ρ PodSandbox := do
  match ← attempt (sandbox.removeContainer host name) with
  | .ok sandbox => pure sandbox
  | .error _ => pure sandbox

/-- `destroy`: the app containers, then the pause container. It never fails. -/
def destroy : Action ρ PodSandbox := do
  let sandbox ← sandbox.appContainers.foldlM (fun sandbox name => sandbox.removeOrKeep host name) sandbox
  let _ ← attempt (host.deleteContainer sandbox.pauseId true)
  modify (host.removeDirAll (sandbox.podsDir ++ [sandbox.podName]))
  modify (host.deleteLink sandbox.podName)
  pure { sandbox with pausePid := none, podIp := none }

/-! ### What becomes of the sandbox -/

variable {host sandbox} {r : ρ}

theorem create_eq {podIp : Option String} :
    wp (sandbox.create host podIp)
      (fun sandbox' _ => ∃ pid, sandbox' = { sandbox with pausePid := some pid, podIp := podIp })
      (fun _ _ => True) r := by
  unfold create
  simp only [wp_bind, wp_addContext, wp_withContext]
  refine wp_of_forall (fun _ _ => ?_) fun _ _ => trivial
  refine wp_of_forall (fun _ _ => ?_) fun _ _ => trivial
  refine wp_of_forall (fun _ _ => ?_) fun _ _ => trivial
  refine wp_of_forall (fun pid _ => ?_) fun _ _ => trivial
  cases pid with
  | none => trivial
  | some pid =>
    simp only [wp_bind, wp_pure]
    exact wp_of_forall (fun _ _ => ⟨pid, rfl⟩) fun _ _ => trivial

theorem addContainer_eq {container : Container} :
    wp (sandbox.addContainer host container)
      (fun sandbox' _ => sandbox' =
        { sandbox with appContainers := sandbox.appContainers ++ [container.name] })
      (fun _ _ => True) r := by
  unfold addContainer
  cases sandbox.pausePid with
  | none => trivial
  | some pausePid =>
    simp only [wp_bind, wp_addContext, wp_withContext, wp_pure]
    refine wp_of_forall (fun _ _ => ?_) fun _ _ => trivial
    refine wp_of_forall (fun _ _ => ?_) fun _ _ => trivial
    exact wp_of_forall (fun _ _ => trivial) fun _ _ => trivial

theorem removeContainer_eq {name : String} :
    wp (sandbox.removeContainer host name)
      (fun sandbox' _ => sandbox' =
        { sandbox with appContainers := sandbox.appContainers.filter (· ≠ name) })
      (fun _ _ => True) r := by
  unfold removeContainer
  simp only [wp_bind, wp_modify, wp_pure]
  refine wp_of_forall (fun _ _ => ?_) fun _ _ => trivial
  exact wp_of_forall (fun _ _ => trivial) fun _ _ => trivial

theorem removeOrKeep_eq {name : String} :
    wp (sandbox.removeOrKeep host name)
      (fun sandbox' _ => ∃ names, sandbox' = { sandbox with appContainers := names } ∧
        ∀ other, other ≠ name → (other ∈ names ↔ other ∈ sandbox.appContainers))
      (fun _ _ => False) r := by
  unfold removeOrKeep
  simp only [wp_bind, wp_attempt]
  refine wp_mono removeContainer_eq (fun _ _ h => ⟨_, h, fun other hne => ?_⟩) fun _ _ _ =>
    ⟨_, rfl, fun _ _ => Iff.rfl⟩
  rw [List.mem_filter]
  exact and_iff_left (decide_eq_true hne)

end PodSandbox

/-! ## A runtime in memory -/

/-- A runtime that keeps its containers in a list. Each of them runs once it has been created. -/
def mockHost : Host (List RecoveredContainer) where
  createContainer id _ := fun r =>
    if id ∈ r.map (·.id) then .error (.alreadyExists id) r else .ok () (r ++ [⟨id, .running, some 1⟩])
  startContainer _ := pure ()
  killContainer _ _ := pure ()
  deleteContainer id _ := fun r =>
    if id ∈ r.map (·.id) then .ok () (r.filter (·.id ≠ id)) else .error (.notFound id) r
  containerState id := fun r => .ok (((r.find? (·.id = id)).map (·.state)).getD .notFound) r
  containerPid id := fun r => .ok ((r.find? (·.id = id)).bind (·.pid)) r
  recoverAll := fun r => .ok r r
  writeBundle _ _ _ _ := pure ()
  removeDirAll _ := id
  ensureBridge := pure ()
  setupPodNetwork _ _ _ := pure ()
  loopbackOnly _ := pure ()
  deleteLink _ := id
  now r := (0, r)
  sleep _ := id

end MyK8s.Kubelet
