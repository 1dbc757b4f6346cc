import MyK8s.Kubelet.Reconciler

/-!
# The contract of the runtime

What a `RuntimeClient` promises about its ids: `create_container` fails with `AlreadyExists` exactly
when the id is in use, the id is in use from then on, and until it is deleted. So the containers of a pod
that has been created are as many as it asks for, and nobody else's (`createPod_contract`).
-/

namespace MyK8s.Kubelet

open Fallible

variable {ρ ε α : Type}

/-- The call leaves the ids alone. -/
def Leaves (inUse : ρ → Set String) (x : EStateM ε ρ α) : Prop :=
  Keeps (fun r r' => inUse r' = inUse r) x

/-- The ids of the containers that have survived. -/
def recoveredIds (recovered : List RecoveredContainer) : Set String :=
  {id | ∃ rc ∈ recovered, rc.id = id}

structure RuntimeContract (host : Host ρ) (inUse : ρ → Set String) : Prop where
  create : ∀ id dir r, wp (host.createContainer id dir)
    (fun _ r' => id ∉ inUse r ∧ inUse r' = insert id (inUse r))
    (fun e r' => (e = .alreadyExists id ↔ id ∈ inUse r) ∧ inUse r' = inUse r) r
  delete : ∀ id force r, wp (host.deleteContainer id force)
    (fun _ r' => inUse r' = inUse r \ {id})
    (fun _ r' => inUse r \ {id} ⊆ inUse r' ∧ inUse r' ⊆ inUse r) r
  recover : ∀ r, wp host.recoverAll (fun recovered r' => inUse r' = recoveredIds recovered)
    (fun _ _ => True) r
  start : ∀ id, Leaves inUse (host.startContainer id)
  kill : ∀ id signal, Leaves inUse (host.killContainer id signal)
  state : ∀ id, Leaves inUse (host.containerState id)
  pid : ∀ id, Leaves inUse (host.containerPid id)
  writeBundle : ∀ container dir base from', Leaves inUse (host.writeBundle container dir base from')
  setupPodNetwork : ∀ pid name ip, Leaves inUse (host.setupPodNetwork pid name ip)
  loopbackOnly : ∀ pid, Leaves inUse (host.loopbackOnly pid)
  removeDirAll : ∀ dir r, inUse (host.removeDirAll dir r) = inUse r
  deleteLink : ∀ name r, inUse (host.deleteLink name r) = inUse r
  now : ∀ r, inUse (host.now r).2 = inUse r
  sleep : ∀ micros r, inUse (host.sleep micros r) = inUse r

/-- Apart from ids that are in use, or that are not to be deleted, nothing fails. The pause container
has a pid once it has been started. -/
structure NothingElseFails (host : Host ρ) (inUse : ρ → Set String) : Prop where
  create : ∀ id dir r, id ∉ inUse r → ¬ Fails (host.createContainer id dir) r
  delete : ∀ id force r, id ∈ inUse r → ¬ Fails (host.deleteContainer id force) r
  recover : ∀ r, ¬ Fails host.recoverAll r
  start : ∀ id r, ¬ Fails (host.startContainer id) r
  pid : ∀ id dir r r' r'', host.createContainer id dir r = .ok () r' →
    host.startContainer id r' = .ok () r'' →
      ∃ pid r₃, host.containerPid id r'' = .ok (some pid) r₃
  writeBundle : ∀ container dir base from' r, ¬ Fails (host.writeBundle container dir base from') r
  setupPodNetwork : ∀ pid name ip r, ¬ Fails (host.setupPodNetwork pid name ip) r
  ensureBridge : ∀ r, ¬ Fails host.ensureBridge r

/-- The ids that a pod asks for, the pause container's first. -/
def createIds (pod : Pod) : List String :=
  (pod.metadata.name ++ "__pause") ::
    pod.spec.containers.map fun container => pod.metadata.name ++ "__" ++ container.name

namespace PodSandbox

/-- The ids of the containers that the sandbox knows. -/
def containerIds (sandbox : PodSandbox) : List String :=
  sandbox.pauseId :: sandbox.appContainers.map sandbox.containerIdFor

variable {host : Host ρ} {inUse : ρ → Set String} {sandbox : PodSandbox} {r : ρ} {podIp : Option String}
  {container : Container}

theorem configureNetwork_leaves (C : RuntimeContract host inUse) (pid : ℕ) (podIp : Option String) :
    Leaves inUse (sandbox.configureNetwork host pid podIp) := by
  cases podIp with
  | some ip => exact (C.setupPodNetwork _ _ _).adapt
  | none => exact (C.loopbackOnly pid).adapt

theorem create_contract (C : RuntimeContract host inUse) : wp (sandbox.create host podIp)
    (fun _ r' => sandbox.pauseId ∉ inUse r ∧ inUse r' = insert sandbox.pauseId (inUse r))
    (fun _ r' => inUse r ⊆ inUse r') r := by
  unfold create
  simp only [wp_bind, wp_addContext, wp_withContext]
  refine wp_mono ((C.writeBundle _ _ _ _).wp r) (fun _ r₁ h₁ => ?_) fun _ r₁ h₁ => h₁.ge
  refine wp_mono (C.create ..) (fun _ r₂ h₂ => ?_) fun _ r₂ h₂ => (h₂.2.trans h₁).ge
  rw [h₁] at h₂
  have hgrown : inUse r ⊆ inUse r₂ := h₂.2 ▸ Set.subset_insert ..
  refine wp_mono ((C.start _).wp r₂) (fun _ r₃ h₃ => ?_) fun _ r₃ h₃ => h₃ ▸ hgrown
  refine wp_mono ((C.pid _).wp r₃) (fun pid r₄ h₄ => ?_) fun _ r₄ h₄ => (h₄.trans h₃) ▸ hgrown
  cases pid with
  | none =>
    show inUse r ⊆ inUse r₄
    rw [h₄, h₃]
    exact hgrown
  | some pid =>
    simp only [wp_bind, wp_pure]
    refine wp_mono ((configureNetwork_leaves C pid podIp).wp _) (fun _ r₅ h₅ => ?_) fun _ r₅ h₅ => ?_
    · exact ⟨h₂.1, by rw [h₅, h₄, h₃, h₂.2]⟩
    · rw [h₅, h₄, h₃]
      exact hgrown

theorem create_not_fails (C : RuntimeContract host inUse) (N : NothingElseFails host inUse)
    (ip : String) (hfree : sandbox.pauseId ∉ inUse r) : ¬ Fails (sandbox.create host (some ip)) r := by
  rw [not_fails_iff]
  unfold create
  simp only [wp_bind, wp_addContext, wp_withContext]
  refine wp_mono (wp_of_not_fails (N.writeBundle _ _ _ _ _) ((C.writeBundle _ _ _ _).wp r)) (fun _ r₁ h₁ => ?_)
    fun _ _ h => h
  rw [← h₁] at hfree
  refine wp_mono (wp_of_not_fails (N.create _ _ _ hfree) wp_self) (fun _ r₂ h₂ => ?_) fun _ _ h => h
  refine wp_mono (wp_of_not_fails (N.start _ _) wp_self) (fun _ r₃ h₃ => ?_) fun _ _ h => h
  obtain ⟨pid, r₄, h₄⟩ := N.pid _ _ _ _ _ h₂ h₃
  unfold wp
  rw [h₄]
  show wp (sandbox.configureNetwork host pid (some ip) >>= _) _ _ r₄
  rw [wp_bind]
  show wp (addContext _ _) _ _ _
  rw [wp_addContext]
  exact wp_mono (not_fails_iff.mp (N.setupPodNetwork _ _ _ _)) (fun _ _ _ => trivial) fun _ _ h => h

theorem addContainer_contract (C : RuntimeContract host inUse) : wp (sandbox.addContainer host container)
    (fun _ r' => sandbox.containerIdFor container.name ∉ inUse r ∧
      inUse r' = insert (sandbox.containerIdFor container.name) (inUse r))
    (fun _ r' => inUse r ⊆ inUse r') r := by
  unfold addContainer
  cases sandbox.pausePid with
  | none => exact subset_rfl (a := inUse r)
  | some pausePid =>
    simp only [wp_bind, wp_addContext, wp_withContext, wp_pure]
    refine wp_mono ((C.writeBundle _ _ _ _).wp r) (fun _ r₁ h₁ => ?_) fun _ r₁ h₁ => h₁.ge
    refine wp_mono (C.create ..) (fun _ r₂ h₂ => ?_) fun _ r₂ h₂ => (h₂.2.trans h₁).ge
    rw [h₁] at h₂
    refine wp_mono ((C.start _).wp r₂) (fun _ r₃ h₃ => ?_) fun _ r₃ h₃ => ?_
    · exact ⟨h₂.1, h₃.trans h₂.2⟩
    · rw [h₃, h₂.2]
      exact Set.subset_insert ..

theorem addContainer_not_fails (C : RuntimeContract host inUse) (N : NothingElseFails host inUse)
    (hpause : sandbox.pausePid.isSome) (hfree : sandbox.containerIdFor container.name ∉ inUse r) :
    ¬ Fails (sandbox.addContainer host container) r := by
  rw [not_fails_iff]
  obtain ⟨pausePid, hpausePid⟩ := Option.isSome_iff_exists.mp hpause
  unfold addContainer
  rw [hpausePid]
  simp only [wp_bind, wp_addContext, wp_withContext, wp_pure]
  refine wp_mono (wp_of_not_fails (N.writeBundle _ _ _ _ _) ((C.writeBundle _ _ _ _).wp r)) (fun _ r₁ h₁ => ?_)
    fun _ _ h => h
  rw [← h₁] at hfree
  refine wp_mono (not_fails_iff.mp (N.create _ _ _ hfree)) (fun _ r₂ _ => ?_) fun _ _ h => h
  exact not_fails_iff.mp (N.start _ _)

end PodSandbox

namespace Reconciler

variable {host : Host ρ} {inUse : ρ → Set String} {s : Reconciler ρ} {pod : Pod}

/-- The ids of containers that are added to a sandbox. -/
def idsFor (sandbox : PodSandbox) (containers : List Container) : List String :=
  containers.map fun c => sandbox.containerIdFor c.name

theorem addContainers_contract (C : RuntimeContract host inUse) (ip : String) (sandbox : PodSandbox)
    (containers : List Container) : wp (addContainers host ip sandbox containers)
      (fun sandbox' s' => s'.store = s.store ∧
        sandbox' = { sandbox with
          appContainers := sandbox.appContainers ++ containers.map fun c => c.name } ∧
        (idsFor sandbox containers).Nodup ∧ (∀ id ∈ idsFor sandbox containers, id ∉ inUse s.runtime) ∧
        inUse s'.runtime = inUse s.runtime ∪ {id | id ∈ idsFor sandbox containers})
      (fun _ s' => s'.store = s.store) s := by
  induction containers generalizing sandbox s with
  | nil => exact ⟨rfl, by simp, by simp [idsFor], nofun, by simp [idsFor]⟩
  | cons container rest ih =>
    unfold addContainers
    rw [wp_bind, wp_attempt, wp_onRuntime]
    refine wp_mono (wp_and PodSandbox.addContainer_eq (PodSandbox.addContainer_contract C))
      (fun sandbox' r h => ?_) fun e r _ => ?_
    · obtain ⟨rfl, hfree, hinUse⟩ := h
      refine wp_mono (ih (s := { s with runtime := r }) _) (fun sandbox' s' h => ?_) fun _ s' h => h
      obtain ⟨hstore, rfl, hnodup, hrest, hgrown⟩ := h
      rw [hinUse] at hrest hgrown
      refine ⟨hstore, by simp, List.nodup_cons.mpr ⟨fun hmem => ?_, hnodup⟩, fun id hid => ?_, ?_⟩
      · exact hrest _ hmem (Set.mem_insert ..)
      · obtain rfl | hid := List.mem_cons.mp hid
        · exact hfree
        · exact fun hmem => hrest id hid (Set.mem_insert_of_mem _ hmem)
      · rw [hgrown, Set.insert_union]
        ext id
        simp [idsFor, PodSandbox.containerIdFor, or_left_comm]
    · show wp (attempt (onRuntime (sandbox.destroy host)) >>= _) _ _ _
      rw [wp_bind, wp_attempt, wp_onRuntime]
      exact wp_of_forall (fun _ r' => store_releaseIp ..) fun _ r' => store_releaseIp ..

/-- The sandbox of a pod that has been created. -/
def sandboxOf (s : Reconciler ρ) (pod : Pod) (pausePid : ℕ) (podIp : String) : PodSandbox :=
  { PodSandbox.new pod.metadata.name s.podsDir s.rootfsBase with
    pausePid := some pausePid
    podIp := some podIp
    appContainers := pod.spec.containers.map fun container => container.name }

theorem containerIds_sandboxOf {pausePid : ℕ} {podIp : String} :
    (s.sandboxOf pod pausePid podIp).containerIds = createIds pod := by
  simp [PodSandbox.containerIds, sandboxOf, PodSandbox.new, createIds, PodSandbox.containerIdFor]

/-- **A pod that is created** has its own containers, and no others. -/
theorem createPod_contract (C : RuntimeContract host inUse) : wp (createPod host pod)
    (fun _ s' => (∃ pausePid podIp, s'.store = Function.update s.store pod.metadata.name
        (some ⟨pod, s.sandboxOf pod pausePid podIp⟩)) ∧
      (createIds pod).Nodup ∧ (∀ id ∈ createIds pod, id ∉ inUse s.runtime) ∧
      inUse s'.runtime = inUse s.runtime ∪ {id | id ∈ createIds pod})
    (fun _ s' => s'.store = s.store) s := by
  unfold createPod createSandbox
  simp only [wp_bind, wp_get, wp_onRuntime, wp_addContext, wp_pure]
  refine wp_mono ensurePodIp_frame (fun ip s₁ h₁ => ?_) fun _ s₁ h₁ => by rw [h₁]
  rw [h₁]
  refine wp_mono (wp_and PodSandbox.create_eq (PodSandbox.create_contract C)) (fun made r h => ?_)
    fun _ _ _ => rfl
  obtain ⟨⟨pid, rfl⟩, hpause, hpaused⟩ := h
  refine wp_mono (addContainers_contract C ip _ pod.spec.containers) (fun sandbox s₂ h => ?_)
    fun _ s₂ h => h
  obtain ⟨hstore, rfl, hnodup, hfree, hgrown⟩ := h
  have hids : createIds pod = (pod.metadata.name ++ "__pause") ::
      idsFor { PodSandbox.new pod.metadata.name s.podsDir s.rootfsBase with
        pausePid := some pid, podIp := some ip } pod.spec.containers := rfl
  have hpaused : inUse r = Insert.insert (pod.metadata.name ++ "__pause") (inUse s.runtime) :=
    hpaused
  rw [hpaused] at hfree hgrown
  rw [wp_modify]
  refine ⟨⟨pid, ip, by rw [← hstore]; rfl⟩, ?_, fun id hid => ?_, ?_⟩
  · rw [hids]
    exact List.nodup_cons.mpr ⟨fun hmem => hfree _ hmem (Set.mem_insert ..), hnodup⟩
  · obtain rfl | hid := List.mem_cons.mp (hids ▸ hid)
    · exact hpause
    · exact fun hmem => hfree id hid (Set.mem_insert_of_mem _ hmem)
  · show inUse s₂.runtime = _
    rw [hgrown, Set.insert_union, hids]
    ext id
    simp [or_left_comm]

/-! ### When nothing else fails -/

theorem addContainers_not_fails (C : RuntimeContract host inUse) (N : NothingElseFails host inUse)
    (ip : String) (sandbox : PodSandbox) (containers : List Container) (hpause : sandbox.pausePid.isSome)
    (hnodup : (idsFor sandbox containers).Nodup)
    (hfree : ∀ id ∈ idsFor sandbox containers, id ∉ inUse s.runtime) :
    ¬ Fails (addContainers host ip sandbox containers) s := by
  rw [not_fails_iff]
  induction containers generalizing sandbox s with
  | nil => trivial
  | cons container rest ih =>
    obtain ⟨hnot, hnodup⟩ := List.nodup_cons.mp hnodup
    have hfirst := hfree _ List.mem_cons_self
    unfold addContainers
    rw [wp_bind, wp_attempt, wp_onRuntime]
    refine wp_mono (wp_of_not_fails (PodSandbox.addContainer_not_fails C N hpause hfirst)
      (wp_and PodSandbox.addContainer_eq (PodSandbox.addContainer_contract C))) (fun _ r h => ?_)
      fun _ _ h => h.elim
    obtain ⟨rfl, -, hinUse⟩ := h
    refine ih (s := { s with runtime := r }) _ hpause hnodup fun id hid => ?_
    show id ∉ inUse r
    rw [hinUse, Set.mem_insert_iff, not_or]
    refine ⟨?_, hfree id (List.mem_cons_of_mem _ hid)⟩
    rintro rfl
    exact hnot hid

theorem createPod_not_fails (C : RuntimeContract host inUse) (N : NothingElseFails host inUse)
    (hip : ¬ Fails (ensurePodIp pod) s) (hnodup : (createIds pod).Nodup)
    (hfree : ∀ id ∈ createIds pod, id ∉ inUse s.runtime) : ¬ Fails (createPod host pod) s := by
  rw [not_fails_iff]
  obtain ⟨hnot, hnodup⟩ := List.nodup_cons.mp hnodup
  have hpause := hfree _ List.mem_cons_self
  unfold createPod createSandbox
  simp only [wp_bind, wp_get, wp_onRuntime, wp_addContext, wp_pure]
  refine wp_mono (wp_of_not_fails hip ensurePodIp_frame) (fun ip s₁ h₁ => ?_) fun _ _ h => h
  rw [h₁]
  refine wp_mono (wp_of_not_fails (PodSandbox.create_not_fails C N ip hpause)
    (wp_and PodSandbox.create_eq (PodSandbox.create_contract C))) (fun _ r h => ?_) fun _ _ h => h.elim
  obtain ⟨⟨pid, rfl⟩, -, hpaused⟩ := h
  refine wp_mono (not_fails_iff.mp (addContainers_not_fails C N ip _ _ rfl hnodup fun id hid => ?_))
    (fun _ _ _ => trivial) fun _ _ h => h
  show id ∉ inUse r
  rw [hpaused, Set.mem_insert_iff, not_or]
  refine ⟨?_, hfree id (List.mem_cons_of_mem _ hid)⟩
  rintro rfl
  exact hnot hid

end Reconciler

/-! ## The runtime in memory -/

theorem mem_recoveredIds {recovered : List RecoveredContainer} {id : String} :
    id ∈ recoveredIds recovered ↔ id ∈ recovered.map fun rc => rc.id := List.mem_map.symm

/-- The runtime in memory keeps the contract. -/
theorem mockHost_contract : RuntimeContract mockHost recoveredIds where
  create id dir r := by
    show wp (fun r => if id ∈ r.map (·.id) then _ else _) _ _ r
    unfold wp
    dsimp only
    split
    · rename_i heq
      split at heq
      · cases heq
      · rename_i hid
        cases heq
        refine ⟨mt mem_recoveredIds.mp hid, ?_⟩
        ext other
        simp [mem_recoveredIds, or_comm, eq_comm]
    · rename_i heq
      split at heq
      · rename_i hid
        cases heq
        exact ⟨iff_of_true rfl (mem_recoveredIds.mpr hid), rfl⟩
      · cases heq
  delete id force r := by
    show wp (fun r => if id ∈ r.map (·.id) then _ else _) _ _ r
    unfold wp
    dsimp only
    split
    · rename_i heq
      split at heq
      · cases heq
        ext other
        constructor
        · rintro ⟨rc, hrc, rfl⟩
          obtain ⟨hrc, hne⟩ := List.mem_filter.mp hrc
          exact ⟨⟨rc, hrc, rfl⟩, of_decide_eq_true hne⟩
        · rintro ⟨⟨rc, hrc, rfl⟩, hne⟩
          exact ⟨rc, List.mem_filter.mpr ⟨hrc, decide_eq_true hne⟩, rfl⟩
      · cases heq
    · rename_i heq
      split at heq
      · cases heq
      · cases heq
        exact ⟨Set.sdiff_subset, subset_rfl⟩
  recover _ := rfl
  start _ _ := rfl
  kill _ _ _ := rfl
  state _ _ := rfl
  pid _ _ := rfl
  writeBundle _ _ _ _ _ := rfl
  setupPodNetwork _ _ _ _ := rfl
  loopbackOnly _ _ := rfl
  removeDirAll _ _ := rfl
  deleteLink _ _ := rfl
  now _ := rfl
  sleep _ _ := rfl

/-- And nothing else fails in it. -/
theorem mockHost_nothingElseFails : NothingElseFails mockHost recoveredIds where
  create id dir r hid := by
    rintro ⟨e, r', h⟩
    have hnot := mt mem_recoveredIds.mpr hid
    simp only [mockHost, if_neg hnot] at h
    cases h
  delete id force r hid := by
    rintro ⟨e, r', h⟩
    simp only [mockHost, if_pos (mem_recoveredIds.mp hid)] at h
    cases h
  recover _ := nofun
  start _ _ := nofun
  pid id dir r r' r'' hcreate hstart := by
    cases hstart
    simp only [mockHost] at hcreate
    split at hcreate
    · cases hcreate
    · rename_i hid
      cases hcreate
      refine ⟨1, r ++ [⟨id, .running, some 1⟩], ?_⟩
      simp only [mockHost]
      rw [List.find?_append, List.find?_eq_none.mpr fun rc hrc => ?_]
      · simp
      · simpa using fun heq : rc.id = id => hid (List.mem_map.mpr ⟨rc, hrc, heq⟩)
  writeBundle _ _ _ _ _ := nofun
  setupPodNetwork _ _ _ _ := nofun
  ensureBridge _ := nofun

end MyK8s.Kubelet
