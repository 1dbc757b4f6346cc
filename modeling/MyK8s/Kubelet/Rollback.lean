import MyK8s.Kubelet.Addresses
import MyK8s.Kubelet.Traced

/-!
# Pods that cannot be created

When a container cannot be added, `create_pod` destroys the sandbox and gives the address back. That is
enough while the sandbox knows of all containers there are. It does not know of one that has been
created and cannot be started, and nothing is undone when the pause container itself does not come up
(`createPod_rolledBack_iff`).
-/

namespace MyK8s.Kubelet

open Fallible

variable {ρ ε α : Type}

/-! ## Taking a sandbox down -/

/-- What is there can be deleted, and can be asked for its state. -/
structure Deletable (host : Host ρ) (inUse : ρ → Set String) : Prop where
  delete : ∀ id r, id ∈ inUse r → ¬ Fails (host.deleteContainer id true) r
  state : ∀ id r, ¬ Fails (host.containerState id) r

/-- If the id is in use it stays so. -/
def StillUsed (inUse : ρ → Set String) (id : String) (r r' : ρ) : Prop := id ∈ inUse r → id ∈ inUse r'

instance (inUse : ρ → Set String) (id : String) : Std.Refl (StillUsed inUse id) := ⟨fun _ h => h⟩

instance (inUse : ρ → Set String) (id : String) : IsTrans ρ (StillUsed inUse id) :=
  ⟨fun _ _ _ h h' hid => h' (h hid)⟩

section Removals

variable {host : Host ρ} {inUse : ρ → Set String} {x : EStateM ε ρ α}

theorem Leaves.stillUsed (h : Leaves inUse x) (id : String) : Keeps (StillUsed inUse id) x :=
  h.mono fun _ _ heq hid => heq.symm ▸ hid

/-- Containers with other ids are not taken down. -/
theorem RuntimeContract.removal_others (C : RuntimeContract host inUse) (id : String) :
    Removal host (StillUsed inUse id) {other | other ≠ id} where
  kill other signal := (C.kill other signal).stillUsed id
  state other := (C.state other).stillUsed id
  delete other hother force := by
    refine .of_wp fun r => wp_mono (C.delete other force r) (fun _ r' h hid => ?_) fun _ r' h hid => ?_
    · rw [h]
      exact ⟨hid, fun heq => hother heq.symm⟩
    · exact h.1 ⟨hid, fun heq => hother heq.symm⟩
  now r hid := (C.now r).symm ▸ hid
  sleep micros r hid := (C.sleep micros r).symm ▸ hid
  removeDirAll dir r hid := (C.removeDirAll dir r).symm ▸ hid
  deleteLink name r hid := (C.deleteLink name r).symm ▸ hid

end Removals

namespace PodSandbox

variable {host : Host ρ} {inUse : ρ → Set String} {sandbox : PodSandbox} {r : ρ}

theorem awaitEnd_leaves (C : RuntimeContract host inUse) (D : Deletable host inUse) (id : String)
    (deadline turns : ℕ) : wp (awaitEnd host id deadline turns) (fun _ r' => inUse r' = inUse r)
      (fun _ _ => False) r := by
  induction turns generalizing r with
  | zero => rfl
  | succ turns ih =>
    unfold awaitEnd
    rw [wp_bind, wp_modifyGet]
    split
    · rw [wp_bind, wp_withContext]
      refine wp_mono (wp_of_not_fails (D.state id _) ((C.state id).wp _)) (fun state r₁ h₁ => ?_)
        fun _ _ h => h
      rw [C.now] at h₁
      split
      · exact h₁
      · rw [wp_bind, wp_modify]
        refine wp_mono ih (fun _ r₂ h₂ => ?_) fun _ _ h => h
        rw [h₂, C.sleep, h₁]
    · exact C.now r

theorem terminate_leaves (C : RuntimeContract host inUse) (D : Deletable host inUse) (id : String) :
    wp (terminate host id) (fun _ r' => inUse r' = inUse r) (fun _ _ => False) r := by
  unfold terminate
  rw [wp_bind, wp_attempt]
  refine wp_mono ((C.kill id sigterm).wp r) (fun _ r₁ h₁ => ?_) fun _ r₁ h₁ => h₁
  dsimp only
  rw [wp_bind, wp_modifyGet]
  refine wp_mono (awaitEnd_leaves C D id _ _) (fun _ r₂ h₂ => ?_) fun _ _ h => h
  rw [h₂, C.now, h₁]

/-- Whether or not the container was there, it is gone. -/
theorem deleteContainer_clears (C : RuntimeContract host inUse) (D : Deletable host inUse) (id : String) :
    wp (host.deleteContainer id true) (fun _ r' => inUse r' ⊆ inUse r \ {id})
      (fun _ r' => inUse r' ⊆ inUse r \ {id}) r := by
  by_cases hid : id ∈ inUse r
  · refine wp_mono (wp_of_not_fails (D.delete id r hid) (C.delete id true r)) (fun _ r' h => h.le)
      fun _ _ h => h.elim
  · have hnot : inUse r \ {id} = inUse r := Set.sdiff_singleton_eq_self hid
    refine wp_mono (C.delete id true r) (fun _ r' h => h.le) fun _ r' h => ?_
    rw [hnot]
    exact h.2

theorem removeOrKeep_clears (C : RuntimeContract host inUse) (D : Deletable host inUse) (name : String) :
    wp (sandbox.removeOrKeep host name)
      (fun _ r' => inUse r' ⊆ inUse r \ {sandbox.containerIdFor name}) (fun _ _ => False) r := by
  unfold removeOrKeep removeContainer deleteIfThere
  rw [wp_bind, wp_attempt, wp_bind]
  refine wp_mono (terminate_leaves C D _) (fun _ r₁ h₁ => ?_) fun _ _ h => h.elim
  rw [wp_bind, wp_bind, wp_attempt]
  refine wp_mono (deleteContainer_clears C D _) (fun _ r₂ h₂ => ?_) fun e r₂ h₂ => ?_
  · rw [h₁] at h₂
    simp only [wp_pure, wp_bind, wp_modify]
    rwa [C.removeDirAll]
  · rw [h₁] at h₂
    cases e with
    | notFound =>
      simp only [wp_pure, wp_bind, wp_modify]
      rwa [C.removeDirAll]
    | _ => exact h₂

theorem removeAll_clears (C : RuntimeContract host inUse) (D : Deletable host inUse)
    (sandbox : PodSandbox) (names : List String) :
    wp (names.foldlM (fun sandbox name => sandbox.removeOrKeep host name) sandbox)
      (fun sandbox' r' => sandbox'.pauseId = sandbox.pauseId ∧
        inUse r' ⊆ inUse r \ {id | id ∈ names.map sandbox.containerIdFor})
      (fun _ _ => False) r := by
  induction names generalizing sandbox r with
  | nil => exact ⟨rfl, fun id hid => ⟨hid, List.not_mem_nil⟩⟩
  | cons name rest ih =>
    rw [List.foldlM_cons, wp_bind]
    refine wp_mono (wp_and removeOrKeep_eq (removeOrKeep_clears C D name)) (fun sandbox' r₁ h => ?_)
      fun _ _ h => h.2
    obtain ⟨⟨names, rfl, -⟩, h₁⟩ := h
    refine wp_mono (ih _) (fun sandbox' r₂ h => ⟨h.1, fun id hid => ?_⟩) fun _ _ h => h
    obtain ⟨hid₁, hrest⟩ := h.2 hid
    obtain ⟨hid, hne⟩ := h₁ hid₁
    refine ⟨hid, fun hmem => ?_⟩
    rcases List.mem_cons.mp hmem with heq | hmem
    · exact hne heq
    · exact hrest hmem

/-- **A sandbox that is taken down** has none of the containers left that it knows of. -/
theorem destroy_clears (C : RuntimeContract host inUse) (D : Deletable host inUse) :
    wp (sandbox.destroy host)
      (fun _ r' => inUse r' ⊆ inUse r \ {id | id ∈ sandbox.containerIds}) (fun _ _ => False) r := by
  unfold destroy
  rw [wp_bind]
  refine wp_mono (removeAll_clears C D sandbox sandbox.appContainers) (fun sandbox' r₁ h => ?_)
    fun _ _ h => h
  obtain ⟨hpause, h₁⟩ := h
  have hrest : ∀ r₂ : ρ, inUse r₂ ⊆ inUse r₁ \ {sandbox.pauseId} →
      inUse r₂ ⊆ inUse r \ {id | id ∈ sandbox.containerIds} := by
    intro r₂ h₂ id hid
    obtain ⟨hid₁, hne⟩ := h₂ hid
    obtain ⟨hid, happ⟩ := h₁ hid₁
    refine ⟨hid, fun hmem => ?_⟩
    rcases List.mem_cons.mp hmem with heq | hmem
    · exact hne heq
    · exact happ hmem
  simp only [wp_bind, wp_attempt, wp_modify, wp_pure]
  rw [hpause]
  refine wp_mono (deleteContainer_clears C D sandbox.pauseId) (fun _ r₂ h₂ => ?_) fun _ r₂ h₂ => ?_
  · exact hrest _ (by rwa [C.deleteLink, C.removeDirAll])
  · exact hrest _ (by rwa [C.deleteLink, C.removeDirAll])

/-- A container that the sandbox does not know of stays. -/
theorem destroy_stillUsed (C : RuntimeContract host inUse) {id : String}
    (hid : id ∉ sandbox.containerIds) : Keeps (StillUsed inUse id) (sandbox.destroy host) :=
  destroy_keeps (C.removal_others id) fun _ hother heq => hid (heq ▸ hother)

/-! ## Containers that are not recorded -/

/-- The container is created, and cannot be started. -/
def StartFails (host : Host ρ) (sandbox : PodSandbox) (container : Container) (r : ρ) : Prop :=
  let id := sandbox.containerIdFor container.name
  let dir := sandbox.bundleDirFor container.name
  wp (host.writeBundle container dir sandbox.rootfsBase sandbox.pausePid)
    (fun _ r₁ => wp (host.createContainer id dir) (fun _ r₂ => Fails (host.startContainer id) r₂)
      (fun _ _ => False) r₁) (fun _ _ => False) r

instance (container : Container) : Decidable (sandbox.StartFails host container r) := by
  unfold StartFails
  infer_instance

/-- The first of the containers that fails has been created. -/
def SomeStartFails (host : Host ρ) : PodSandbox → List Container → ρ → Prop
  | _, [], _ => False
  | sandbox, container :: rest, r => sandbox.StartFails host container r ∨
    wp (sandbox.addContainer host container) (fun sandbox r => SomeStartFails host sandbox rest r)
      (fun _ _ => False) r

instance decidableSomeStartFails (host : Host ρ) : (sandbox : PodSandbox) →
    (containers : List Container) → (r : ρ) → Decidable (sandbox.SomeStartFails host containers r)
  | _, [], _ => .isFalse id
  | sandbox, container :: rest, r => by
    have : ∀ sandbox' r', Decidable (SomeStartFails host sandbox' rest r') :=
      fun sandbox' r' => decidableSomeStartFails host sandbox' rest r'
    exact inferInstanceAs (Decidable (sandbox.StartFails host container r ∨
      wp (sandbox.addContainer host container) (fun sandbox r => SomeStartFails host sandbox rest r)
        (fun _ _ => False) r))

/-- What a container that cannot be added leaves. -/
theorem addContainer_failed (C : RuntimeContract host inUse) {container : Container}
    (hpause : sandbox.pausePid.isSome) : wp (sandbox.addContainer host container)
      (fun _ _ => ¬ sandbox.StartFails host container r)
      (fun _ r' => (sandbox.StartFails host container r ∧
          sandbox.containerIdFor container.name ∉ inUse r ∧
          sandbox.containerIdFor container.name ∈ inUse r') ∨
        (¬ sandbox.StartFails host container r ∧ inUse r' = inUse r)) r := by
  obtain ⟨pausePid, hpausePid⟩ := Option.isSome_iff_exists.mp hpause
  unfold addContainer StartFails
  simp only [hpausePid, wp_bind, wp_addContext, wp_withContext, wp_pure]
  refine wp_mono (wp_and ((C.writeBundle _ _ _ _).wp r) wp_self) (fun _ r₁ h => ?_) fun _ r₁ h => ?_
  swap
  · rw [wp_of_eq_error h.2]
    exact .inr ⟨not_false, h.1⟩
  rw [wp_of_eq_ok h.2]
  refine wp_mono (wp_and (C.create _ _ r₁) wp_self) (fun _ r₂ h' => ?_) fun _ r₂ h' => ?_
  swap
  · rw [wp_of_eq_error h'.2]
    exact .inr ⟨not_false, h'.1.2.trans h.1⟩
  rw [wp_of_eq_ok h'.2]
  obtain ⟨hfree, h₂⟩ := h'.1
  refine wp_mono (wp_and ((C.start _).wp r₂) wp_fails) (fun _ r₃ h₃ => h₃.2) fun _ r₃ h₃ => ?_
  refine .inl ⟨h₃.2, h.1 ▸ hfree, ?_⟩
  rw [h₃.1, h₂]
  exact Set.mem_insert ..

theorem mem_containerIds_push (sandbox : PodSandbox) (name id : String) :
    id ∈ PodSandbox.containerIds
        { sandbox with appContainers := sandbox.appContainers ++ [name] } ↔
      id ∈ sandbox.containerIds ∨ id = sandbox.containerIdFor name := by
  simp [containerIds, containerIdFor, or_assoc]

/-- What is left when a container cannot be added and the sandbox is taken down. -/
theorem addContainer_undone (C : RuntimeContract host inUse) (D : Deletable host inUse)
    {container : Container} {r' : ρ} (hused : ∀ id ∈ sandbox.containerIds, id ∈ inUse r)
    (h : (sandbox.StartFails host container r ∧ sandbox.containerIdFor container.name ∉ inUse r ∧
        sandbox.containerIdFor container.name ∈ inUse r') ∨
      (¬ sandbox.StartFails host container r ∧ inUse r' = inUse r)) :
    wp (sandbox.destroy host)
      (fun _ r'' => (sandbox.StartFails host container r ∧
          sandbox.containerIdFor container.name ∈ inUse r'') ∨
        (¬ sandbox.StartFails host container r ∧
          inUse r'' ⊆ inUse r \ {id | id ∈ sandbox.containerIds})) (fun _ _ => False) r' := by
  rcases h with ⟨hfails, hfree, hmade⟩ | ⟨hnot, hsame⟩
  · -- the one that has been created is none of those that are taken down
    have hother : sandbox.containerIdFor container.name ∉ sandbox.containerIds :=
      fun hid => hfree (hused _ hid)
    refine wp_mono (wp_and (destroy_clears C D) ((destroy_stillUsed C hother).wp r'))
      (fun _ r'' h => .inl ⟨hfails, h.2 hmade⟩) fun _ _ h => h.1
  · refine wp_mono (destroy_clears C D) (fun _ r'' h => .inr ⟨hnot, ?_⟩) fun _ _ h => h
    rwa [hsame] at h

end PodSandbox

namespace Reconciler

variable {host : Host ρ} {inUse : ρ → Set String} {s : Reconciler ρ} {pod : Pod}

/-- The loop over the containers, when it fails, undoes all that the sandbox knows of. -/
theorem addContainers_undone (C : RuntimeContract host inUse) (D : Deletable host inUse) (ip : String)
    (sandbox : PodSandbox) (containers : List Container) (hpause : sandbox.pausePid.isSome)
    (hused : ∀ id ∈ sandbox.containerIds, id ∈ inUse s.runtime) :
    wp (addContainers host ip sandbox containers) (fun _ _ => True)
      (fun _ s' => (sandbox.SomeStartFails host containers s.runtime ∧
          ∃ id ∈ idsFor sandbox containers, id ∈ inUse s'.runtime) ∨
        (¬ sandbox.SomeStartFails host containers s.runtime ∧
          inUse s'.runtime ⊆ inUse s.runtime \ {id | id ∈ sandbox.containerIds})) s := by
  induction containers generalizing sandbox s with
  | nil => trivial
  | cons container rest ih =>
    unfold addContainers
    rw [wp_bind, wp_attempt, wp_onRuntime]
    have hrun := wp_self (x := sandbox.addContainer host container) (s := s.runtime)
    refine wp_mono (wp_and (wp_and PodSandbox.addContainer_eq (PodSandbox.addContainer_contract C))
      (wp_and (PodSandbox.addContainer_failed C hpause) hrun)) (fun sandbox' r h => ?_) fun e r h => ?_
    · obtain ⟨⟨rfl, -, hgrown⟩, hstarts, hrun⟩ := h
      have hused' : ∀ id ∈ PodSandbox.containerIds { sandbox with
          appContainers := sandbox.appContainers ++ [container.name] }, id ∈ inUse r := by
        intro id hid
        rw [hgrown]
        rcases (sandbox.mem_containerIds_push container.name id).mp hid with hid | rfl
        · exact Set.mem_insert_of_mem _ (hused id hid)
        · exact Set.mem_insert ..
      refine wp_mono (ih (s := { s with runtime := r }) _ hpause hused') (fun _ _ _ => trivial)
        fun e s' h => ?_
      rcases h with ⟨hsome, id, hid, hleft⟩ | ⟨hnone, hleft⟩
      · exact .inl ⟨.inr ((wp_of_eq_ok hrun).mpr hsome), id, List.mem_cons_of_mem _ hid, hleft⟩
      · refine .inr ⟨fun hsome => ?_, fun id hid => ?_⟩
        · rcases hsome with hfirst | hsome
          · exact hstarts hfirst
          · exact hnone ((wp_of_eq_ok hrun).mp hsome)
        · obtain ⟨hmem, hnot⟩ := hleft hid
          have hnot := mt (sandbox.mem_containerIds_push container.name id).mpr hnot
          push Not at hnot
          have hmem : id ∈ inUse r := hmem
          rw [hgrown] at hmem
          exact ⟨hmem.resolve_left hnot.2, hnot.1⟩
    · obtain ⟨-, hfailed, hrun⟩ := h
      simp only [wp_bind, wp_attempt, wp_onRuntime, wp_modify, wp_throw]
      refine wp_mono (PodSandbox.addContainer_undone C D hused hfailed) (fun _ r' h => ?_)
        fun _ _ h => h.elim
      rw [runtime_releaseIp]
      rcases h with ⟨hfirst, hstays⟩ | ⟨hfirst, hcleared⟩
      · exact .inl ⟨.inl hfirst, _, List.mem_cons_self, hstays⟩
      · refine .inr ⟨fun hsome => ?_, hcleared⟩
        rcases hsome with hfirst' | hsome
        · exact hfirst hfirst'
        · exact (wp_of_eq_error hrun).mp hsome

/-! ## Pods that fail -/

/-- Nothing of the pod is left. -/
structure RolledBack (inUse : ρ → Set String) (pod : Pod) (s s' : Reconciler ρ) : Prop where
  store : s'.store = s.store
  address : s'.marked = s.marked
  containers : ∀ id ∈ createIds pod, id ∉ inUse s'.runtime

/-- The sandbox of a pod, before anything has been created for it. -/
def freshSandbox (s : Reconciler ρ) (pod : Pod) : PodSandbox :=
  PodSandbox.new pod.metadata.name s.podsDir s.rootfsBase

/-- The pod is given an address, and then its pause container does not come up, or one of its
containers is created and cannot be started. -/
def Stranded (host : Host ρ) (s : Reconciler ρ) (pod : Pod) : Prop :=
  wp (ensurePodIp pod) (fun ip s₁ => wp ((s.freshSandbox pod).create host (some ip))
    (fun sandbox r => sandbox.SomeStartFails host pod.spec.containers r) (fun _ _ => True) s₁.runtime)
      (fun _ _ => False) s

instance : Decidable (Stranded host s pod) := by
  unfold Stranded
  infer_instance

/-- A pod that reports no address is given one that is not marked. -/
theorem ensurePodIp_fresh (hip : reportedIp pod = none) : wp (ensurePodIp pod)
    (fun ip s' => s' = { s with ipam := s'.ipam } ∧ ∃ addr, Ipv4Addr.parse ip = some addr ∧
      addr ∉ s.marked ∧ s'.marked = Insert.insert addr s.marked)
    (fun _ s' => s' = { s with ipam := s'.ipam } ∧ s'.marked = s.marked) s := by
  refine wp_mono (wp_and ensurePodIp_spec ensurePodIp_frame) (fun ip s' h => ?_)
    fun _ s' h => ⟨h.2, h.1.2⟩
  obtain ⟨⟨-, addr, hparse, hgranted⟩, hframe⟩ := h
  refine ⟨hframe, addr, hparse, ?_⟩
  have hnone : reportedAddr pod = none := by rw [reportedAddr, hip, Option.bind_none]
  generalize s'.marked = m at hgranted
  cases hgranted with
  | reported h | foreign h => cases hnone.symm.trans h
  | fresh _ hnot => exact ⟨hnot, rfl⟩

theorem createPod_undone (C : RuntimeContract host inUse) (D : Deletable host inUse)
    (hip : reportedIp pod = none) (hfree : ∀ id ∈ createIds pod, id ∉ inUse s.runtime) :
    wp (createPod host pod) (fun _ _ => True)
      (fun _ s' => RolledBack inUse pod s s' ↔ ¬ Stranded host s pod) s := by
  unfold createPod createSandbox
  simp only [wp_bind, wp_get, wp_onRuntime, wp_addContext, wp_pure]
  refine wp_mono (wp_and (ensurePodIp_fresh hip) wp_self) (fun ip s₁ h => ?_) fun e s₁ h => ?_
  swap
  · obtain ⟨⟨hframe, hmarked⟩, hrun⟩ := h
    refine iff_of_true ⟨by rw [hframe], hmarked, ?_⟩ (wp_of_eq_error hrun).mp
    rw [hframe]
    exact hfree
  obtain ⟨⟨hframe, addr, hparse, hnew, hmarked⟩, hrun⟩ := h
  have hsandbox : PodSandbox.new pod.metadata.name s₁.podsDir s₁.rootfsBase = s.freshSandbox pod := by
    rw [hframe]
    rfl
  have hruntime : s₁.runtime = s.runtime := by rw [hframe]
  have hstore : s₁.store = s.store := by rw [hframe]
  rw [hsandbox, Stranded, wp_of_eq_ok hrun, hruntime]
  refine wp_mono (wp_and (wp_and PodSandbox.create_eq (PodSandbox.create_contract C)) wp_self)
    (fun made r h => ?_) fun e r h => ?_
  swap
  · -- the address is not given back
    refine iff_of_false (fun hrolled => hnew ?_) ?_
    · have hsame : s₁.marked = s.marked := hrolled.address
      rw [← hsame, hmarked]
      exact Set.mem_insert ..
    · rw [wp_of_eq_error h.2, not_true]
      exact not_false
  obtain ⟨⟨⟨pid, rfl⟩, -, hpaused⟩, hmade⟩ := h
  rw [wp_of_eq_ok hmade]
  have hused : ∀ id ∈ PodSandbox.containerIds { s.freshSandbox pod with
      pausePid := some pid, podIp := some ip }, id ∈ inUse r := by
    intro id hid
    obtain rfl := List.mem_singleton.mp hid
    rw [hpaused]
    exact Set.mem_insert ..
  have hundone := addContainers_undone (s := { s₁ with runtime := r }) C D ip
    { s.freshSandbox pod with pausePid := some pid, podIp := some ip } pod.spec.containers rfl hused
  refine wp_mono (wp_and hundone (addContainers_spec hparse)) (fun _ _ _ => trivial) fun e s₂ h => ?_
  obtain ⟨hundone, hstore', hmarked'⟩ := h
  rcases hundone with ⟨hsome, id, hid, hleft⟩ | ⟨hnone, hleft⟩
  · refine iff_of_false (fun hrolled => hrolled.containers id ?_ hleft) ?_
    · exact List.mem_cons_of_mem _ hid
    · exact not_not.mpr hsome
  · refine iff_of_true ⟨hstore'.store.trans hstore, ?_, fun id hid hused' => ?_⟩ hnone
    · have hreleased : s₂.marked = s₁.marked \ {addr} := hmarked'
      rw [hreleased, hmarked]
      exact Set.insert_sdiff_self_of_notMem hnew
    · obtain ⟨hmem, hnot⟩ := hleft hused'
      have hmem : id ∈ inUse r := hmem
      rw [hpaused] at hmem
      rcases hmem with rfl | hmem
      · exact hnot List.mem_cons_self
      · exact hfree id hid hmem

/-! ## The next attempt -/

/-- A call of `create_container` for the pod has been answered with `AlreadyExists`. -/
def Existed (pod : Pod) (e : Failure) : Prop :=
  e = .context "create sandbox" (.context "create pause container"
    (.runtime (.alreadyExists (pod.metadata.name ++ "__pause")))) ∨
  ∃ name : String, e = .context s!"add container {name}" (.context "create container"
    (.runtime (.alreadyExists (pod.metadata.name ++ "__" ++ name))))

end Reconciler

namespace PodSandbox

variable {host : Host ρ} {inUse : ρ → Set String} {sandbox : PodSandbox} {r : ρ}

theorem create_not_existed (C : RuntimeContract host inUse) {podIp : Option String}
    (hfree : sandbox.pauseId ∉ inUse r) : wp (sandbox.create host podIp) (fun _ _ => True)
      (fun e _ => e ≠ .context "create pause container" (.runtime (.alreadyExists sandbox.pauseId)) ∧
        ∀ cause, e ≠ .context "create container" cause) r := by
  unfold create
  simp only [wp_bind, wp_addContext, wp_withContext]
  refine wp_mono ((C.writeBundle _ _ _ _).wp r) (fun _ r₁ h₁ => ?_) fun _ _ _ => by simp
  refine wp_mono (C.create _ _ r₁) (fun _ r₂ h₂ => ?_) fun e _ h => ⟨?_, by simp⟩
  · refine wp_of_forall (fun _ r₃ => ?_) fun _ _ => by simp
    refine wp_of_forall (fun pid r₄ => ?_) fun _ _ => by simp
    cases pid with
    | none => simp
    | some pid =>
      simp only [wp_bind, wp_pure]
      cases podIp <;> exact wp_addContext.mpr (wp_of_forall (fun _ _ => trivial) fun _ _ => by simp)
  · rintro heq
    cases heq
    exact hfree (h₁ ▸ h.1.mp rfl)

theorem addContainer_not_existed (C : RuntimeContract host inUse) {container : Container}
    (hfree : sandbox.containerIdFor container.name ∉ inUse r) :
    wp (sandbox.addContainer host container) (fun _ _ => True)
      (fun e _ => e ≠ .context "create container"
          (.runtime (.alreadyExists (sandbox.containerIdFor container.name))) ∧
        ∀ cause, e ≠ .context "create pause container" cause) r := by
  unfold addContainer
  cases sandbox.pausePid with
  | none => simp
  | some pausePid =>
    simp only [wp_bind, wp_addContext, wp_withContext, wp_pure]
    refine wp_mono ((C.writeBundle _ _ _ _).wp r) (fun _ r₁ h₁ => ?_) fun _ _ _ => by simp
    refine wp_mono (C.create _ _ r₁) (fun _ r₂ h₂ => ?_) fun e _ h => ⟨?_, by simp⟩
    · exact wp_of_forall (fun _ _ => trivial) fun _ _ => by simp
    · rintro heq
      cases heq
      exact hfree (h₁ ▸ h.1.mp rfl)

end PodSandbox

namespace Reconciler

variable {host : Host ρ} {inUse : ρ → Set String} {s : Reconciler ρ} {pod : Pod}

theorem addContainers_not_existed (C : RuntimeContract host inUse) (ip : String)
    (sandbox : PodSandbox) (containers : List Container) (hname : sandbox.podName = pod.metadata.name)
    (hnodup : (idsFor sandbox containers).Nodup)
    (hfree : ∀ id ∈ idsFor sandbox containers, id ∉ inUse s.runtime) :
    wp (addContainers host ip sandbox containers) (fun _ _ => True) (fun e _ => ¬ Existed pod e) s := by
  induction containers generalizing sandbox s with
  | nil => trivial
  | cons container rest ih =>
    obtain ⟨hnot, hnodup⟩ := List.nodup_cons.mp hnodup
    have hfirst := hfree _ List.mem_cons_self
    unfold addContainers
    rw [wp_bind, wp_attempt, wp_onRuntime]
    refine wp_mono (wp_and (wp_and PodSandbox.addContainer_eq (PodSandbox.addContainer_contract C))
      (PodSandbox.addContainer_not_existed C hfirst)) (fun sandbox' r h => ?_) fun e r h => ?_
    · obtain ⟨⟨rfl, -, hgrown⟩, -⟩ := h
      refine ih (s := { s with runtime := r }) _ hname hnodup fun id hid => ?_
      show id ∉ inUse r
      rw [hgrown, Set.mem_insert_iff, not_or]
      refine ⟨?_, hfree id (List.mem_cons_of_mem _ hid)⟩
      rintro rfl
      exact hnot hid
    · obtain ⟨-, hcreate, hpause⟩ := h
      have hfailure : ¬ Existed pod (.context s!"add container {container.name}" e) := by
        rintro (heq | ⟨name, heq⟩)
        · exact hpause _ (Failure.context.inj heq).2
        · obtain ⟨htext, hcause⟩ := Failure.context.inj heq
          obtain rfl : container.name = name := (String.append_right_inj _).mp htext
          refine hcreate (hcause.trans ?_)
          rw [PodSandbox.containerIdFor, hname]
      simp only [wp_bind, wp_attempt, wp_onRuntime, wp_modify, wp_throw]
      exact wp_of_forall (fun _ _ => hfailure) fun _ _ => hfailure

theorem ensurePodIp_error : wp (ensurePodIp pod) (fun _ _ => True)
    (fun e _ => ∀ text text' cause, e ≠ .context text (.context text' cause)) s := by
  unfold ensurePodIp
  rw [wp_bind, wp_get]
  cases s.ipam with
  | none => simp
  | some ipam =>
    dsimp only
    split
    · trivial
    · rw [wp_bind, wp_set]
      cases ipam.allocate.1 <;> simp

/-- When none of its ids is in use, a pod finds none of its containers there. -/
theorem createPod_not_existed (C : RuntimeContract host inUse) (hnodup : (createIds pod).Nodup)
    (hfree : ∀ id ∈ createIds pod, id ∉ inUse s.runtime) :
    wp (createPod host pod) (fun _ _ => True) (fun e _ => ¬ Existed pod e) s := by
  obtain ⟨hnot, hnodup⟩ := List.nodup_cons.mp hnodup
  have hpause := hfree _ List.mem_cons_self
  unfold createPod createSandbox
  simp only [wp_bind, wp_get, wp_onRuntime, wp_addContext, wp_pure]
  refine wp_mono (wp_and ensurePodIp_frame ensurePodIp_error) (fun ip s₁ h => ?_) fun e s₁ h => ?_
  swap
  · rintro (heq | ⟨name, heq⟩)
    · exact h.2 _ _ _ heq
    · exact h.2 _ _ _ heq
  rw [h.1]
  have hpause' : (s.freshSandbox pod).pauseId ∉ inUse s.runtime := hpause
  refine wp_mono (wp_and (wp_and PodSandbox.create_eq (PodSandbox.create_contract C))
    (PodSandbox.create_not_existed C hpause')) (fun made r h => ?_) fun e r h => ?_
  · obtain ⟨⟨⟨pid, rfl⟩, -, hpaused⟩, -⟩ := h
    refine wp_mono (addContainers_not_existed C ip _ _ rfl hnodup fun id hid => ?_) (fun _ _ _ => trivial)
      fun _ _ h => h
    show id ∉ inUse r
    rw [hpaused, Set.mem_insert_iff, not_or]
    refine ⟨?_, hfree id (List.mem_cons_of_mem _ hid)⟩
    rintro rfl
    exact hnot hid
  · obtain ⟨-, hcreate, hother⟩ := h
    rintro (heq | ⟨name, heq⟩)
    · exact hcreate (Failure.context.inj heq).2
    · exact hother _ (Failure.context.inj heq).2

/-- **Failed pods**: a `create_pod` that fails leaves nothing of a new pod exactly when the pod is not
stranded. The next one then finds none of its containers there. -/
theorem createPod_rolledBack_iff (C : RuntimeContract host inUse) (D : Deletable host inUse) (pod : Pod)
    (s : Reconciler ρ) (hip : reportedIp pod = none)
    (hfree : ∀ id ∈ createIds pod, id ∉ inUse s.runtime) (hfails : Fails (createPod host pod) s) :
    (RolledBack inUse pod s (left (createPod host pod s)) ↔ ¬ Stranded host s pod) ∧
      (¬ Stranded host s pod → (createIds pod).Nodup → ∀ e later,
        createPod host pod (left (createPod host pod s)) = .error e later → ¬ Existed pod e) := by
  obtain ⟨e, s', herror⟩ := hfails
  have hundone := (wp_of_eq_error herror).mp (createPod_undone C D hip hfree)
  rw [herror, left_error]
  refine ⟨hundone, fun hnot hnodup e' later hlater => ?_⟩
  exact (wp_of_eq_error hlater).mp
    (createPod_not_existed C hnodup (hundone.mpr hnot).containers)

end Reconciler

/-! ## Calls that fail -/

inductive RuntimeCall
  | create (id : String)
  | start (id : String)
  | pid (id : String)
  deriving DecidableEq

/-- The runtime in memory, in which these calls fail. -/
def failingHost (failing : List RuntimeCall) : Host (List RecoveredContainer) :=
  { mockHost with
    createContainer := fun id dir r =>
      if .create id ∈ failing ∧ id ∉ r.map (·.id) then .error (.other "create failed") r
      else mockHost.createContainer id dir r
    startContainer := fun id r =>
      if .start id ∈ failing then .error (.other "start failed") r else mockHost.startContainer id r
    containerPid := fun id r =>
      if .pid id ∈ failing then .error (.other "pid failed") r else mockHost.containerPid id r }

theorem failingHost_contract (failing : List RuntimeCall) :
    RuntimeContract (failingHost failing) recoveredIds where
  create id dir r := by
    by_cases hfailing : .create id ∈ failing ∧ id ∉ r.map (·.id)
    · have heq : (failingHost failing).createContainer id dir r =
          .error (.other "create failed") r := if_pos hfailing
      rw [wp_of_eq_error heq]
      exact ⟨iff_of_false (by simp) fun hid => hfailing.2 (mem_recoveredIds.mp hid), rfl⟩
    · have heq : (failingHost failing).createContainer id dir r = mockHost.createContainer id dir r :=
        if_neg hfailing
      have hcreate := mockHost_contract.create id dir r
      unfold wp at hcreate ⊢
      rwa [heq]
  delete := mockHost_contract.delete
  recover := mockHost_contract.recover
  start id r := by
    show recoveredIds (left (if .start id ∈ failing then _ else _)) = _
    split_ifs
    · rfl
    · rfl
  kill := mockHost_contract.kill
  state := mockHost_contract.state
  pid id r := by
    show recoveredIds (left (if .pid id ∈ failing then _ else _)) = _
    split_ifs
    · rfl
    · rfl
  writeBundle := mockHost_contract.writeBundle
  setupPodNetwork := mockHost_contract.setupPodNetwork
  loopbackOnly := mockHost_contract.loopbackOnly
  removeDirAll := mockHost_contract.removeDirAll
  deleteLink := mockHost_contract.deleteLink
  now := mockHost_contract.now
  sleep := mockHost_contract.sleep

theorem failingHost_deletable (failing : List RuntimeCall) :
    Deletable (failingHost failing) recoveredIds where
  delete id r hid := mockHost_nothingElseFails.delete id true r hid
  state _ _ := nofun

namespace Reconciler

instance (s : Reconciler ρ) (addr : Ipv4Addr) : Decidable (addr ∈ s.marked) :=
  decidable_of_iff (s.ipam.any fun ipam => addr ∈ ipam.marked) (by
    rw [Option.any_eq_true]
    simp [marked])

/-- The container cannot be created, and nothing is left. -/
theorem createPod_rolledBack_web : RolledBack recoveredIds (podNamed "web" none) bareNode
    (left (createPod (failingHost [.create "web__app"]) (podNamed "web" none) bareNode)) :=
  (createPod_rolledBack_iff (failingHost_contract _) (failingHost_deletable _) (podNamed "web" none)
    bareNode rfl (fun _ _ h => by simp [bareNode, new, recoveredIds] at h) (by decide +kernel)).1.mpr
      (by decide +kernel)

/-- The container has been created and cannot be started: it stays. When the pause container cannot be
created, the address stays. -/
theorem createPod_left_behind :
    (∀ failing, RuntimeContract (failingHost failing) recoveredIds ∧
      Deletable (failingHost failing) recoveredIds) ∧
    (Fails (createPod (failingHost [.start "web__app"]) (podNamed "web" none)) bareNode ∧
      ¬ RolledBack recoveredIds (podNamed "web" none) bareNode
        (left (createPod (failingHost [.start "web__app"]) (podNamed "web" none) bareNode))) ∧
    (Fails (createPod (failingHost [.create "web__pause"]) (podNamed "web" none)) bareNode ∧
      ¬ RolledBack recoveredIds (podNamed "web" none) bareNode
        (left (createPod (failingHost [.create "web__pause"]) (podNamed "web" none) bareNode))) := by
  refine ⟨fun failing => ⟨failingHost_contract failing, failingHost_deletable failing⟩,
    ⟨by decide +kernel, fun h => ?_⟩, by decide +kernel, fun h => ?_⟩
  · have hleft : "web__app" ∈ (left (createPod (failingHost [.start "web__app"])
        (podNamed "web" none) bareNode)).runtime.map (·.id) := by decide +kernel
    exact h.containers "web__app" (by decide) (mem_recoveredIds.mpr hleft)
  · have hgiven : (⟨(10, 244, 1), 2⟩ : Ipv4Addr) ∈ (left (createPod
        (failingHost [.create "web__pause"]) (podNamed "web" none) bareNode)).marked := by
      decide +kernel
    have hbare : (⟨(10, 244, 1), 2⟩ : Ipv4Addr) ∉ bareNode.marked := by decide +kernel
    exact hbare (h.address ▸ hgiven)

end Reconciler

end MyK8s.Kubelet
