import MyK8s.Kubelet.Contract

/-!
# What containers are made from

A host that takes notes: `Host.traced` does what its host does, and remembers the commands in the bundles
and the command from which each container was last created. Nothing that the kubelet does for a pod
changes this of the containers of another (`Spares`).
-/

namespace MyK8s.Kubelet

open Fallible

variable {ρ ε α : Type}

/-! ## Containers that go -/

/-- What the kubelet does when it takes down containers with these ids stays in the relation. -/
structure Removal (host : Host ρ) (R : ρ → ρ → Prop) (own : Set String) : Prop where
  kill : ∀ id signal, Keeps R (host.killContainer id signal)
  state : ∀ id, Keeps R (host.containerState id)
  delete : ∀ id ∈ own, ∀ force, Keeps R (host.deleteContainer id force)
  now : ∀ r, R r (host.now r).2
  sleep : ∀ micros r, R r (host.sleep micros r)
  removeDirAll : ∀ dir r, R r (host.removeDirAll dir r)
  deleteLink : ∀ name r, R r (host.deleteLink name r)

namespace PodSandbox

variable {host : Host ρ} {R : ρ → ρ → Prop} [Std.Refl R] [IsTrans ρ R] {own : Set String}
  {sandbox : PodSandbox}

theorem awaitEnd_keeps (D : Removal host R own) (id : String) (deadline turns : ℕ) :
    Keeps R (awaitEnd host id deadline turns) := by
  induction turns with
  | zero => exact .pure ()
  | succ turns ih =>
    unfold awaitEnd
    refine (Keeps.modifyGet D.now).bind fun now => ?_
    split
    · refine (D.state id).adapt.bind fun state => ?_
      split
      · exact .pure ()
      · exact (Keeps.modify (D.sleep _)).bind fun _ => ih
    · exact .pure ()

theorem terminate_keeps (D : Removal host R own) (id : String) : Keeps R (terminate host id) := by
  unfold terminate
  refine (D.kill id sigterm).attempt.bind fun killed => ?_
  cases killed with
  | ok => exact (Keeps.modifyGet D.now).bind fun now => awaitEnd_keeps D _ _ _
  | error => exact .pure ()

theorem removeOrKeep_keeps (D : Removal host R own) {name : String}
    (hid : sandbox.containerIdFor name ∈ own) : Keeps R (sandbox.removeOrKeep host name) := by
  have hdelete : Keeps R (deleteIfThere host name (sandbox.containerIdFor name)) := by
    unfold deleteIfThere
    refine (D.delete _ hid true).attempt.bind fun deleted => ?_
    rcases deleted with (_ | _ | _ | _) | _
    exacts [.pure (), .throw _, .throw _, .throw _, .pure ()]
  have hremove : Keeps R (sandbox.removeContainer host name) := by
    unfold removeContainer
    refine (terminate_keeps D _).bind fun _ => hdelete.bind fun _ => ?_
    exact (Keeps.modify (D.removeDirAll _)).bind fun _ => .pure _
  unfold removeOrKeep
  refine hremove.attempt.bind fun removed => ?_
  cases removed <;> exact .pure _

theorem removeAll_keeps (D : Removal host R own) (sandbox : PodSandbox) {names : List String}
    (hids : ∀ name ∈ names, sandbox.containerIdFor name ∈ own) {r : ρ} :
    wp (names.foldlM (fun sandbox name => sandbox.removeOrKeep host name) sandbox)
      (fun sandbox' r' => sandbox'.pauseId = sandbox.pauseId ∧ R r r') (fun _ r' => R r r') r := by
  induction names generalizing sandbox r with
  | nil => exact ⟨rfl, Std.Refl.refl r⟩
  | cons name rest ih =>
    rw [List.foldlM_cons, wp_bind]
    refine wp_mono (wp_and removeOrKeep_eq ((removeOrKeep_keeps D (hids name List.mem_cons_self)).wp r))
      (fun sandbox' r₁ h => ?_) fun _ r₁ h => h.2
    obtain ⟨⟨names, rfl, -⟩, h₁⟩ := h
    have hrest : ∀ name ∈ rest,
        PodSandbox.containerIdFor { sandbox with appContainers := names } name ∈ own :=
      fun name hname => hids name (List.mem_cons_of_mem _ hname)
    refine wp_mono (ih _ hrest) (fun sandbox' r₂ h => ?_) fun _ r₂ h => IsTrans.trans _ _ _ h₁ h
    exact ⟨h.1, IsTrans.trans _ _ _ h₁ h.2⟩

theorem destroy_keeps (D : Removal host R own) (hids : ∀ id ∈ sandbox.containerIds, id ∈ own) :
    Keeps R (sandbox.destroy host) := by
  refine .of_wp fun r => ?_
  unfold destroy
  rw [wp_bind]
  refine wp_mono (removeAll_keeps D sandbox fun name hname => hids _ ?_) (fun sandbox' r₁ h => ?_) fun _ _ h => h
  · exact List.mem_cons_of_mem _ (List.mem_map.mpr ⟨name, hname, rfl⟩)
  · have hpause : sandbox'.pauseId ∈ own := h.1 ▸ hids _ List.mem_cons_self
    have hrest : Keeps R (do
        let _ ← (attempt (host.deleteContainer sandbox'.pauseId true) :
          Action ρ (Except RuntimeError Unit))
        modify (host.removeDirAll (sandbox'.podsDir ++ [sandbox'.podName]))
        modify (host.deleteLink sandbox'.podName)
        pure { sandbox' with pausePid := none, podIp := none }) :=
      (D.delete _ hpause true).attempt.bind fun _ => (Keeps.modify (D.removeDirAll _)).bind fun _ =>
        (Keeps.modify (D.deleteLink _)).bind fun _ => .pure _
    exact wp_mono (hrest.wp r₁) (fun _ r₂ h' => IsTrans.trans _ _ _ h.2 h')
      fun _ r₂ h' => IsTrans.trans _ _ _ h.2 h'

end PodSandbox

/-! ## The host that takes notes -/

structure Trace where
  /-- The command in the bundle of a directory. -/
  bundles : Path → Option (List String)
  /-- The command from which the container with an id was last created. -/
  made : String → Option (List String)
  /-- A call that makes a container has failed. -/
  failed : Bool

def Trace.empty : Trace := ⟨fun _ => none, fun _ => none, false⟩

/-- A call that is noted. -/
def noted (note : Trace → Trace) (x : EStateM ε ρ α) : EStateM ε (ρ × Trace) α := fun (r, t) =>
  match x r with
  | .ok a r' => .ok a (r', note t)
  | .error e r' => .error e (r', { t with failed := true })

/-- A call that is not. -/
def unnoted (x : EStateM ε ρ α) : EStateM ε (ρ × Trace) α := zoom Prod.fst (fun r rt => (r, rt.2)) x

def Host.traced (host : Host ρ) : Host (ρ × Trace) where
  createContainer id dir := noted (fun t => { t with made := Function.update t.made id (t.bundles dir) })
    (host.createContainer id dir)
  startContainer id := noted (fun t => t) (host.startContainer id)
  killContainer id signal := unnoted (host.killContainer id signal)
  deleteContainer id force := unnoted (host.deleteContainer id force)
  containerState id := unnoted (host.containerState id)
  containerPid id := unnoted (host.containerPid id)
  recoverAll := unnoted host.recoverAll
  writeBundle container dir rootfsBase shareFrom :=
    noted (fun t => { t with bundles := Function.update t.bundles dir (some container.command) })
      (host.writeBundle container dir rootfsBase shareFrom)
  removeDirAll dir := fun (r, t) => (host.removeDirAll dir r,
    { t with bundles := fun d => if dir <+: d then none else t.bundles d })
  ensureBridge := unnoted host.ensureBridge
  setupPodNetwork pausePid podName podIp := unnoted (host.setupPodNetwork pausePid podName podIp)
  loopbackOnly pausePid := unnoted (host.loopbackOnly pausePid)
  deleteLink podName := fun (r, t) => (host.deleteLink podName r, t)
  now := fun (r, t) => ((host.now r).1, (host.now r).2, t)
  sleep micros := fun (r, t) => (host.sleep micros r, t)

/-! The calls that are noted. -/

theorem traced_createContainer (host : Host ρ) (id : String) (dir : Path) :
    host.traced.createContainer id dir =
      noted (fun t => { t with made := Function.update t.made id (t.bundles dir) })
        (host.createContainer id dir) := rfl

theorem traced_startContainer (host : Host ρ) (id : String) :
    host.traced.startContainer id = noted (fun t => t) (host.startContainer id) := rfl

theorem traced_writeBundle (host : Host ρ) (container : Container) (dir rootfsBase : Path)
    (shareFrom : Option ℕ) : host.traced.writeBundle container dir rootfsBase shareFrom =
      noted (fun t => { t with bundles := Function.update t.bundles dir (some container.command) })
        (host.writeBundle container dir rootfsBase shareFrom) := rfl

variable {host : Host ρ} {inUse : ρ → Set String} {x : EStateM ε ρ α} {note : Trace → Trace}
  {rt rt' rt'' : ρ × Trace} {own : Set String}

theorem wp_noted {Q : α → ρ × Trace → Prop} {E : ε → ρ × Trace → Prop} :
    wp (noted note x) Q E rt ↔ wp x (fun a r => Q a (r, note rt.2))
      (fun e r => E e (r, { rt.2 with failed := true })) rt.1 := by
  obtain ⟨r, t⟩ := rt
  unfold wp noted
  dsimp only
  cases x r <;> rfl

theorem wp_unnoted {Q : α → ρ × Trace → Prop} {E : ε → ρ × Trace → Prop} :
    wp (unnoted x) Q E rt ↔ wp x (fun a r => Q a (r, rt.2)) (fun e r => E e (r, rt.2)) rt.1 := wp_zoom

/-- The ids that are in use, of a host that takes notes. -/
def tracedIds (inUse : ρ → Set String) (rt : ρ × Trace) : Set String := inUse rt.1

theorem Leaves.noted (h : Leaves inUse x) : Leaves (tracedIds inUse) (noted note x) :=
  .of_wp fun rt => wp_noted.mpr (h.wp rt.1)

theorem Leaves.unnoted (h : Leaves inUse x) : Leaves (tracedIds inUse) (unnoted x) :=
  .of_wp fun rt => wp_unnoted.mpr (h.wp rt.1)

/-- Taking notes does not break the contract. -/
theorem RuntimeContract.traced (C : RuntimeContract host inUse) :
    RuntimeContract host.traced (tracedIds inUse) where
  create id dir rt := by
    rw [traced_createContainer, wp_noted]
    exact C.create id dir rt.1
  delete id force rt := wp_unnoted.mpr (C.delete id force rt.1)
  recover rt := wp_unnoted.mpr (C.recover rt.1)
  start id := by
    rw [traced_startContainer]
    exact (C.start id).noted
  kill id signal := (C.kill id signal).unnoted
  state id := (C.state id).unnoted
  pid id := (C.pid id).unnoted
  writeBundle container dir base from' := by
    rw [traced_writeBundle]
    exact (C.writeBundle container dir base from').noted
  setupPodNetwork pid name ip := (C.setupPodNetwork pid name ip).unnoted
  loopbackOnly pid := (C.loopbackOnly pid).unnoted
  removeDirAll dir rt := C.removeDirAll dir rt.1
  deleteLink name rt := C.deleteLink name rt.1
  now rt := C.now rt.1
  sleep micros rt := C.sleep micros rt.1

/-! ## What is left alone -/

/-- The containers that are in use, apart from those with the ids `own`, are left alone. -/
structure Spares (inUse : ρ → Set String) (own : Set String) (rt rt' : ρ × Trace) : Prop where
  used : ∀ id ∉ own, id ∈ inUse rt.1 → id ∈ inUse rt'.1
  made : ∀ id ∉ own, id ∈ inUse rt.1 → rt'.2.made id = rt.2.made id
  failed : rt.2.failed = true → rt'.2.failed = true

instance : Std.Refl (Spares inUse own) where
  refl _ := ⟨fun _ _ h => h, fun _ _ _ => rfl, fun h => h⟩

instance : IsTrans (ρ × Trace) (Spares inUse own) where
  trans _ _ _ h h' :=
    ⟨fun id hid hused => h'.used id hid (h.used id hid hused),
      fun id hid hused => (h'.made id hid (h.used id hid hused)).trans (h.made id hid hused),
      fun hfailed => h'.failed (h.failed hfailed)⟩

theorem Spares.refl (rt : ρ × Trace) : Spares inUse own rt rt := Std.Refl.refl rt

theorem Spares.trans (h : Spares inUse own rt rt') (h' : Spares inUse own rt' rt'') :
    Spares inUse own rt rt'' := IsTrans.trans _ _ _ h h'

theorem Spares.mono {own' : Set String} (h : Spares inUse own rt rt') (hown : own ⊆ own') :
    Spares inUse own' rt rt' :=
  ⟨fun id hid => h.used id (mt (hown ·) hid), fun id hid => h.made id (mt (hown ·) hid), h.failed⟩

/-- Neither the ids nor the notes change. -/
theorem Spares.of_eq (hused : inUse rt'.1 = inUse rt.1) (htrace : rt'.2.made = rt.2.made)
    (hfailed : rt'.2.failed = rt.2.failed) : Spares inUse own rt rt' :=
  ⟨fun _ _ h => hused ▸ h, fun id _ _ => congrFun htrace id, fun h => hfailed ▸ h⟩

theorem Leaves.spares (h : Leaves inUse x) : Keeps (Spares inUse own) (MyK8s.Kubelet.unnoted x) :=
  .of_wp fun rt => wp_unnoted.mpr (wp_mono (h.wp rt.1) (fun _ _ hr => .of_eq hr rfl rfl)
    fun _ _ hr => .of_eq hr rfl rfl)

theorem RuntimeContract.removal (C : RuntimeContract host inUse) (own : Set String) :
    Removal host.traced (Spares inUse own) own where
  kill id signal := (C.kill id signal).spares
  state id := (C.state id).spares
  delete id hid force := by
    refine .of_wp fun rt => wp_unnoted.mpr (wp_mono (C.delete id force rt.1) (fun _ r h => ?_) fun _ r h => ?_)
    · refine ⟨fun other hother hused => ?_, fun _ _ _ => rfl, fun h => h⟩
      rw [h]
      exact ⟨hused, fun heq => hother (heq ▸ hid)⟩
    · exact ⟨fun other hother hused => h.1 ⟨hused, fun heq => hother (heq ▸ hid)⟩, fun _ _ _ => rfl,
        fun h => h⟩
  now rt := .of_eq (C.now rt.1) rfl rfl
  sleep micros rt := .of_eq (C.sleep micros rt.1) rfl rfl
  removeDirAll dir rt := .of_eq (C.removeDirAll dir rt.1) rfl rfl
  deleteLink name rt := .of_eq (C.deleteLink name rt.1) rfl rfl

/-! ## Containers that come -/

theorem noted_spares (h : Leaves inUse x) (hmade : ∀ t, (note t).made = t.made)
    (hfailed : ∀ t, (note t).failed = t.failed) : Keeps (Spares inUse own) (noted note x) := by
  refine .of_wp fun rt => wp_noted.mpr (wp_mono (h.wp rt.1) (fun _ r hr => ?_) fun _ r hr => ?_)
  · exact .of_eq hr (hmade rt.2) (hfailed rt.2)
  · exact ⟨fun _ _ hused => hr.symm ▸ hused, fun _ _ _ => rfl, fun _ => rfl⟩

theorem createContainer_spares (C : RuntimeContract host inUse) (id : String) (dir : Path) :
    Keeps (Spares inUse own) (host.traced.createContainer id dir) := by
  refine .of_wp fun rt => ?_
  rw [traced_createContainer, wp_noted]
  refine wp_mono (C.create id dir rt.1) (fun _ r h => ?_) fun _ r h => ?_
  · refine ⟨fun other _ hused => h.2 ▸ Set.mem_insert_of_mem _ hused, fun other _ hused => ?_, fun h => h⟩
    -- The id was free, so that it is none of those in use.
    exact Function.update_of_ne (ne_of_mem_of_not_mem hused h.1) ..
  · exact ⟨fun _ _ hused => h.2.symm ▸ hused, fun _ _ _ => rfl, fun _ => rfl⟩

theorem startContainer_spares (C : RuntimeContract host inUse) (id : String) :
    Keeps (Spares inUse own) (host.traced.startContainer id) :=
  noted_spares (C.start id) (fun _ => rfl) fun _ => rfl

theorem writeBundle_spares (C : RuntimeContract host inUse) (container : Container)
    (dir rootfsBase : Path) (shareFrom : Option ℕ) :
    Keeps (Spares inUse own) (host.traced.writeBundle container dir rootfsBase shareFrom) := by
  rw [traced_writeBundle]
  exact noted_spares (C.writeBundle _ _ _ _) (fun _ => rfl) fun _ => rfl

namespace PodSandbox

variable {sandbox : PodSandbox} {container : Container}

theorem create_spares (C : RuntimeContract host inUse) (podIp : Option String) :
    Keeps (Spares inUse own) (sandbox.create host.traced podIp) := by
  unfold create
  refine (writeBundle_spares C _ _ _ _).adapt.bind fun _ => ?_
  refine (createContainer_spares C _ _).adapt.bind fun _ => ?_
  refine (startContainer_spares C _).adapt.bind fun _ => ?_
  refine (C.pid _).spares.adapt.bind fun pid => ?_
  cases pid with
  | none => exact .throw _
  | some pid =>
    have hnetwork : Keeps (Spares inUse own) (sandbox.configureNetwork host.traced pid podIp) := by
      cases podIp with
      | some ip => exact (C.setupPodNetwork _ _ _).spares.adapt
      | none => exact (C.loopbackOnly pid).spares.adapt
    exact hnetwork.bind fun _ => .pure _

theorem addContainer_spares (C : RuntimeContract host inUse) :
    Keeps (Spares inUse own) (sandbox.addContainer host.traced container) := by
  unfold addContainer
  cases sandbox.pausePid with
  | none => exact .throw _
  | some pausePid =>
    refine (writeBundle_spares C _ _ _ _).adapt.bind fun _ => ?_
    refine (createContainer_spares C _ _).adapt.bind fun _ => ?_
    exact (startContainer_spares C _).adapt.bind fun _ => .pure _

/-- A container that is added has been created from its command. Where that fails, a call has failed. -/
theorem addContainer_made (C : RuntimeContract host inUse) (hpause : sandbox.pausePid.isSome) :
    wp (sandbox.addContainer host.traced container)
      (fun _ rt' => sandbox.containerIdFor container.name ∈ inUse rt'.1 ∧
        rt'.2.made (sandbox.containerIdFor container.name) = some container.command)
      (fun _ rt' => rt'.2.failed = true) rt := by
  obtain ⟨pausePid, hpausePid⟩ := Option.isSome_iff_exists.mp hpause
  unfold addContainer
  rw [hpausePid]
  simp only [wp_bind, wp_addContext, wp_withContext, wp_pure, traced_createContainer,
    traced_startContainer, traced_writeBundle, wp_noted]
  refine wp_of_forall (fun _ r₁ => ?_) fun _ _ => trivial
  refine wp_mono (C.create _ _ r₁) (fun _ r₂ h₂ => ?_) fun _ _ _ => trivial
  refine wp_mono ((C.start _).wp r₂) (fun _ r₃ h₃ => ⟨?_, by simp⟩) fun _ _ _ => trivial
  rw [h₃, h₂.2]
  exact Set.mem_insert ..

end PodSandbox

end MyK8s.Kubelet
