import MyK8s.ApiServer.Assignments
import MyK8s.ApiServer.Listing
import MyK8s.Controller.ReplicaSets

/-!
# One controller per pod

Reconciles of ReplicaSets run side by side, with placements, status writes and deletes in between.
Each adopts pods as it has found them in a list, and that may be long ago.

A version stands for one content of a pod (`Kept.agree`). An adoption names the version of the copy
that it was decided on, so it takes effect on just that content, and there nobody had adopted the pod
(`one_controller`).
-/

namespace MyK8s.Controller.ReplicaSets

open ApiServer
open ResourceMeta (getMeta)
open Process (Proc)
open Serde (StringMap)

/-! ## Those who run side by side -/

inductive Actor
  | reconcile (draws : ℕ → Draw) (rsName : String)
  | bind (path : WritePath) (podName nodeName : String)
  | schedule (path : WritePath) (age : String → Option ℤ) (podName : String)
  | replaceStatus (k : Kind) (name : String) (rv : Option String) (status : k.Status)
  | delete (k : Kind) (name : String) (rv : Option String)

namespace Actor

def code : Actor → Proc Db ApiCall ApiCall.Reply Unit
  | reconcile draws rsName => do let _ ← (ReplicaSets.reconcile draws rsName).run
  | bind path podName nodeName => (Request.bind path podName nodeName).code
  | schedule path age podName => (Request.schedule path age podName).code
  | replaceStatus k name rv status => (Request.replaceStatus k name rv status).code
  | delete k name rv => (Request.delete k name rv).code

/-- The system after the acts, from a store. -/
def run (db : Db) (acts : List (Process.Act Actor ApiError)) : Api :=
  Process.System.run code ApiCall.exec (fun e _ => .error e) (Process.System.init db) acts

end Actor

/-! ## What they write -/

def controllers (pod : Pod) : List OwnerReference :=
  pod.metadata.ownerReferences.filter fun o => o.controller

/-- The pod has been read under the name, and it is written with the version that was read. It has
the owners that it had, or one more if nobody controlled it. -/
structure CopyOf (name : String) (read pod : Pod) : Prop where
  named : pod.metadata.name = name
  version : pod.metadata.resourceVersion = read.metadata.resourceVersion
  owners : controllers pod = controllers read ∨
    controllers read = [] ∧ ∃ ref, controllers pod = [ref]

/-- What the actors write, by what they have read. -/
def Careful (seen : List Db) : ApiCall → Prop
  | ⟨.pod, .create (obj : Pod)⟩ => (controllers obj).length ≤ 1
  | ⟨.pod, .replaceSpec name (obj : Pod)⟩ => (∀ db ∈ seen, WellFormed db) →
    ∃ db ∈ seen, ∃ read, stored .pod db name = some read ∧ CopyOf name read obj
  | ⟨_, .replaceStatus _ _ _⟩ => True
  | ⟨_, .delete _ _⟩ => True
  | _ => False

theorem controllers_podFromTemplate (rs : ReplicaSet) (suffix : String) :
    controllers (podFromTemplate rs suffix) = [ownerRef rs] := rfl

theorem controllers_adopted {pod : Pod} {rs : ReplicaSet} (h : canAdopt pod rs = true) :
    controllers pod = [] ∧ controllers (adopted pod rs) = [ownerRef rs] := by
  unfold canAdopt hasController at h
  have hnone : controllers pod = [] := by
    refine List.filter_eq_nil_iff.mpr fun o ho hcontroller => ?_
    have hany : pod.metadata.ownerReferences.any (fun o => o.controller) = true :=
      List.any_eq_true.mpr ⟨o, ho, hcontroller⟩
    rw [hany] at h
    cases h
  refine ⟨hnone, ?_⟩
  show (pod.metadata.ownerReferences ++ [ownerRef rs]).filter _ = _
  rw [List.filter_append]
  exact congrArg (· ++ [ownerRef rs]) hnone

section Writes

variable {seen : List Db} {rs : ReplicaSet} {rsName : String}

/-- The pod is among what has been read. -/
def HasRead (seen : List Db) (pod : Pod) : Prop :=
  (∀ db ∈ seen, WellFormed db) → ∃ db ∈ seen, stored .pod db pod.metadata.name = some pod

theorem HasRead.mono {seen seen' : List Db} {pod : Pod} (h : HasRead seen pod)
    (hsub : seen ⊆ seen') : HasRead seen' pod := by
  intro hwf
  obtain ⟨db, hdb, hstored⟩ := h fun db hdb => hwf db (hsub hdb)
  exact ⟨db, hsub hdb, hstored⟩

theorem writes_adopt {pod : Pod} (hadopt : canAdopt pod rs = true) (hread : HasRead seen pod) :
    Proc.writes Careful (fun _ _ => True) (adopt pod rs) seen := by
  obtain ⟨hnone, hone⟩ := controllers_adopted hadopt
  refine Client.writes_request.mpr ?_
  show Proc.writes Careful _ (Handlers.replace .pod Handlers.validatePod _ (adopted pod rs)) seen
  refine Handlers.writes_replace fun _ hwf => ?_
  obtain ⟨db, hdb, hstored⟩ := hread hwf
  exact ⟨db, hdb, pod, hstored, rfl, rfl, .inr ⟨hnone, ownerRef rs, hone⟩⟩

theorem writes_gather (pods : List Pod) (hread : ∀ pod ∈ pods, HasRead seen pod) :
    Proc.writes Careful (fun _ _ => True) (gather rs rsName pods) seen := by
  induction pods generalizing seen with
  | nil => exact Proc.writes_pure.mpr trivial
  | cons pod pods ih =>
    have hrest := ih fun p hp => hread p (List.mem_cons_of_mem pod hp)
    unfold gather
    split_ifs with howned hadopt
    · exact Proc.writes_bind.mpr (Proc.writes_mono (fun _ _ _ => Proc.writes_pure.mpr trivial) hrest)
    · refine Proc.writes_bind.mpr (Client.writes_attempt
        (writes_adopt hadopt (hread pod List.mem_cons_self)) fun seen' r hsub => ?_)
      have hrest' := ih fun p hp => (hread p (List.mem_cons_of_mem pod hp)).mono hsub
      cases r <;>
        exact Proc.writes_bind.mpr
          (Proc.writes_mono (fun _ _ _ => Proc.writes_pure.mpr trivial) hrest')
    · exact hrest

theorem writes_createPods (draws : List Draw) :
    Proc.writes Careful (fun _ _ => True) (createPods rs draws) seen := by
  induction draws generalizing seen with
  | nil => exact Proc.writes_pure.mpr trivial
  | cons draw draws ih =>
    unfold createPods
    have hcreate : Proc.writes Careful (fun _ _ => True)
        (Handlers.createPod draw.stamp (podFromTemplate rs draw.suffix)) seen := by
      refine Proc.writes_bind.mpr (Handler.writes_lift.mpr fun _ _ => Handlers.writes_create ?_)
      exact (congrArg List.length (controllers_podFromTemplate rs draw.suffix)).le
    refine Proc.writes_bind.mpr (Client.writes_attempt (Client.writes_request.mpr hcreate) ?_)
    intro seen' r _
    refine Proc.writes_bind.mpr (Proc.writes_mono (fun _ _ _ => ?_) ih)
    cases r <;> exact Proc.writes_pure.mpr trivial

theorem writes_deletePods (pods : List Pod) :
    Proc.writes Careful (fun _ _ => True) (deletePods pods) seen := by
  induction pods generalizing seen with
  | nil => exact Proc.writes_pure.mpr trivial
  | cons pod pods ih =>
    unfold deletePods
    split
    · have hdelete : ∀ rv, Proc.writes Careful (fun _ _ => True)
          (Handlers.deletePod pod.metadata.name (some rv)) seen :=
        fun rv => Request.writes_deleteHandler (k := .pod) fun _ => trivial
      refine Proc.writes_bind.mpr (Client.writes_attempt (Client.writes_request.mpr (hdelete _)) ?_)
      intro seen' r _
      refine Proc.writes_bind.mpr (Proc.writes_mono (fun _ _ _ => ?_) ih)
      cases r <;> exact Proc.writes_pure.mpr trivial
    · exact ih

theorem writes_updateStatus :
    Proc.writes Careful (fun _ _ => True) (updateStatus rsName rs) seen := by
  unfold updateStatus
  refine Proc.writes_bind.mpr ((Client.writes_list (k := .pod)).mpr fun db pods _ => ?_)
  simp only
  split_ifs
  · exact Proc.writes_pure.mpr trivial
  · split
    · refine Proc.writes_bind.mpr (Client.writes_request.mpr ?_)
      exact Proc.writes_mono (fun _ _ _ => Proc.writes_pure.mpr trivial)
        (Request.writes_statusHandler (k := .replicaSet) fun _ => trivial)
    · exact Proc.writes_pure.mpr trivial

/-- **A reconcile is careful.** -/
theorem writes_reconcile (draws : ℕ → Draw) (rsName : String) :
    Proc.writes Careful (fun _ _ => True) (reconcile draws rsName) seen := by
  unfold reconcile
  refine Proc.writes_bind.mpr (Client.writes_get.mpr fun first o _ => ?_)
  cases o with
  | none =>
    refine Proc.writes_bind.mpr ((Client.writes_list (k := .pod)).mpr fun db pods _ => ?_)
    exact writes_deletePods _
  | some rs =>
    refine Proc.writes_bind.mpr ((Client.writes_list (k := .pod)).mpr fun db pods hpods => ?_)
    have hread : ∀ pod ∈ pods, HasRead (db :: first :: seen) pod := fun pod hpod hwf =>
      ⟨db, List.mem_cons_self, ((hwf db List.mem_cons_self).mem_items hpods).mp hpod⟩
    refine Proc.writes_bind.mpr (Proc.writes_mono (fun seen' found _ => ?_) (writes_gather pods hread))
    obtain ⟨owned, errors⟩ := found
    have hend : ∀ seen errors', Proc.writes Careful (fun _ _ => True)
        (updateStatus rsName rs >>= fun _ => pure (errors ++ errors')) seen := fun seen errors' =>
      Proc.writes_bind.mpr
        (Proc.writes_mono (fun _ _ _ => Proc.writes_pure.mpr trivial) writes_updateStatus)
    simp only
    split_ifs
    · exact Proc.writes_bind.mpr (Proc.writes_mono (fun _ _ _ => hend _ _) (writes_createPods _))
    · exact Proc.writes_bind.mpr (Proc.writes_mono (fun _ _ _ => hend _ _) (writes_deletePods _))
    · exact Proc.writes_bind.mpr (Proc.writes_pure.mpr (hend _ _))

end Writes

theorem wp_careful_bindPod {path : WritePath} {podName nodeName : String} {seen : List Db} :
    Proc.writes Careful (fun _ _ => True) (Handlers.bindPod path podName nodeName) seen := by
  refine Handlers.writes_bindPod fun db pod hget hwf => ?_
  have hdb := hwf db List.mem_cons_self
  rw [hdb.get_eq] at hget
  have hstored := Except.ok.inj hget
  exact ⟨db, List.mem_cons_self, pod, hstored, (hdb.stored_eq_some.mp hstored).1, rfl, .inl rfl⟩

theorem Actor.wp_careful (actor : Actor) : Proc.wp Careful (fun _ _ => True) actor.code [] := by
  cases actor with
  | reconcile draws rsName => exact wp_discard (writes_reconcile draws rsName)
  | bind path podName nodeName => exact wp_discard wp_careful_bindPod
  | schedule path age podName =>
    exact wp_discard (Scheduler.writes_schedule fun _ _ => wp_careful_bindPod)
  | replaceStatus k name rv status =>
    exact wp_discard (Request.writes_statusHandler fun _ => by cases k <;> trivial)
  | delete k name rv =>
    exact wp_discard (Request.writes_deleteHandler fun _ => by cases k <;> trivial)

/-! ## The history -/

/-- No pod has two controllers. -/
def OneController (db : Db) : Prop :=
  ∀ name pod, stored .pod db name = some pod → (controllers pod).length ≤ 1

/-- All states so far. Under one name, one version has one set of controllers. -/
structure Kept (now : Db) (past : List Db) : Prop where
  wellFormed : ∀ db ∈ now :: past, WellFormed db
  counted : ∀ db ∈ now :: past, currentRv db ≤ currentRv now
  agree : ∀ db ∈ now :: past, ∀ db' ∈ now :: past, ∀ (name : String) (pod pod' : Pod),
    stored .pod db name = some pod → stored .pod db' name = some pod' →
      pod.metadata.resourceVersion = pod'.metadata.resourceVersion →
        controllers pod = controllers pod'
  one : ∀ db ∈ now :: past, OneController db

theorem Kept.start {db : Db} (hwf : WellFormed db) (hone : OneController db) : Kept db [] := by
  have hall : ∀ {P : Db → Prop}, P db → ∀ s ∈ [db], P s := by
    intro P h s hs
    obtain rfl := List.mem_singleton.mp hs
    exact h
  refine ⟨hall hwf, hall le_rfl, hall (hall fun name pod pod' h h' _ => ?_), hall hone⟩
  rw [Option.some.inj (h.symm.trans h')]

/-- **One more state**, whose pods are as before or have a version that none had before. -/
theorem Kept.add {now next : Db} {past : List Db} (h : Kept now past) (hwf : WellFormed next)
    (hle : currentRv now ≤ currentRv next)
    (hnext : ∀ (name : String) (pod : Pod), stored .pod next name = some pod →
      stored .pod now name = some pod ∨
        currentRv now < @resourceRv Kind.pod.Obj _ pod ∧ (controllers pod).length ≤ 1) :
    Kept next (now :: past) := by
  have hnow : now ∈ now :: past := List.mem_cons_self
  -- a version that is new is above those of all states before
  have hfresh : ∀ db ∈ now :: past, ∀ (name : String) (pod pod' : Pod),
      stored .pod next name = some pod → stored .pod db name = some pod' →
        pod.metadata.resourceVersion = pod'.metadata.resourceVersion →
          controllers pod = controllers pod' := by
    intro db hdb name pod pod' hpod hpod' hversion
    rcases hnext name pod hpod with hold | ⟨hlt, -⟩
    · exact h.agree now hnow db hdb name pod pod' hold hpod' hversion
    · have hbound := ((h.wellFormed db hdb).resourceRv_stored hpod').2
      have hcount := h.counted db hdb
      have hsame : @resourceRv Kind.pod.Obj _ pod = @resourceRv Kind.pod.Obj _ pod' := by
        show (pod.metadata.resourceVersion.bind parseU64).getD 0 = _
        rw [hversion]
        rfl
      omega
  constructor
  case wellFormed => exact List.forall_mem_cons.mpr ⟨hwf, h.wellFormed⟩
  case counted => exact List.forall_mem_cons.mpr ⟨le_rfl, fun db hdb => (h.counted db hdb).trans hle⟩
  case one =>
    refine List.forall_mem_cons.mpr ⟨fun name pod hpod => ?_, h.one⟩
    rcases hnext name pod hpod with hold | ⟨-, hone⟩
    · exact h.one now hnow name pod hold
    · exact hone
  case agree =>
    intro db hdb db' hdb' name pod pod' hpod hpod' hversion
    rcases List.mem_cons.mp hdb with rfl | hold <;> rcases List.mem_cons.mp hdb' with rfl | hold'
    · rw [Option.some.inj (hpod.symm.trans hpod')]
    · exact hfresh db' hold' name pod pod' hpod hpod' hversion
    · exact (hfresh db hold name pod' pod hpod' hpod hversion.symm).symm
    · exact h.agree db hold db' hold' name pod pod' hpod hpod' hversion

theorem Careful.addressed {seen : List Db} {call : ApiCall} (h : Careful seen call)
    (hwf : ∀ db ∈ seen, WellFormed db) : call.op.storeOp.Addressed := by
  obtain ⟨k, op⟩ := call
  cases op with
  | create obj => trivial
  | delete name rv => trivial
  | replaceStatus name rv status =>
    exact fun obj => congrArg ObjectMeta.name (k.getMeta_setStatus status obj)
  | replaceSpec name obj =>
    cases k with
    | pod =>
      obtain ⟨db, -, read, -, hcopy⟩ := h hwf
      exact hcopy.named
    | _ => cases h

/-- A pod that a careful call writes has one controller at most. -/
theorem Kept.one_effect {now : Db} {past seen : List Db} (h : Kept now past)
    (hseen : seen ⊆ now :: past) {op : ApiOp .pod} (hcareful : Careful seen ⟨.pod, op⟩)
    {base : Kind.pod.Obj} (hbase : op.storeOp.StartsFrom now base) :
    (controllers (op.storeOp.effect now base).1).length ≤ 1 := by
  have hnow : now ∈ now :: past := List.mem_cons_self
  have hone : ∀ name, loadRequired Kind.pod.Obj now name = .ok base →
      (controllers base).length ≤ 1 :=
    fun name hload => h.one now hnow name base (stored_eq_some_iff.mpr hload)
  cases op with
  | create obj => exact hcareful
  | replaceStatus name rv status => exact hone name hbase.1
  | delete name rv => exact hone name hbase.1
  | replaceSpec name obj =>
    obtain ⟨db, hdb, read, hread, hcopy⟩ := hcareful fun db hdb => h.wellFormed db (hseen hdb)
    have hstored : stored .pod now name = some base := stored_eq_some_iff.mpr hbase.1
    -- the copy has the version of what is stored, so it has its controllers
    have hversion : read.metadata.resourceVersion = (getMeta base).resourceVersion :=
      hcopy.version.symm.trans
        (hbase.2.trans ((h.wellFormed now hnow).resourceVersion_eq hstored).symm)
    have hsame := h.agree db (hseen hdb) now hnow name read base hread hstored hversion
    show (controllers obj).length ≤ 1
    rcases hcopy.owners with heq | ⟨-, ref, heq⟩
    · rw [heq, hsame]
      exact hone name hbase.1
    · rw [heq]
      exact le_rfl

/-- **One act** of an actor. -/
theorem Kept.step {now : Db} {past seen : List Db} (h : Kept now past) (hseen : seen ⊆ now :: past)
    {call : ApiCall} (hcareful : Careful seen call) (hlt : currentRv (call.exec now).2 < u64Max) :
    Kept (call.exec now).2 (now :: past) := by
  have hnow : now ∈ now :: past := List.mem_cons_self
  rw [ApiCall.exec_snd] at hlt ⊢
  have hle : currentRv now ≤ currentRv (StoreCall.step now (call.storeCall, Faults.none)) :=
    stores_lawful.count_le now _
  have haddressed : call.storeCall.op.Addressed :=
    hcareful.addressed fun db hdb => h.wellFormed db (hseen hdb)
  have hwf := (h.wellFormed now hnow).step haddressed Faults.none
  refine h.add hwf hle fun name pod hpod => ?_
  by_cases hbase : ∃ base, call.op.storeOp.StartsFrom now base
  swap
  · exact .inl ((congrArg (stored .pod · name) (step_of_not_startsFrom hbase)).symm.trans hpod)
  obtain ⟨base, hbase⟩ := hbase
  obtain ⟨k, op⟩ := call
  by_cases hk : k = .pod
  swap
  · exact .inl ((hbase.stored_step_of_ne hk name).symm.trans hpod)
  subst hk
  have hleft := (hbase.stored_step name).symm.trans hpod
  split at hleft
  swap
  · exact .inl hleft
  right
  -- what has been written has the next version
  have hwritten : (op.storeOp.effect now base).1 = pod := by
    cases op with
    | delete name rv => cases hleft
    | _ => exact Option.some.inj hleft
  subst hwritten
  refine ⟨?_, h.one_effect hseen hcareful hbase⟩
  have hcount : currentRv now < u64Max := hle.trans_lt hlt
  have hrv := op.storeOp.resourceVersion_effect now base
  rw [saturatingSucc_of_lt hcount] at hrv
  rw [resourceRv_of_toString hcount hrv]
  exact Nat.lt_succ_self _

/-- **One controller per pod.** From every store in which no pod has two controllers, whoever
reconciles, places, reports and deletes, and however their calls interleave, no pod ever has two. -/
theorem one_controller (db : Db) (hwf : WellFormed db) (hone : OneController db)
    (acts : List (Process.Act Actor ApiError)) (hmax : currentRv (Actor.run db acts).now < u64Max) :
    ∀ s ∈ (Actor.run db acts).states, OneController s := by
  let J : List Db → Prop
    | [] => True
    | now :: past => currentRv now < u64Max → Kept now past
  have hnext : ∀ (call : ApiCall) now past seen, seen ⊆ now :: past → Careful seen call →
      J (now :: past) → J ((call.exec now).2 :: now :: past) := by
    intro call now past seen hseen hcareful hJ hlt
    have hle : currentRv now ≤ currentRv (call.exec now).2 := by
      rw [ApiCall.exec_snd]
      exact stores_lawful.count_le now _
    exact (hJ (hle.trans_lt hlt)).step hseen hcareful hlt
  have hkept : J (Actor.run db acts).states :=
    Process.System.history (J := J) (fun _ => Kept.start hwf hone) hnext
      fun actor _ => actor.wp_careful
  exact (hkept hmax).one

theorem OneController.of_items {db : Db} (hwf : WellFormed db) {pods : List Kind.pod.Obj}
    (hitems : ResourceStore.items Kind.pod.Obj db = .ok pods)
    (h : ∀ pod ∈ pods, (controllers pod).length ≤ 1) : OneController db := by
  intro name pod hpod
  refine h pod ((hwf.mem_items hitems).mpr ?_)
  rw [(hwf.stored_eq_some.mp hpod).1]
  exact hpod

/-- A ReplicaSet that wants one pod with the label. -/
def sampleReplicaSet (name : String) : ReplicaSet where
  apiVersion := "apps/v1"
  kind := "ReplicaSet"
  metadata := (samplePod name none none).metadata
  spec :=
    { replicas := 1
      selector := ⟨(∅ : StringMap).insert "app" "web"⟩
      template := ⟨⟨(∅ : StringMap).insert "app" "web"⟩, ⟨[⟨"c", "busybox", []⟩], none⟩⟩ }
  status := none

/-- A pod with the label that nobody controls. -/
def orphan : Pod :=
  let pod := samplePod "web" none none
  { pod with metadata := { pod.metadata with labels := (∅ : StringMap).insert "app" "web" } }

def orphanCalls : List (StoreCall × Faults) :=
  [(⟨.replicaSet, .createPrestamped (sampleReplicaSet "a")⟩, .none),
    (⟨.replicaSet, .createPrestamped (sampleReplicaSet "b")⟩, .none),
    (⟨.pod, .createPrestamped orphan⟩, .none)]

theorem wellFormed_orphanCalls : WellFormed (dbAfter orphanCalls) := by
  refine WellFormed.empty.foldl fun call hcall => ?_
  simp only [orphanCalls, List.mem_cons, List.not_mem_nil, or_false] at hcall
  rcases hcall with rfl | rfl | rfl <;> trivial

theorem oneController_orphanCalls : OneController (dbAfter orphanCalls) := by
  have hwf := wellFormed_orphanCalls
  obtain ⟨pods, hitems, -⟩ := hwf.items_ok .pod
  have hall : (ResourceStore.items Kind.pod.Obj (dbAfter orphanCalls)).toOption.map
      (fun pods => pods.all fun pod => (controllers pod).length ≤ 1) = some true := by decide +kernel
  rw [hitems] at hall
  have hone := List.all_eq_true.mp (Option.some.inj hall)
  exact OneController.of_items hwf hitems fun pod hpod => of_decide_eq_true (hone pod hpod)

/-- Both ReplicaSets list the pod before either adopts it. -/
def race : List (Process.Act Actor ApiError) :=
  let draws : ℕ → Draw := fun _ => ⟨"0", sampleStamp⟩
  [.start (.reconcile draws "a"), .start (.reconcile draws "b"), .read 0 0, .read 0 0, .read 1 0,
    .read 1 0, .write 0, .write 1]

/-- The first one has it. -/
theorem one_controller_race : OneController (Actor.run (dbAfter orphanCalls) race).now ∧
    (stored .pod (Actor.run (dbAfter orphanCalls) race).now "web").map
      (fun pod => (controllers pod).map (·.name)) = some ["a"] :=
  ⟨one_controller _ wellFormed_orphanCalls oneController_orphanCalls race (by decide +kernel) _
    List.mem_cons_self, by decide +kernel⟩

end MyK8s.Controller.ReplicaSets
