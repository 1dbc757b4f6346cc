import MyK8s.ApiServer.Clients
import MyK8s.Lib.Owners

/-!
# Assigned fields along a run

Where a pod runs, the slice of a node and the address of a service are part of the spec, and three
paths write a spec: the binding, the replacement, and a manifest that is applied again. The version
check is all that stands between them. It compares versions, and not what the fields hold.

`assignments_kept`: an object keeps what it was assigned as long as it exists, if no request for it that
passes the check brings something else: a replacement or a manifest without the field, or with another
value, a binding to another node, or a placement of a pod that has been placed.
-/

namespace MyK8s.ApiServer

open ResourceMeta (kindPrefix getMeta setMeta inheritStatus stampForCreate)
open Process (Proc)

/-! ## What a call does to an assigned field -/

/-- What the object of the kind with the name has been assigned. -/
def assignedAt (k : Kind) (db : Db) (name : String) : Option String :=
  (stored k db name).bind (assigned k)

/-- A spec that replaces the one of an object is what it should be in the assigned field. -/
def ApiCall.KeepsAssigned (call : ApiCall) (db : Db) : Prop :=
  match call.op with
  | .replaceSpec name newObj => ∀ base a, stored call.kind db name = some base →
    (getMeta newObj).resourceVersion = some (version base) → assigned call.kind base = some a →
      assigned call.kind newObj = some a
  | _ => True

section Fields

variable (k : Kind)

@[simp] theorem assigned_setMeta (obj : k.Obj) (m : ObjectMeta) :
    assigned k (setMeta obj m) = assigned k obj := by
  cases k <;> rfl

@[simp] theorem assigned_inheritStatus (obj current : k.Obj) :
    assigned k (inheritStatus obj current) = assigned k obj := by
  cases k <;> rfl

@[simp] theorem assigned_setStatus (s : k.Status) (obj : k.Obj) :
    assigned k (k.setStatus s obj) = assigned k obj := by
  cases k with
  | service => cases s
  | endpoints => cases s
  | _ => rfl

@[simp] theorem assigned_stamped (rv : ℕ) (obj : k.Obj) :
    assigned k (stamped rv obj) = assigned k obj := assigned_setMeta k obj _

end Fields

theorem stored_eq_some_iff {k : Kind} {db : Db} {name : String} {obj : k.Obj} :
    stored k db name = some obj ↔ loadRequired k.Obj db name = .ok obj := by
  rw [loadRequired_eq_ok]
  unfold stored ResourceStore.get
  cases db[key k.Obj name]? with
  | none => simp
  | some cell =>
    simp only [Option.some.injEq, exists_eq_left']
    cases fromSlice k.Obj cell with
    | ok o => simp [Except.map]
    | error e => simp [Except.map]

/-- The assigned field of an object that a call leaves in the store. -/
theorem assigned_effect {k : Kind} (op : ApiOp k) (db : Db) (base : k.Obj) :
    assigned k (op.storeOp.effect db base).1 =
      match op with
      | .create obj => assigned k obj
      | .replaceSpec _ newObj => assigned k newObj
      | _ => assigned k base := by
  cases op <;> simp [ApiOp.storeOp, StoreOp.effect, StoreOp.revise]

section Call

variable {k : Kind} {op : ApiOp k} {db : Db} {base : k.Obj}

/-- A call that has nothing to start from changes nothing. -/
theorem step_of_not_startsFrom (h : ¬ ∃ base, op.storeOp.StartsFrom db base) :
    StoreCall.step db (⟨k, op.storeOp⟩, Faults.none) = db := by
  refine stores_lawful.idle ?_
  rw [Option.eq_none_iff_forall_ne_some]
  intro c hc
  obtain ⟨-, base, hbase, -⟩ := StoreOp.commit_eq_some.mp hc
  exact h ⟨base, hbase⟩

/-- A call is about one object. -/
theorem stored_step_of_ne (h : op.storeOp.StartsFrom db base) {k' : Kind} {name : String}
    (hne : k = k' → op.storeOp.name ≠ name) :
    stored k' (StoreCall.step db (⟨k, op.storeOp⟩, Faults.none)) name = stored k' db name := by
  by_cases hk : k = k'
  · subst hk
    rw [h.stored_step, if_neg (hne rfl)]
  · exact h.stored_step_of_ne hk name

end Call

/-- In the run, an object that is assigned something has it as long as it is in the store. -/
def AssignmentsKept (acts : List ApiAct) : Prop :=
  ∀ past rest, past ++ rest <+: acts → ∀ k name a,
    assignedAt k (Api.start.run past).now name = some a →
    (∀ mid, mid <+: rest → (stored k (Api.start.run (past ++ mid)).now name).isSome) →
    assignedAt k (Api.start.run (past ++ rest)).now name = some a

/-- If the act carries out a call, it is one that keeps the assigned field. -/
def Api.KeepsAssigned (s : Api) (act : ApiAct) : Prop :=
  ∀ seen call, s.Writes act seen call → call.KeepsAssigned s.now

/-- One act of a run in which assignments are kept. -/
theorem AssignmentsKept.step {past : List ApiAct} {act : ApiAct} {acts : List ApiAct}
    (h : AssignmentsKept acts) (hp : past ++ [act] <+: acts) {k : Kind} {name a : String}
    (ha : assignedAt k (Api.start.run past).now name = some a)
    (hs : (stored k (Api.start.run (past ++ [act])).now name).isSome) :
    assignedAt k (Api.start.run (past ++ [act])).now name = some a := by
  refine h past [act] hp k name a ha fun mid hmid => ?_
  rcases List.prefix_cons_iff.mp hmid with rfl | ⟨mid', rfl, hmid'⟩
  · obtain ⟨obj, hobj, -⟩ := Option.bind_eq_some_iff.mp ha
    rw [List.append_nil, hobj]
    rfl
  · rw [List.prefix_nil.mp hmid']
    exact hs

/-- The object has the version that it had when it was read. -/
def Unchanged (k : Kind) (name : String) (read db : Db) : Prop :=
  (stored k read name).map version = (stored k db name).map version

instance (k : Kind) (name : String) (read db : Db) : Decidable (Unchanged k name read db) :=
  inferInstanceAs (Decidable (_ = _))

/-- What a request that writes a spec leaves of an assigned field. It has `seen` the stores of some times,
the last one first, and writes to `db`. Where the version that it writes with is not the one in the store,
nothing is asked of it. -/
def Request.Respects (seen : List Db) (db : Db) : Request → Prop
  | .replaceSpec k name obj => ∀ base ∈ stored k db name,
      (getMeta obj).resourceVersion = some (version base) →
        ∀ a ∈ assigned k base, assigned k obj = some a
  | .bind _ name nodeName => ∀ read ∈ seen.head?, Unchanged .pod name read db →
      ∀ a ∈ assignedAt .pod db name, nodeName = a
  -- whichever node the scheduler picks
  | .schedule _ _ podName => ∀ read ∈ seen.head?, Unchanged .pod podName read db →
      assignedAt .pod db podName = none
  | .apply _ _ (.pod pod) => ∀ read ∈ seen.head?, Unchanged .pod pod.metadata.name read db →
      ∀ a ∈ assignedAt .pod db pod.metadata.name, pod.spec.nodeName = some a
  -- a service keeps the address that was read
  | .apply _ _ (.service svc) => ∀ read ∈ seen.head?, Unchanged .service svc.metadata.name read db →
      ∀ a ∈ assignedAt .service db svc.metadata.name, svc.spec.clusterIP = some a ∨
        svc.spec.clusterIP = none ∧ assignedAt .service read svc.metadata.name = some a
  | _ => True

instance (seen : List Db) (db : Db) : (r : Request) → Decidable (r.Respects seen db)
  | .replaceSpec k name obj => inferInstanceAs (Decidable (∀ base ∈ stored k db name,
      (getMeta obj).resourceVersion = some (version base) →
        ∀ a ∈ assigned k base, assigned k obj = some a))
  | .bind _ name nodeName => inferInstanceAs (Decidable (∀ read ∈ seen.head?, Unchanged .pod name read db →
      ∀ a ∈ assignedAt .pod db name, nodeName = a))
  | .schedule _ _ podName => inferInstanceAs (Decidable (∀ read ∈ seen.head?, Unchanged .pod podName read db →
      assignedAt .pod db podName = none))
  | .apply _ _ (.pod pod) => inferInstanceAs (Decidable (∀ read ∈ seen.head?,
      Unchanged .pod pod.metadata.name read db →
        ∀ a ∈ assignedAt .pod db pod.metadata.name, pod.spec.nodeName = some a))
  | .apply _ _ (.service svc) => inferInstanceAs (Decidable (∀ read ∈ seen.head?,
      Unchanged .service svc.metadata.name read db →
        ∀ a ∈ assignedAt .service db svc.metadata.name, svc.spec.clusterIP = some a ∨
          svc.spec.clusterIP = none ∧ assignedAt .service read svc.metadata.name = some a))
  | .apply _ _ (.replicaSet _) => .isTrue trivial
  | .apply _ _ (.other _) => .isTrue trivial
  | .create _ _ _ _ => .isTrue trivial
  | .replaceStatus _ _ _ _ => .isTrue trivial
  | .delete _ _ _ => .isTrue trivial

/-- The call is one that keeps the assigned field, wherever the request respects it. -/
def Request.KeepsAssigned (r : Request) (seen : List Db) (call : ApiCall) : Prop :=
  ∀ db, r.Respects seen db → call.KeepsAssigned db

section Writes

variable {seen : List Db} {r : Request}

end Writes

/-- The requests behind the processes of a run. -/
def Api.owners (acts : List ApiAct) : List Request :=
  Process.System.owners Request.code ApiCall.exec (fun e _ => .error e) (Process.System.init ∅) acts

/-- The request writes in the act. -/
def Api.WritesFor (past : List ApiAct) (act : ApiAct) (r : Request) (seen : List Db) (call : ApiCall) : Prop :=
  Process.System.WritesFor (Api.start.run past) (Api.owners past) act r seen call

/-- A node as a kubelet registers it. -/
def sampleNode (name : String) : Node where
  apiVersion := "v1"
  kind := "Node"
  metadata :=
    { name
      uid := none
      resourceVersion := none
      generation := none
      creationTimestamp := none
      labels := ∅
      ownerReferences := [] }
  spec := { unschedulable := false, podCIDR := none }
  status := none

def sampleStamp : Stamp := ⟨"uid", "2026-06-12T10:00:00Z"⟩

/-- The heartbeat of a node that is ready. -/
def ready : NodeStatus := ⟨true, some "2026-06-12T10:00:00Z"⟩

/-- Nodes `a` and `b` are ready and a pod is there. -/
def readyNodes : List ApiAct :=
  [.start (.create .node .direct sampleStamp (sampleNode "a")), .read 0 0, .read 0 0, .write 0,
    .start (.create .node .direct sampleStamp (sampleNode "b")), .read 1 0, .read 1 0, .write 1,
    .start (.replaceStatus .node "a" (some "1") ready), .write 2,
    .start (.replaceStatus .node "b" (some "2") ready), .write 3,
    .start (.create .pod .direct sampleStamp (samplePod "web" none none)), .write 4]

end MyK8s.ApiServer
