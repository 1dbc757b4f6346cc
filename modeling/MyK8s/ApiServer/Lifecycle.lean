import MyK8s.ApiServer.Handlers
import MyK8s.Lib.Runs

/-!
# The life of an object

What a stored object has from its create, what from the last replacement of its spec, what from the
last status that was set, and what from the store itself. An account is kept of every object from the
replies alone; the stored object is the one that the account gives (`lifecycle_law`).
-/

namespace MyK8s.ApiServer

open ResourceMeta (getMeta setMeta inheritStatus clearStatus stampForCreate)
open Serde (Value)

/-! ## Spec and status of a kind -/

namespace Kind

def Spec : Kind → Type
  | pod => PodSpec
  | replicaSet => ReplicaSetSpec
  | node => NodeSpec
  | service => ServiceSpec
  | endpoints => List EndpointAddress

def specOf : (k : Kind) → k.Obj → k.Spec
  | pod, (p : Pod) => p.spec
  | replicaSet, (r : ReplicaSet) => r.spec
  | node, (n : Node) => n.spec
  | service, (s : Service) => s.spec
  | endpoints, (e : Endpoints) => e.addresses

def statusOf : (k : Kind) → k.Obj → Option k.Status
  | pod, (p : Pod) => p.status
  | replicaSet, (r : ReplicaSet) => r.status
  | node, (n : Node) => n.status
  | service, _ => none
  | endpoints, _ => none

def withStatus : (k : Kind) → Option k.Status → k.Obj → k.Obj
  | pod, s, (p : Pod) => { p with status := s }
  | replicaSet, s, (r : ReplicaSet) => { r with status := s }
  | node, s, (n : Node) => { n with status := s }
  | service, _, s => s
  | endpoints, _, e => e

variable {k : Kind} (s s' : Option k.Status) (obj cur : k.Obj) (m m' : ObjectMeta)

@[simp] theorem getMeta_withStatus : getMeta (k.withStatus s obj) = getMeta obj := by
  cases k <;> rfl

@[simp] theorem specOf_withStatus : k.specOf (k.withStatus s obj) = k.specOf obj := by
  cases k <;> rfl

@[simp] theorem statusOf_withStatus : k.statusOf (k.withStatus s obj) = s := by
  cases k with
  | service => cases s with
    | none => rfl
    | some s => cases s
  | endpoints => cases s with
    | none => rfl
    | some s => cases s
  | _ => rfl

@[simp] theorem specOf_setMeta : k.specOf (setMeta obj m) = k.specOf obj := by
  cases k <;> rfl

@[simp] theorem statusOf_setMeta : k.statusOf (setMeta obj m) = k.statusOf obj := by
  cases k <;> rfl

@[simp] theorem withStatus_setMeta :
    k.withStatus s (setMeta obj m) = setMeta (k.withStatus s obj) m := by
  cases k <;> rfl

@[simp] theorem withStatus_withStatus :
    k.withStatus s (k.withStatus s' obj) = k.withStatus s obj := by
  cases k <;> rfl

@[simp] theorem withStatus_statusOf : k.withStatus (k.statusOf obj) obj = obj := by
  cases k <;> rfl

@[simp] theorem setMeta_setMeta : setMeta (setMeta obj m) m' = setMeta obj m' := by
  cases k <;> rfl

theorem inheritStatus_eq : inheritStatus obj cur = k.withStatus (k.statusOf cur) obj := by
  cases k <;> rfl

theorem clearStatus_eq : clearStatus obj = k.withStatus none obj := by
  cases k <;> rfl

theorem setStatus_eq (s : k.Status) : k.setStatus s obj = k.withStatus (some s) obj := by
  cases k with
  | service => cases s
  | endpoints => cases s
  | _ => rfl

/-- What a payload of a status reads as. -/
def readStatus : (k : Kind) → Value → Option k.Status
  | pod, v => (Serde.fromValue v : Except Serde.Error PodStatus).toOption
  | replicaSet, v => (Serde.fromValue v : Except Serde.Error ReplicaSetStatus).toOption
  | node, v => (Serde.fromValue v : Except Serde.Error NodeStatus).toOption
  | service, _ => none
  | endpoints, _ => none

end Kind

/-! ## Calls -/

/-- A call on the store of a kind. A status is there if the payload reads as one. -/
inductive LifeOp (k : Kind)
  | createPrestamped (obj : k.Obj)
  | replaceSpec (name : String) (newObj : k.Obj)
  | replaceStatus (name rv : String) (status : Option k.Status)
  | delete (name rv : String)

/-- `set_pod_status` and its siblings: a payload that is no status sets none. -/
def Kind.assignStatus (k : Kind) (status : Option k.Status) (obj : k.Obj) : k.Obj :=
  match status with
  | some s => k.setStatus s obj
  | none => obj

namespace LifeOp

variable {k : Kind}

def storeOp : LifeOp k → StoreOp k.Obj
  | createPrestamped obj => .createPrestamped obj
  | replaceSpec name newObj => .replaceSpec name newObj
  | replaceStatus name rv status => .replaceStatus name rv (k.assignStatus status)
  | delete name rv => .delete name rv

/-- The name that the operation addresses. -/
def name (op : LifeOp k) : String := op.storeOp.name

end LifeOp

structure LifeCall where
  kind : Kind
  op : LifeOp kind

namespace LifeCall

def storeCall (call : LifeCall) : StoreCall := ⟨call.kind, call.op.storeOp⟩

end LifeCall

theorem applyOp_db_eq {k : Kind} (notice : WatchEvent k.Obj → Notice) (setStatus : k.Obj → Value → k.Obj)
    (hstatus : ∀ obj v, setStatus obj v = k.assignStatus (k.readStatus v) obj) (faults : Faults)
    (db : Db) (op : Op) :
    (applyOp notice setStatus faults db op).db = db ∨
      ∃ call : LifeCall, (applyOp notice setStatus faults db op).db =
        StoreCall.step db (call.storeCall, faults) := by
  cases op with
  | create obj =>
    unfold applyOp
    simp only
    cases (Serde.fromValue obj : Except Serde.Error k.Obj) with
    | error e => exact .inl rfl
    | ok o => exact .inr ⟨⟨k, .createPrestamped o⟩, rfl⟩
  | replaceSpec name obj =>
    unfold applyOp
    simp only
    cases (Serde.fromValue obj : Except Serde.Error k.Obj) with
    | error e => exact .inl rfl
    | ok o => exact .inr ⟨⟨k, .replaceSpec name o⟩, rfl⟩
  | replaceStatus name rv status =>
    refine .inr ⟨⟨k, .replaceStatus name rv (k.readStatus status)⟩, ?_⟩
    have hmutate : (fun t => setStatus t status) = k.assignStatus (k.readStatus status) := by
      funext obj
      exact hstatus obj status
    show (applied notice (ResourceStore.replaceStatus faults db name rv fun t =>
      setStatus t status)).db = _
    rw [hmutate]
    rfl
  | delete name rv => exact .inr ⟨⟨k, .delete name rv⟩, rfl⟩

/-- A command of the log is such a call, or changes nothing. -/
theorem apply_db_eq (faults : Faults) (db : Db) (cmd : StoreCommand) :
    (apply faults db cmd).db = db ∨
      ∃ call : LifeCall, (apply faults db cmd).db = StoreCall.step db (call.storeCall, faults) := by
  unfold apply
  simp only
  split_ifs
  · refine applyOp_db_eq (k := .pod) _ _ (fun obj v => ?_) faults db cmd.op
    show setPodStatus obj v =
      Kind.pod.assignStatus (Serde.fromValue v : Except Serde.Error PodStatus).toOption obj
    unfold setPodStatus
    cases (Serde.fromValue v : Except Serde.Error PodStatus) <;> rfl
  · refine applyOp_db_eq (k := .replicaSet) _ _ (fun obj v => ?_) faults db cmd.op
    show setRsStatus obj v =
      Kind.replicaSet.assignStatus (Serde.fromValue v : Except Serde.Error ReplicaSetStatus).toOption obj
    unfold setRsStatus
    cases (Serde.fromValue v : Except Serde.Error ReplicaSetStatus) <;> rfl
  · refine applyOp_db_eq (k := .node) _ _ (fun obj v => ?_) faults db cmd.op
    show setNodeStatus obj v =
      Kind.node.assignStatus (Serde.fromValue v : Except Serde.Error NodeStatus).toOption obj
    unfold setNodeStatus
    cases (Serde.fromValue v : Except Serde.Error NodeStatus) <;> rfl
  · exact applyOp_db_eq (k := .service) _ _ (fun _ _ => rfl) faults db cmd.op
  · exact applyOp_db_eq (k := .endpoints) _ _ (fun _ _ => rfl) faults db cmd.op
  · exact .inl rfl

/-! ## The account -/

/-- What the replies tell of an object since its create: the object of the create, that of the last
create or replacement of the spec, how often the spec was replaced, the last status that was set, and
the versions, the newest first. -/
structure Life (k : Kind) where
  born : k.Obj
  body : k.Obj
  replaced : ℕ
  status : Option k.Status
  versions : List ℕ

namespace Life

variable {k : Kind} (life : Life k)

def metadata : ObjectMeta :=
  { getMeta life.body with
    uid := (getMeta life.born).uid
    creationTimestamp := (getMeta life.born).creationTimestamp
    generation := some (UInt64.ofNat (1 + life.replaced))
    resourceVersion := life.versions.head?.map toString }

/-- The object that the account gives. -/
def object : k.Obj := setMeta (k.withStatus life.status life.body) life.metadata

@[simp] theorem getMeta_object : getMeta life.object = life.metadata := by simp [object]

@[simp] theorem specOf_object : k.specOf life.object = k.specOf life.body := by simp [object]

@[simp] theorem statusOf_object : k.statusOf life.object = life.status := by simp [object]

end Life

/-- A call that succeeds, with its reply, in the account of the object. -/
def LifeOp.record {k : Kind} (reply : k.Obj) (life : Option (Life k)) : LifeOp k → Option (Life k)
  | createPrestamped obj =>
    some ⟨obj, obj, 0, none, [resourceRv reply]⟩
  | replaceSpec _ newObj => life.map fun l =>
    { l with
      body := newObj
      replaced := l.replaced + 1
      versions := resourceRv reply :: l.versions }
  | replaceStatus _ _ status => life.map fun l =>
    { l with
      status := status.or l.status
      versions := resourceRv reply :: l.versions }
  | delete _ _ => none

abbrev Lives : Type := (k : Kind) → String → Option (Life k)

/-- A call that fails is not recorded. -/
def Lives.recorded (lives : Lives) (call : LifeCall) : Except StoreError call.kind.Obj → Lives
  | .ok reply => Function.update lives call.kind
      (Function.update (lives call.kind) call.op.name
        (call.op.record reply (lives call.kind call.op.name)))
  | .error _ => lives

namespace Lives

variable {k : Kind} {name : String} (lives : Lives)

theorem recorded_self (op : LifeOp k) (reply : k.Obj) :
    lives.recorded ⟨k, op⟩ (.ok reply) k op.name = op.record reply (lives k op.name) := by
  show Function.update lives k _ k op.name = _
  rw [Function.update_self, Function.update_self]

theorem recorded_of_ne {call : LifeCall} (h : key call.kind.Obj call.op.name ≠ key k.Obj name)
    (result : Except StoreError call.kind.Obj) : lives.recorded call result k name = lives k name := by
  cases result with
  | error e => rfl
  | ok reply =>
    obtain ⟨k', op⟩ := call
    show Function.update lives k' _ k name = lives k name
    by_cases hk : k' = k
    · subst hk
      rw [Function.update_self, Function.update_of_ne]
      rintro rfl
      exact h rfl
    · rw [Function.update_of_ne (Ne.symm hk)]

end Lives

/-- The database, and the account of its objects. -/
structure Account where
  db : Db
  lives : Lives

namespace Account

def empty : Account := ⟨∅, fun _ _ => none⟩

def step (a : Account) (c : LifeCall × Faults) : Account where
  db := StoreCall.step a.db (c.1.storeCall, c.2)
  lives := a.lives.recorded c.1 (c.1.op.storeOp.run c.2 a.db).result

/-- After all calls, from nothing. -/
def after (calls : List (LifeCall × Faults)) : Account := calls.foldl step empty

end Account

/-! ## The law -/

/-- The object is as the account says. -/
structure Lifecycle {k : Kind} (cur : k.Obj) (life : Life k) : Prop where
  uid : (getMeta cur).uid = (getMeta life.born).uid
  creationTimestamp : (getMeta cur).creationTimestamp = (getMeta life.born).creationTimestamp
  generation : ∃ g, (getMeta cur).generation = some g ∧ g.toNat = 1 + life.replaced
  status : k.statusOf cur = life.status
  spec : k.specOf cur = k.specOf life.body
  labels : (getMeta cur).labels = (getMeta life.body).labels
  ownerReferences : (getMeta cur).ownerReferences = (getMeta life.body).ownerReferences
  version : ∃ rv, life.versions.head? = some rv ∧ (getMeta cur).resourceVersion = some (toString rv)
  increasing : life.versions.Pairwise (· > ·)

/-- What `stamp_for_create` gives. -/
def Stamped {k : Kind} (obj : k.Obj) : Prop :=
  ∃ (uid timestamp : String) (o : k.Obj), obj = stampForCreate uid timestamp o

theorem Stamped.generation {k : Kind} {obj : k.Obj} (h : Stamped obj) :
    (getMeta obj).generation = some 1 := by
  obtain ⟨uid, timestamp, o, rfl⟩ := h
  simp [stampForCreate]

theorem Stamped.status {k : Kind} {obj : k.Obj} (h : Stamped obj) : k.statusOf obj = none := by
  obtain ⟨uid, timestamp, o, rfl⟩ := h
  rw [stampForCreate, Kind.clearStatus_eq, Kind.statusOf_withStatus]

/-! ### What each write makes of the object -/

section Revise

variable {k : Kind} (life : Life k) (rv : ℕ)

theorem stamped_setMeta (obj : k.Obj) (m : ObjectMeta) :
    stamped rv (setMeta obj m) = setMeta obj { m with resourceVersion := some (toString rv) } := by
  rw [stamped, LawfulResourceMeta.getMeta_setMeta, Kind.setMeta_setMeta]

theorem Life.object_create {obj : k.Obj} (h : Stamped obj) :
    (⟨obj, obj, 0, none, [rv]⟩ : Life k).object = stamped rv obj := by
  have hobj : k.withStatus none obj = obj := by
    rw [← h.status, Kind.withStatus_statusOf]
  have hmeta : (⟨obj, obj, 0, none, [rv]⟩ : Life k).metadata =
      { getMeta obj with resourceVersion := some (toString rv) } := by
    show { getMeta obj with generation := some 1, resourceVersion := some (toString rv) } = _
    rw [← h.generation]
  show setMeta (k.withStatus none obj) _ = _
  rw [hobj, hmeta]
  rfl

theorem Life.object_replaceSpec (name : String) (newObj : k.Obj) :
    ({ life with
        body := newObj
        replaced := life.replaced + 1
        versions := rv :: life.versions } : Life k).object =
      (StoreOp.replaceSpec name newObj).revise rv life.object := by
  have hgeneration : UInt64.ofNat (1 + (life.replaced + 1)) =
      UInt64.ofNat (1 + life.replaced) + 1 := by
    rw [← Nat.add_assoc, UInt64.ofNat_add]
    rfl
  show setMeta (k.withStatus life.status newObj) _ = inheritStatus (setMeta newObj _) life.object
  rw [Kind.inheritStatus_eq, statusOf_object, Kind.withStatus_setMeta, getMeta_object]
  unfold metadata
  rw [hgeneration]
  rfl

theorem Life.object_replaceStatus (name echoed : String) (status : Option k.Status) :
    ({ life with
        status := status.or life.status
        versions := rv :: life.versions } : Life k).object =
      (StoreOp.replaceStatus name echoed (k.assignStatus status)).revise rv life.object := by
  have hassign : k.assignStatus status life.object =
      setMeta (k.withStatus (status.or life.status) life.body) life.metadata := by
    cases status with
    | none => rfl
    | some s =>
      show k.setStatus s life.object = _
      rw [Kind.setStatus_eq, object, Kind.withStatus_setMeta, Kind.withStatus_withStatus]
      rfl
  show _ = stamped rv (k.assignStatus status life.object)
  rw [hassign, stamped_setMeta]
  rfl

end Revise

/-- The counter has a next number, and if the transaction commits then so does the entry in the index. -/
structure Proceeds (db : Db) (call : LifeCall) (faults : Faults) : Prop where
  counter : currentRv db < u64Max
  index : faults.txn = none → (∃ base, call.op.storeOp.StartsFrom db base) →
    call.op.storeOp.indexes = true → faults.index = none

namespace Account

variable {k : Kind} {name : String} {a : Account} {call : LifeCall} {faults : Faults}

/-- The account of an object is right. -/
structure Told (a : Account) (name : String) (life : Life k) : Prop where
  stored : a.db[key k.Obj name]? = some (toJson life.object)
  newest : ∃ rv older, life.versions = rv :: older ∧ 1 + life.replaced ≤ rv ∧
    rv ≤ currentRv a.db ∧ rv ≤ u64Max
  increasing : life.versions.Pairwise (· > ·)

theorem Told.lifecycle {life : Life k} (h : a.Told name life) : Lifecycle life.object life := by
  obtain ⟨rv, older, hversions, hreplaced, -, hmax⟩ := h.newest
  have hfits : (UInt64.ofNat (1 + life.replaced)).toNat = 1 + life.replaced := by
    rw [UInt64.toNat_ofNat']
    refine Nat.mod_eq_of_lt ?_
    show 1 + life.replaced < 2 ^ 64
    unfold u64Max at hmax
    omega
  constructor
  case generation => exact ⟨_, congrArg ObjectMeta.generation life.getMeta_object, hfits⟩
  case status => exact life.statusOf_object
  case spec => exact life.specOf_object
  case version =>
    refine ⟨rv, by rw [hversions, List.head?_cons], ?_⟩
    rw [life.getMeta_object, Life.metadata, hversions]
    rfl
  case increasing => exact h.increasing
  all_goals rw [life.getMeta_object, Life.metadata]

/-- A call on another key. -/
theorem step_of_ne (h : key call.kind.Obj call.op.name ≠ key k.Obj name) :
    (a.step (call, faults)).db[key k.Obj name]? = a.db[key k.Obj name]? ∧
      (a.step (call, faults)).lives k name = a.lives k name := by
  constructor
  · show (StoreCall.step a.db (call.storeCall, faults))[key k.Obj name]? = _
    cases hc : StoreCall.commit a.db (call.storeCall, faults) with
    | none => rw [stores_lawful.idle hc]
    | some c =>
      have hcontent := congrFun (stores_lawful.content_eq hc) (key k.Obj name)
      obtain ⟨-, base, -, rfl⟩ := StoreOp.commit_eq_some.mp hc
      rw [content_key] at hcontent
      exact hcontent.trans ((Function.update_of_ne (Ne.symm h) _ _).trans (content_key _ _))
  · exact a.lives.recorded_of_ne h _

/-- A call that has nothing to start from, or whose transaction fails. -/
theorem step_of_commit_none (h : call.op.storeOp.commit faults a.db = none) :
    a.step (call, faults) = a := by
  obtain ⟨hdb, -, hresult⟩ := StoreOp.run_of_commit_none h
  unfold step
  congr 1
  cases hr : (call.op.storeOp.run faults a.db).result with
  | ok reply => exact absurd hr (hresult reply)
  | error e => rfl

/-- A call that commits and proceeds. -/
theorem step_of_commit {op : LifeOp k} (hproceeds : Proceeds a.db ⟨k, op⟩ faults)
    (hf : faults.txn = none) {base : k.Obj} (hbase : op.storeOp.StartsFrom a.db base) :
    (a.step (⟨k, op⟩, faults)).db[key k.Obj op.name]? =
        op.storeOp.leaves (op.storeOp.effect a.db base).1 ∧
      (a.step (⟨k, op⟩, faults)).lives k op.name =
        op.record (op.storeOp.effect a.db base).1 (a.lives k op.name) ∧
      currentRv (a.step (⟨k, op⟩, faults)).db = currentRv a.db + 1 ∧
      resourceRv (op.storeOp.effect a.db base).1 = (bumpRv a.db).1 := by
  have hsucc := saturatingSucc_of_lt hproceeds.counter
  have hdb : (a.step (⟨k, op⟩, faults)).db = (op.storeOp.effect a.db base).2 := hbase.run_db hf
  have hok : (op.storeOp.run faults a.db).result = .ok (op.storeOp.effect a.db base).1 := by
    rcases hbase.run_cases hf with ⟨-, hrun⟩ | ⟨msg, hindexes, hindex, -⟩
    · rw [hrun]
    · rw [hproceeds.index hf ⟨base, hbase⟩ hindexes] at hindex
      cases hindex
  refine ⟨?_, ?_, ?_, ?_⟩
  · rw [hdb]
    exact (getElem?_put _ _ _ _).trans (if_pos rfl)
  · show a.lives.recorded ⟨k, op⟩ (op.storeOp.run faults a.db).result k op.name = _
    rw [hok, Lives.recorded_self]
  · rw [hdb, StoreOp.effect_currentRv, hsucc]
  · refine resourceRv_of_toString ?_ (StoreOp.resourceVersion_effect _ _ _)
    show saturatingSucc (currentRv a.db) ≤ u64Max
    rw [hsucc]
    exact hproceeds.counter

/-- A new version is above all those before. -/
theorem Told.above {life : Life k} (h : a.Told name life) :
    ∀ rv ∈ life.versions, rv < currentRv a.db + 1 := by
  obtain ⟨newest, older, hversions, -, hle, -⟩ := h.newest
  have hincreasing := h.increasing
  rw [hversions] at hincreasing ⊢
  intro rv hrv
  rcases List.mem_cons.mp hrv with rfl | hrv
  · omega
  · have hlt := (List.pairwise_cons.mp hincreasing).1 rv hrv
    omega

/-- What a call on the object starts from. -/
theorem Told.base_eq {life : Life k} (h : a.Told name life) {base : k.Obj}
    (hload : loadRequired k.Obj a.db name = .ok base) : base = life.object := by
  obtain ⟨cell, hcell, hread⟩ := loadRequired_eq_ok.mp hload
  obtain rfl := Option.some.inj (hcell.symm.trans h.stored)
  rw [fromSlice_toJson] at hread
  exact (Except.ok.inj hread).symm

/-- A call on another object, or one that does not commit. -/
theorem Told.keep {a' : Account} {life : Life k} (h : a.Told name life)
    (hcell : a'.db[key k.Obj name]? = a.db[key k.Obj name]?)
    (hle : currentRv a.db ≤ currentRv a'.db) : a'.Told name life := by
  obtain ⟨rv, older, hversions, hreplaced, hcurrent, hmax⟩ := h.newest
  exact ⟨hcell.trans h.stored, ⟨rv, older, hversions, hreplaced, hcurrent.trans hle, hmax⟩,
    h.increasing⟩

/-- A write on the object. -/
theorem Told.write {a' : Account} {life : Life k} {older : List ℕ}
    (hlt : currentRv a.db < u64Max) (hcount : currentRv a'.db = currentRv a.db + 1)
    (hcell : a'.db[key k.Obj name]? = some (toJson life.object))
    (hversions : life.versions = (currentRv a.db + 1) :: older)
    (habove : ∀ rv ∈ older, rv < currentRv a.db + 1) (hincreasing : older.Pairwise (· > ·))
    (hreplaced : life.replaced ≤ currentRv a.db) : a'.Told name life where
  stored := hcell
  newest := ⟨currentRv a.db + 1, older, hversions, by omega, hcount.ge, hlt⟩
  increasing := by
    rw [hversions]
    exact List.pairwise_cons.mpr ⟨habove, hincreasing⟩

theorem Told.replaced_lt {life : Life k} (h : a.Told name life) : life.replaced < currentRv a.db := by
  obtain ⟨rv, older, -, hreplaced, hle, -⟩ := h.newest
  omega

/-- **One call** keeps the account of an object right. -/
theorem told_step (call : LifeCall) (faults : Faults)
    (hproceeds : key call.kind.Obj call.op.name = key k.Obj name → Proceeds a.db call faults)
    (h : ∀ life : Life k, a.lives k name = some life → Stamped life.born → a.Told name life) :
    ∀ life : Life k, (a.step (call, faults)).lives k name = some life → Stamped life.born →
      (a.step (call, faults)).Told name life := by
  intro life hlife hstamped
  by_cases hkey : key call.kind.Obj call.op.name = key k.Obj name
  swap
  · obtain ⟨hcell, hlives⟩ := @step_of_ne k name a call faults hkey
    rw [hlives] at hlife
    exact (h life hlife hstamped).keep hcell (stores_lawful.count_le _ _)
  obtain ⟨k', op⟩ := call
  obtain ⟨rfl, rfl⟩ := key_injective hkey
  cases hc : op.storeOp.commit faults a.db with
  | none =>
    rw [step_of_commit_none hc] at hlife ⊢
    exact h life hlife hstamped
  | some c =>
    obtain ⟨hf, base, hbase, -⟩ := StoreOp.commit_eq_some.mp hc
    have hproceeds := hproceeds rfl
    have hlt := hproceeds.counter
    obtain ⟨hcell, hlives, hcount, hrv⟩ := step_of_commit hproceeds hf hbase
    rw [hlives] at hlife
    have hnext : (bumpRv a.db).1 = currentRv a.db + 1 := saturatingSucc_of_lt hlt
    cases op with
    | createPrestamped obj =>
      obtain rfl := Option.some.inj hlife
      obtain rfl : base = obj := hbase.2
      refine Told.write hlt hcount ?_ (congrArg (· :: []) (hrv.trans hnext)) (by simp) List.Pairwise.nil
        (Nat.zero_le _)
      rw [hcell, Life.object_create _ hstamped, hrv]
      rfl
    | replaceSpec name newObj =>
      obtain ⟨old, hold, rfl⟩ := Option.map_eq_some_iff.mp hlife
      have htold := h old hold hstamped
      obtain rfl := htold.base_eq hbase.1
      refine Told.write hlt hcount ?_ (congrArg (· :: old.versions) (hrv.trans hnext)) htold.above
        htold.increasing htold.replaced_lt
      rw [hcell, Life.object_replaceSpec _ _ name, hrv]
      rfl
    | replaceStatus name rv status =>
      obtain ⟨old, hold, rfl⟩ := Option.map_eq_some_iff.mp hlife
      have htold := h old hold hstamped
      obtain rfl := htold.base_eq hbase.1
      refine Told.write hlt hcount ?_ (congrArg (· :: old.versions) (hrv.trans hnext)) htold.above
        htold.increasing htold.replaced_lt.le
      rw [hcell, Life.object_replaceStatus _ _ name rv, hrv]
      rfl
    | delete name rv => cases hlife

end Account

/-- The calls on the object all proceed. -/
def AllProceed (k : Kind) (name : String) (calls : List (LifeCall × Faults)) : Prop :=
  ∀ past call faults, past ++ [(call, faults)] <+: calls →
    key call.kind.Obj call.op.name = key k.Obj name →
      Proceeds (Account.after past).db call faults

/-- **The life of an object.** In every run in which the calls on an object proceed, at every time
between its create and its delete, it is what the account says. -/
theorem lifecycle_law (k : Kind) (name : String) (calls : List (LifeCall × Faults))
    (h : AllProceed k name calls) : ∀ past, past <+: calls → ∀ life : Life k,
      (Account.after past).lives k name = some life → Stamped life.born →
        ∃ cur, loadRequired k.Obj (Account.after past).db name = .ok cur ∧ Lifecycle cur life := by
  have htold : ∀ past, past <+: calls → ∀ life : Life k,
      (Account.after past).lives k name = some life → Stamped life.born →
        (Account.after past).Told name life := by
    refine Runs.prefix_induction (fun life hlife => by cases hlife) fun past c hp ih => ?_
    obtain ⟨call, faults⟩ := c
    unfold Account.after
    rw [List.foldl_concat]
    exact Account.told_step call faults (h past call faults hp) ih
  intro past hp life hlife hstamped
  have hlife := htold past hp life hlife hstamped
  refine ⟨life.object, loadRequired_eq_ok.mpr ⟨_, hlife.stored, fromSlice_toJson _⟩, hlife.lifecycle⟩

theorem Account.counter_le {past calls : List (LifeCall × Faults)} (h : past <+: calls) :
    currentRv (Account.after past).db ≤ currentRv (Account.after calls).db := by
  have hstep : ∀ (rest : List (LifeCall × Faults)) a,
      currentRv (a : Account).db ≤ currentRv (rest.foldl Account.step a).db := by
    intro rest
    induction rest with
    | nil => exact fun _ => le_rfl
    | cons c rest ih => exact fun a => (stores_lawful.count_le a.db _).trans (ih (a.step c))
  obtain ⟨rest, rfl⟩ := h
  unfold after
  rw [List.foldl_append]
  exact hstep rest _

theorem allProceed_of_index_none {k : Kind} {name : String} {calls : List (LifeCall × Faults)}
    (hindex : ∀ c ∈ calls, c.2.index = none)
    (hcounter : currentRv (Account.after calls).db < u64Max) : AllProceed k name calls := by
  intro past call faults hp _
  refine ⟨(Account.counter_le (Runs.prefix_of_concat hp)).trans_lt hcounter, fun _ _ _ => ?_⟩
  exact hindex (call, faults) (hp.subset (by simp))

/-- The pod "web" as it is created, and as a client replaces its spec, with a status and a uid of its
own. -/
def bornWeb : Pod := stampForCreate "u" "t" (samplePod "web" none none)

def forgedWeb (rv : String) : Pod :=
  let pod := samplePod "web" (some rv) (some "a")
  { pod with
    metadata := { pod.metadata with uid := some "forged", generation := some 9 }
    status := some ⟨.failed, [], none, none⟩ }

/-- The pod is created, gets a status and another spec; a client with an old version is refused. -/
def webLife : List (LifeCall × Faults) :=
  [(⟨.pod, .createPrestamped bornWeb⟩, .none),
    (⟨.pod, .replaceStatus "web" "1" (some ⟨.running, [], some 1, none⟩)⟩, .none),
    (⟨.pod, .replaceSpec "web" (forgedWeb "2")⟩, .none),
    (⟨.pod, .replaceSpec "web" (forgedWeb "2")⟩, .none)]

theorem lifecycle_law_web : ∃ (life : Life .pod) (cur : Pod),
    loadRequired Pod (Account.after webLife).db "web" = .ok cur ∧ Lifecycle (k := .pod) cur life ∧
      life.replaced = 1 ∧ life.born = bornWeb := by
  have hlife : ((Account.after webLife).lives .pod "web").map
      (fun life => (life.replaced, (life.born : Pod))) = some (1, bornWeb) := by decide +kernel
  obtain ⟨life, hlife, heq⟩ := Option.map_eq_some_iff.mp hlife
  obtain ⟨hreplaced, hborn⟩ := Prod.mk.inj heq
  have hproceed : AllProceed .pod "web" webLife :=
    allProceed_of_index_none (by decide) (by decide +kernel)
  obtain ⟨cur, hcur, hlaw⟩ := lifecycle_law .pod "web" webLife hproceed webLife List.prefix_rfl life
    hlife ⟨"u", "t", samplePod "web" none none, hborn⟩
  exact ⟨life, cur, hcur, hlaw, hreplaced, hborn⟩

/-- The pod is created; its spec is replaced, and then the entry in the index fails. -/
def unindexedWeb : List (LifeCall × Faults) :=
  [(⟨.pod, .createPrestamped bornWeb⟩, .none),
    (⟨.pod, .replaceSpec "web" (forgedWeb "1")⟩, ⟨none, some "io error"⟩)]

/-- No replacement has succeeded, and the generation is 2. -/
theorem unindexed_generation : ∃ life : Life .pod,
    (Account.after unindexedWeb).lives .pod "web" = some life ∧ Stamped life.born ∧
      ¬ ∃ cur, loadRequired Pod (Account.after unindexedWeb).db "web" = .ok cur ∧
        Lifecycle (k := .pod) cur life := by
  have hlife : ((Account.after unindexedWeb).lives .pod "web").map
      (fun life => (life.replaced, (life.born : Pod))) = some (0, bornWeb) := by decide +kernel
  obtain ⟨life, hlife, heq⟩ := Option.map_eq_some_iff.mp hlife
  obtain ⟨hreplaced, hborn⟩ := Prod.mk.inj heq
  refine ⟨life, hlife, ⟨"u", "t", samplePod "web" none none, hborn⟩, ?_⟩
  rintro ⟨cur, hcur, hlaw⟩
  have hsecond : (loadRequired Pod (Account.after unindexedWeb).db "web").toOption.bind
      (fun pod => pod.metadata.generation) = some 2 := by decide +kernel
  rw [hcur] at hsecond
  obtain ⟨g, hg, hcount⟩ := hlaw.generation
  obtain rfl : g = 2 := Option.some.inj (hg.symm.trans hsecond)
  rw [hreplaced] at hcount
  exact absurd hcount (by decide)

end MyK8s.ApiServer
