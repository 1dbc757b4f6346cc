import MyK8s.ApiServer.Storage

/-!
# The replicated state machine

`src/apiserver/command.rs` and `src/apiserver/applier.rs`: the commands of the log, and how a
replica applies one to its stores. Nothing but the command and the stores goes into it.
-/

namespace MyK8s.ApiServer

open ResourceMeta (kindPrefix getMeta)
open Serde (Value)

/-! ## Commands -/

abbrev Uuid := BitVec 128

inductive Op
  | create (obj : Value)
  | replaceSpec (name : String) (obj : Value)
  | replaceStatus (name rv : String) (status : Value)
  | delete (name rv : String)

structure StoreCommand where
  id : Uuid
  kind : String
  op : Op

inductive ApplyOutcome
  | ok (v : Value)
  | notFound (name : String)
  | alreadyExists (name : String)
  | conflict (current provided : String)
  | internal (msg : String)

/-- An event on one of the five watch channels. -/
inductive Notice
  | pod (e : WatchEvent Pod)
  | replicaSet (e : WatchEvent ReplicaSet)
  | node (e : WatchEvent Node)
  | service (e : WatchEvent Service)
  | endpoints (e : WatchEvent Endpoints)

/-- What the replica answers, its database after the command, and the events sent. -/
structure Applied where
  outcome : ApplyOutcome
  db : Db
  notices : List Notice

/-! ## Applying a command -/

section Op

variable {T : Type} [ResourceMeta T]

def outcome (result : Except StoreError T) : ApplyOutcome :=
  match result with
  | .ok obj => .ok (Serde.toValue obj)
  | .error (.notFound name) => .notFound name
  | .error (.alreadyExists name) => .alreadyExists name
  | .error (.conflict current provided) => .conflict current provided
  | .error (.sled msg) => .internal msg
  | .error (.json e) => .internal e.message

def applied (notice : WatchEvent T → Notice) (r : StoreOutcome T) : Applied where
  outcome := outcome r.result
  db := r.db
  notices := r.events.map notice

/-- `apply_op`. A payload that is not an object of the kind changes nothing. -/
def applyOp (notice : WatchEvent T → Notice) (setStatus : T → Value → T) (faults : Faults)
    (db : Db) : Op → Applied
  | .create obj =>
    match Serde.fromValue obj with
    | .ok (o : T) => applied notice (ResourceStore.createPrestamped faults db o)
    | .error e => ⟨.internal ("bad create payload: " ++ e.message), db, []⟩
  | .replaceSpec name obj =>
    match Serde.fromValue obj with
    | .ok (o : T) => applied notice (ResourceStore.replaceSpec faults db name o)
    | .error e => ⟨.internal ("bad replace payload: " ++ e.message), db, []⟩
  | .replaceStatus name rv status =>
    applied notice (ResourceStore.replaceStatus faults db name rv fun t => setStatus t status)
  | .delete name rv => applied notice (ResourceStore.delete T faults db name rv)

end Op

/-- A status that does not parse is ignored. -/
def setPodStatus (pod : Pod) (status : Value) : Pod :=
  match Serde.fromValue status with
  | .ok s => { pod with status := some s }
  | .error _ => pod

def setRsStatus (rs : ReplicaSet) (status : Value) : ReplicaSet :=
  match Serde.fromValue status with
  | .ok s => { rs with status := some s }
  | .error _ => rs

def setNodeStatus (node : Node) (status : Value) : Node :=
  match Serde.fromValue status with
  | .ok s => { node with status := some s }
  | .error _ => node

/-- `Applier::apply`. -/
def apply (faults : Faults) (db : Db) (cmd : StoreCommand) : Applied :=
  let k := cmd.kind
  if k = kindPrefix Pod then applyOp .pod setPodStatus faults db cmd.op
  else if k = kindPrefix ReplicaSet then applyOp .replicaSet setRsStatus faults db cmd.op
  else if k = kindPrefix Node then applyOp .node setNodeStatus faults db cmd.op
  else if k = kindPrefix Service then applyOp .service (fun s _ => s) faults db cmd.op
  else if k = kindPrefix Endpoints then applyOp .endpoints (fun e _ => e) faults db cmd.op
  else ⟨.internal ("unknown command kind: " ++ k), db, []⟩

/-! ## Commands that change nothing -/

section Refused

variable {T : Type} [ResourceMeta T]

/-- The store has no use for the operation: the payload is not an object of the kind, the name of a
create is taken, or the version that a conditional write echoes is not the current one. -/
def Refuses (T : Type) [ResourceMeta T] (db : Db) : Op → Prop
  | .create obj => ∀ o : T, Serde.fromValue obj = .ok o → db[key T (getMeta o).name]? ≠ none
  | .replaceSpec name obj => ∀ o : T, Serde.fromValue obj = .ok o →
    ¬ Echoes T db name (getMeta o).resourceVersion
  | .replaceStatus name rv _ => ¬ Echoes T db name (some rv)
  | .delete name rv => ¬ Echoes T db name (some rv)

/-- The store of the command's kind refuses it, or there is none. -/
def Refused (db : Db) (cmd : StoreCommand) : Prop :=
  let k := cmd.kind
  if k = kindPrefix Pod then Refuses Pod db cmd.op
  else if k = kindPrefix ReplicaSet then Refuses ReplicaSet db cmd.op
  else if k = kindPrefix Node then Refuses Node db cmd.op
  else if k = kindPrefix Service then Refuses Service db cmd.op
  else if k = kindPrefix Endpoints then Refuses Endpoints db cmd.op
  else True

/-- An operation leaves the database as it is, or moves the counter. -/
structure Effective (db db' : Db) (refuses : Prop) : Prop where
  refused : refuses → db' = db
  counted : ¬ refuses → currentRv db' = saturatingSucc (currentRv db)

omit [ResourceMeta T] in
theorem effective_run {db : Db} {txn : Except StoreError (T × Db)} {indexes : Bool}
    {eventType : WatchEventType} {accepted : Prop} (hiff : (∃ r, txn = .ok r) ↔ accepted)
    (hcount : ∀ obj db', txn = .ok (obj, db') → currentRv db' = saturatingSucc (currentRv db)) :
    Effective db (ResourceStore.run Faults.none db txn indexes eventType).db (¬ accepted) where
  refused h := ResourceStore.run_error fun hr => h (hiff.mp hr)
  counted h := by
    obtain ⟨⟨obj, db'⟩, rfl⟩ := hiff.mpr (not_not.mp h)
    rw [ResourceStore.run_ok]
    exact hcount obj db' rfl

theorem applyOp_effective (notice : WatchEvent T → Notice) (setStatus : T → Value → T) (db : Db)
    (op : Op) : Effective db (applyOp notice setStatus Faults.none db op).db (Refuses T db op) := by
  cases op with
  | create obj =>
    simp only [applyOp, Refuses]
    cases (Serde.fromValue obj : Except Serde.Error T) with
    | error e => exact ⟨fun _ => rfl, fun h => absurd (by simp) h⟩
    | ok o =>
      simp only [Except.ok.injEq, forall_eq']
      exact effective_run createTxn_ok_iff fun _ _ => createTxn_ok
  | replaceSpec name obj =>
    simp only [applyOp, Refuses]
    cases (Serde.fromValue obj : Except Serde.Error T) with
    | error e => exact ⟨fun _ => rfl, fun h => absurd (by simp) h⟩
    | ok o =>
      simp only [Except.ok.injEq, forall_eq']
      exact effective_run replaceSpecTxn_ok_iff fun _ _ => replaceSpecTxn_ok
  | replaceStatus name rv status =>
    exact effective_run replaceStatusTxn_ok_iff fun _ _ => replaceStatusTxn_ok
  | delete name rv => exact effective_run deleteTxn_ok_iff fun _ _ => deleteTxn_ok

/-- **One command.** It is refused and changes nothing, or it moves the counter. -/
theorem apply_effective (db : Db) (cmd : StoreCommand) :
    Effective db (apply Faults.none db cmd).db (Refused db cmd) := by
  unfold apply Refused
  simp only
  split
  · exact applyOp_effective _ _ db cmd.op
  · split
    · exact applyOp_effective _ _ db cmd.op
    · split
      · exact applyOp_effective _ _ db cmd.op
      · split
        · exact applyOp_effective _ _ db cmd.op
        · split
          · exact applyOp_effective _ _ db cmd.op
          · exact ⟨fun _ => rfl, fun h => absurd trivial h⟩

end Refused

end MyK8s.ApiServer
