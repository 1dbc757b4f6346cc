import MyK8s.ApiServer.Clients

/-!
# The two write paths

A request that writes is handled on the stores at hand, or as a command: `submit` encodes it for the
log, and the replica decodes and applies what is committed (`src/apiserver/command.rs`). On a single
replica, which leads, both leave the same database, send the same events and give the same answer
(`serveDirect_eq_serveRaft`).
-/

namespace MyK8s.ApiServer

open Process (Proc)
open Raft (NodeId)
open Serde (Lawful NonNull Value)

/-! ## Hexadecimal digits -/

namespace Hex

def digits : ℕ → ℕ → List Char
  | 0, _ => []
  | width + 1, n => digits width (n / 16) ++ [Nat.digitChar (n % 16)]

def value (c : Char) : Option ℕ :=
  if '0' ≤ c ∧ c ≤ '9' then some (c.toNat - '0'.toNat)
  else if 'a' ≤ c ∧ c ≤ 'f' then some (c.toNat - 'a'.toNat + 10)
  else if 'A' ≤ c ∧ c ≤ 'F' then some (c.toNat - 'A'.toNat + 10)
  else none

def parse (cs : List Char) : Option ℕ :=
  cs.foldlM (fun n c => (value c).map (16 * n + ·)) 0

theorem value_digitChar : ∀ d < 16, value (Nat.digitChar d) = some d := by decide

theorem digitChar_ne_hyphen : ∀ d < 16, Nat.digitChar d ≠ '-' := by decide

@[simp] theorem length_digits (width n : ℕ) : (digits width n).length = width := by
  induction width generalizing n with
  | zero => rfl
  | succ width ih => simp [digits, ih]

theorem hyphen_notMem_digits (width n : ℕ) : '-' ∉ digits width n := by
  induction width generalizing n with
  | zero => exact List.not_mem_nil
  | succ width ih =>
    intro h
    rcases List.mem_append.mp h with h | h
    · exact ih (n / 16) h
    · exact digitChar_ne_hyphen (n % 16) (by omega) (List.mem_singleton.mp h).symm

/-- **Round trip** of a number that fits. -/
theorem parse_digits (width n : ℕ) (h : n < 16 ^ width) : parse (digits width n) = some n := by
  induction width generalizing n with
  | zero =>
    have hn : n = 0 := by simpa using h
    rw [hn]
    rfl
  | succ width ih =>
    have hdiv : n / 16 < 16 ^ width := by
      rw [pow_succ] at h
      omega
    have hlast : 16 * (n / 16) + n % 16 = n := by omega
    have hparse := ih (n / 16) hdiv
    unfold parse at hparse ⊢
    rw [digits, List.foldlM_append, hparse]
    simp [value_digitChar (n % 16) (by omega), hlast]

end Hex

/-! ## Commands as JSON -/

/-- The groups of a hyphenated id. -/
def uuidGroups : List ℕ := [8, 4, 4, 4, 12]

def Uuid.hyphenated (id : Uuid) : String :=
  String.ofList (['-'].intercalate (uuidGroups.splitLengths (Hex.digits 32 id.toNat)))

/-- `Uuid::parse_str`, of an id with its hyphens or without them. -/
def Uuid.parseStr (s : String) : Option Uuid :=
  let groups := s.toList.splitOn '-'
  if groups.map List.length = uuidGroups ∨ groups.map List.length = [32] then
    (Hex.parse groups.flatten).map (BitVec.ofNat 128)
  else none

theorem Uuid.parseStr_hyphenated (id : Uuid) : Uuid.parseStr id.hyphenated = some id := by
  have hsum : uuidGroups.sum = (Hex.digits 32 id.toNat).length := by
    rw [Hex.length_digits]
    rfl
  have hflatten : (uuidGroups.splitLengths (Hex.digits 32 id.toNat)).flatten =
      Hex.digits 32 id.toNat := List.flatten_splitLengths _ _ hsum.ge
  have hsplit : (['-'].intercalate (uuidGroups.splitLengths (Hex.digits 32 id.toNat))).splitOn '-' =
      uuidGroups.splitLengths (Hex.digits 32 id.toNat) := by
    refine List.splitOn_intercalate _ (fun group hgroup hmem => ?_) (by simp [uuidGroups])
    refine Hex.hyphen_notMem_digits 32 id.toNat ?_
    rw [← hflatten]
    exact List.mem_flatten_of_mem hgroup hmem
  have hlt : id.toNat < 16 ^ 32 := id.isLt
  unfold Uuid.parseStr Uuid.hyphenated
  simp only [String.toList_ofList, hsplit, List.map_splitLengths_length _ _ hsum.le, true_or,
    ↓reduceIte, hflatten, Hex.parse_digits 32 id.toNat hlt, Option.map_some]
  simp

def Uuid.fromText (s : String) : Except Serde.Error Uuid :=
  match Uuid.parseStr s with
  | some id => .ok id
  | none => .error .invalidValue

theorem Uuid.fromText_hyphenated (id : Uuid) : Uuid.fromText id.hyphenated = .ok id := by
  unfold Uuid.fromText
  rw [Uuid.parseStr_hyphenated]

instance : Serde Uuid where
  toValue id := .string id.hyphenated
  fromValue
    | .string s => Uuid.fromText s
    | _ => .error .invalidType

instance : Serde Op where
  toValue
    | .create obj => .object [("Create", .object (Serde.field "obj" obj))]
    | .replaceSpec name obj => .object [("ReplaceSpec", .object (
      Serde.field "name" name ++
      Serde.field "obj" obj))]
    | .replaceStatus name rv status => .object [("ReplaceStatus", .object (
      Serde.field "name" name ++
      Serde.field "rv" rv ++
      Serde.field "status" status))]
    | .delete name rv => .object [("Delete", .object (
      Serde.field "name" name ++
      Serde.field "rv" rv))]
  fromValue v := do
    let (variant, content) ← Serde.variant v
    match variant with
    | "Create" => Serde.structVariant 1 content fun fs => do
      let obj ← fs.required 0 "obj"
      pure (.create obj)
    | "ReplaceSpec" => Serde.structVariant 2 content fun fs => do
      let name ← fs.required 0 "name"
      let obj ← fs.required 1 "obj"
      pure (.replaceSpec name obj)
    | "ReplaceStatus" => Serde.structVariant 3 content fun fs => do
      let name ← fs.required 0 "name"
      let rv ← fs.required 1 "rv"
      let status ← fs.required 2 "status"
      pure (.replaceStatus name rv status)
    | "Delete" => Serde.structVariant 2 content fun fs => do
      let name ← fs.required 0 "name"
      let rv ← fs.required 1 "rv"
      pure (.delete name rv)
    | other => .error (.unknownVariant other)

instance : Serde StoreCommand where
  toValue cmd := .object (
    Serde.field "id" cmd.id ++
    Serde.field "kind" cmd.kind ++
    Serde.field "op" cmd.op)
  fromValue v := Serde.struct 3 v fun fs => do
    let id ← fs.required 0 "id"
    let kind ← fs.required 1 "kind"
    let op ← fs.required 2 "op"
    pure { id, kind, op }

instance : Lawful Uuid := ⟨Uuid.fromText_hyphenated⟩

instance : Lawful Op := ⟨fun op => by
  cases op with
  | create obj =>
    show (do
      let (variant, content) ← Serde.variant (.object [("Create", .object (Serde.field "obj" obj))])
      _ : Except Serde.Error Op) = _
    simp [Serde.variant, Serde.structVariant]
  | replaceSpec name obj =>
    show (do
      let (variant, content) ← Serde.variant (.object [("ReplaceSpec", .object _)])
      _ : Except Serde.Error Op) = _
    simp [Serde.variant, Serde.structVariant, List.lookup_append]
  | replaceStatus name rv status =>
    show (do
      let (variant, content) ← Serde.variant (.object [("ReplaceStatus", .object _)])
      _ : Except Serde.Error Op) = _
    simp [Serde.variant, Serde.structVariant, List.lookup_append]
  | delete name rv =>
    show (do
      let (variant, content) ← Serde.variant (.object [("Delete", .object _)])
      _ : Except Serde.Error Op) = _
    simp [Serde.variant, Serde.structVariant, List.lookup_append]⟩

instance : Lawful StoreCommand := ⟨fun cmd => by
  show Serde.struct 3 (.object _) _ = _
  simp [List.lookup_append]⟩

/-! ## Serving a request -/

/-- The body of the response or the error, the database after it, and the events sent. -/
structure Served where
  answer : Except ApiError Value
  db : Db
  notices : List Notice

section Serve

variable {T : Type} [Serde T]

/-- On the stores at hand, whose storage calls may fail. -/
def serveDirect (faults : Faults) (db : Db) :
    Proc Db ApiCall ApiCall.Reply (Except ApiError T) → Served
  | .ret r => ⟨r.map Serde.toValue, db, []⟩
  | .read next => serveDirect faults db (next db)
  | .write call next =>
    let r := call.op.storeOp.run faults db
    let s := serveDirect faults r.db (next (r.result.mapError .ofStore))
    { s with notices := r.events.map call.kind.notice ++ s.notices }

/-- `submit` and `apply_loop` on a single replica, where what is proposed is committed at once. -/
def submitSolo (proposer : RaftProposer) (faults : Faults) (db : Db) (cmd : StoreCommand) : Served :=
  match proposer.ensureLeader with
  | .error e => ⟨.error e, db, []⟩
  | .ok _ =>
    match (Serde.fromValue (Serde.toValue cmd) : Except Serde.Error StoreCommand) with
    | .ok cmd =>
      let r := apply faults db cmd
      ⟨outcomeToResult r.outcome, r.db, r.notices⟩
    | .error _ => ⟨.error (.internal "write timed out (not committed)"), db, []⟩

/-- Through the log. What `submit` returns is the answer, as JSON. -/
def serveRaft (proposer : RaftProposer) (id : Uuid) (faults : Faults) (db : Db) :
    Proc Db ApiCall ApiCall.Reply (Except ApiError T) → Served
  | .ret r => ⟨r.map Serde.toValue, db, []⟩
  | .read next => serveRaft proposer id faults db (next db)
  | .write call _ => submitSolo proposer faults db (call.command id)

/-- The proposer of a single replica that has elected itself. -/
def RaftProposer.solo (node : NodeId) (peerApis : NodeId → Option String) : RaftProposer :=
  ⟨node, some node, peerApis⟩

variable {node : NodeId} {peerApis : NodeId → Option String}
  {x : Proc Db ApiCall ApiCall.Reply (Except ApiError T)}

theorem submitSolo_solo (faults : Faults) (id : Uuid) (db : Db) (call : ApiCall) :
    submitSolo (.solo node peerApis) faults db (call.command id) =
      let r := call.op.storeOp.run faults db
      ⟨(r.result.mapError .ofStore).map Serde.toValue, r.db, r.events.map call.kind.notice⟩ := by
  have hgate : (RaftProposer.solo node peerApis).ensureLeader = .ok () :=
    (RaftProposer.ensureLeader_ok_iff _).mpr rfl
  simp only [submitSolo, hgate, Serde.fromValue_toValue, apply_command_applied]
  simp only [applied, outcomeToResult_outcome]

/-- A write is the last that the process does, and what it answers is what the write answers. -/
def EndsWithWrite : Proc Db ApiCall ApiCall.Reply (Except ApiError T) → Prop
  | .ret _ => True
  | .read next => ∀ db, EndsWithWrite (next db)
  | .write _ next => ∀ r, ∃ r', next r = .ret r' ∧ r'.map Serde.toValue = r.map Serde.toValue

/-- **Both paths** do the same with a process that ends with its write. -/
theorem EndsWithWrite.serveDirect_eq (h : EndsWithWrite x) (faults : Faults) (id : Uuid) (db : Db) :
    serveDirect faults db x = serveRaft (.solo node peerApis) id faults db x := by
  induction x with
  | ret r => rfl
  | read next ih => exact ih db (h db)
  | write call next =>
    obtain ⟨r', hret, hr'⟩ := h ((call.op.storeOp.run faults db).result.mapError .ofStore)
    rw [serveRaft, submitSolo_solo]
    simp only [serveDirect, hret, hr', List.append_nil]

theorem endsWithWrite_store {k : Kind} (op : ApiOp k) : EndsWithWrite (Handler.store k op).run :=
  fun r => ⟨r, rfl, rfl⟩

theorem endsWithWrite_throw {k : Kind} (e : ApiError) :
    EndsWithWrite (throw e : Handler k.Obj).run := trivial

/-- Reads first, then what ends with its write. -/
theorem endsWithWrite_bind {k : Kind} {α : Type} {y : Handler α} {f : α → Handler k.Obj}
    (h : Proc.writes (fun _ _ => False) (fun _ a => EndsWithWrite (f a).run) y []) :
    EndsWithWrite (y >>= f).run := by
  unfold Proc.writes at h
  rw [ExceptT.run_bind]
  change EndsWithWrite (y.run.bind _)
  generalize y.run = y at h
  generalize ([] : List Db) = seen at h
  induction y generalizing seen with
  | ret r =>
    cases r with
    | ok a => exact h a rfl
    | error e => trivial
  | read next ih => exact fun db => ih db (db :: seen) (h db)
  | write call next => exact absurd h.1 id

end Serve

/-! ## The handlers -/

/-- A request that writes. -/
inductive Mutation
  | create (k : Kind) (stamp : Stamp) (obj : k.Obj)
  | replaceSpec (k : Kind) (name : String) (obj : k.Obj)
  | bind (name nodeName : String)
  | replaceStatus (k : Kind) (name : String) (rv : Option String) (status : k.Status)
  | delete (k : Kind) (name : String) (rv : Option String)

namespace Mutation

def kind : Mutation → Kind
  | create k _ _ => k
  | replaceSpec k _ _ => k
  | bind _ _ => .pod
  | replaceStatus k _ _ _ => k
  | delete k _ _ => k

def handler (path : WritePath) : (m : Mutation) → Handler m.kind.Obj
  | create k stamp obj => Request.createHandler path stamp k obj
  | replaceSpec k name obj => Request.replaceHandler k name obj
  | bind name nodeName => Handlers.bindPod path name nodeName
  | replaceStatus k name rv status => Request.statusHandler k name rv status
  | delete k name rv => Request.deleteHandler k name rv

end Mutation

section Handlers

variable {k : Kind} {path : WritePath}

open Handlers Handler

theorem endsWithWrite_create (stamp : Stamp) (obj : k.Obj) :
    EndsWithWrite (create k stamp obj).run := endsWithWrite_store _

theorem endsWithWrite_allocate (A : Allocator k) (stamp : Stamp) (obj : k.Obj) :
    EndsWithWrite (allocate A obj >>= create k stamp).run :=
  endsWithWrite_bind (writes_allocate (fun _ => endsWithWrite_create stamp _)
    (fun _ => endsWithWrite_create stamp _) fun _ _ _ _ _ => endsWithWrite_create stamp _)

theorem endsWithWrite_replace (validate : k.Obj → Except ApiError Unit) (name : String) (obj : k.Obj) :
    EndsWithWrite (replace k validate name obj).run := by
  refine endsWithWrite_bind (writes_lift.mpr fun _ _ => ?_)
  split
  · exact endsWithWrite_throw _
  · exact endsWithWrite_store _

theorem endsWithWrite_replaceStatus (name : String) (rv : Option String) (status : k.Status) :
    EndsWithWrite (replaceStatus k name rv status).run :=
  endsWithWrite_bind (writes_lift.mpr fun _ _ => endsWithWrite_store _)

theorem endsWithWrite_delete (name : String) (rv : Option String) :
    EndsWithWrite (delete k name rv).run :=
  endsWithWrite_bind (writes_lift.mpr fun _ _ => endsWithWrite_store _)

theorem endsWithWrite_bindPod (name nodeName : String) :
    EndsWithWrite (bindPod path name nodeName).run := by
  unfold bindPod
  by_cases hempty : nodeName.isEmpty
  · simp only [hempty]
    exact endsWithWrite_bind (k := .pod) Proc.writes_throw
  · simp only [hempty, Bool.false_eq_true]
    refine endsWithWrite_bind (k := .pod) (writes_gate path ?_)
    exact endsWithWrite_bind (k := .pod) (writes_get (k := .pod) fun _ _ _ =>
      endsWithWrite_store (k := .pod) _)

/-- The handler of a create, each with its validation. -/
theorem endsWithWrite_createHandler (stamp : Stamp) (obj : k.Obj) :
    EndsWithWrite (Request.createHandler path stamp k obj).run := by
  cases k with
  | pod =>
    exact endsWithWrite_bind (k := .pod) (writes_lift.mpr fun _ _ =>
      endsWithWrite_create stamp _)
  | replicaSet =>
    exact endsWithWrite_bind (k := .replicaSet) (writes_lift.mpr fun _ _ =>
      endsWithWrite_create stamp _)
  | endpoints =>
    exact endsWithWrite_bind (k := .endpoints) (writes_lift.mpr fun _ _ =>
      endsWithWrite_create stamp _)
  | node =>
    refine endsWithWrite_bind (k := .node) (writes_lift.mpr fun _ _ => ?_)
    exact endsWithWrite_bind (k := .node) (writes_gate path
      (endsWithWrite_allocate nodeCidrs stamp _))
  | service =>
    refine endsWithWrite_bind (k := .service) (writes_lift.mpr fun _ _ => ?_)
    exact endsWithWrite_bind (k := .service) (writes_gate path
      (endsWithWrite_allocate clusterIps stamp _))

/-- **Every handler ends with its write.** -/
theorem Mutation.endsWithWrite (m : Mutation) (path : WritePath) :
    EndsWithWrite (m.handler path).run := by
  cases m with
  | create k stamp obj => exact endsWithWrite_createHandler stamp obj
  | replaceSpec k name obj =>
    cases k with
    | endpoints =>
      change EndsWithWrite (replace .endpoints (fun _ => .ok ()) name obj).run
      exact endsWithWrite_replace _ name obj
    | _ => exact endsWithWrite_replace _ name obj
  | bind name nodeName => exact endsWithWrite_bindPod name nodeName
  | replaceStatus k name rv status =>
    cases k with
    | service => exact nomatch status
    | endpoints => exact nomatch status
    | _ => exact endsWithWrite_replaceStatus name rv status
  | delete k name rv => cases k <;> exact endsWithWrite_delete name rv

/-- The gate of a replica that leads lets every request through. -/
theorem gate_solo (node : NodeId) (peerApis : NodeId → Option String) :
    (WritePath.raft (.solo node peerApis)).gate = WritePath.direct.gate := by
  have hgate : (RaftProposer.solo node peerApis).ensureLeader = .ok () :=
    (RaftProposer.ensureLeader_ok_iff _).mpr rfl
  simp only [WritePath.gate, hgate]
  rfl

theorem Mutation.handler_solo (m : Mutation) (node : NodeId) (peerApis : NodeId → Option String) :
    m.handler (.raft (.solo node peerApis)) = m.handler .direct := by
  have hgate := gate_solo node peerApis
  cases m with
  | create k stamp obj =>
    cases k with
    | node =>
      simp only [handler, Request.createHandler, createNode, hgate]
      rfl
    | service =>
      simp only [handler, Request.createHandler, createService, hgate]
      rfl
    | _ => rfl
  | bind name nodeName =>
    simp only [handler, bindPod, hgate]
    rfl
  | _ => rfl

/-- **The write paths agree.** Whatever the database and the storage errors, a request on a single
replica leaves the same database, sends the same events and is answered alike in both modes. -/
theorem serveDirect_eq_serveRaft (m : Mutation) (faults : Faults) (db : Db) (id : Uuid)
    (node : NodeId) (peerApis : NodeId → Option String) :
    serveDirect faults db (m.handler .direct).run =
      serveRaft (.solo node peerApis) id faults db
        (m.handler (.raft (.solo node peerApis))).run := by
  rw [m.handler_solo]
  exact (m.endsWithWrite .direct).serveDirect_eq faults id db

end Handlers

end MyK8s.ApiServer
