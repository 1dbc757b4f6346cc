import MyK8s.ApiServer.Paths
import MyK8s.Raft.Wire
import MyK8s.Resource.Text

/-!
# What is written is read back

The events of a watch (`src/apiserver/watch.rs`), and the round trip of all that crosses the network or is
stored, through its text: objects, events, commands and messages (`wire_round_trip`).

A command can carry any JSON as its payload, and there the text sets bounds. The handlers stay within them.
-/

namespace MyK8s.ApiServer

open Serde (struct Lawful Value Number TextLayer)

instance : Serde WatchEventType where
  toValue
    | .added => .string "ADDED"
    | .modified => .string "MODIFIED"
    | .deleted => .string "DELETED"
  fromValue v := do
    let (name, content) ← Serde.variant v
    match name with
    | "ADDED" => Serde.unitVariant .added content
    | "MODIFIED" => Serde.unitVariant .modified content
    | "DELETED" => Serde.unitVariant .deleted content
    | other => .error (.unknownVariant other)

instance {T : Type} [Serde T] : Serde (WatchEvent T) where
  toValue e := .object (
    Serde.field "type" e.eventType ++
    Serde.field "object" e.object)
  fromValue v := Serde.struct 2 v fun fs => do
    let eventType ← fs.required 0 "type"
    let object ← fs.required 1 "object"
    pure { eventType, object }

instance : Lawful WatchEventType := ⟨fun t => by cases t <;> rfl⟩

instance {T : Type} [Serde T] [Lawful T] : Lawful (WatchEvent T) := ⟨fun e => by
  show struct 2 (.object _) _ = _
  simp [List.lookup_append]⟩

/-! ## Plain values -/

section Plain

variable {d : ℕ}

@[simp] theorem WatchEventType.plain (t : WatchEventType) : (Serde.toValue t).Plain d := by
  cases t <;> exact Value.plain_string _

theorem WatchEvent.plain {T : Type} [Serde T] (h : ∀ x : T, (Serde.toValue x).Plain d) (e : WatchEvent T) :
    (Serde.toValue e).Plain (d + 1) := by
  show (Value.object _).Plain (d + 1)
  simp [h]

theorem plain_nat {n : ℕ} (h : Raft.FitsU64 n) : (Serde.toValue n).Plain d := by
  unfold Raft.FitsU64 at h
  exact Value.plain_int (by omega)

theorem plain_entry {e : Raft.LogEntry} (h : e.Fits) : (Serde.toValue e).Plain (d + 2) := by
  show (Value.object _).Plain (d + 2)
  simp [plain_nat h.term, plain_nat h.index]

theorem plain_message {m : Raft.Message} (h : m.Fits) : (Serde.toValue m).Plain (d + 5) := by
  cases m with
  | requestVote req =>
    obtain ⟨hterm, hid, hindex, hlast⟩ := h
    show (Value.object [("RequestVote", .object _)]).Plain (d + 5)
    simp [plain_nat hterm, plain_nat hid, plain_nat hindex, plain_nat hlast]
  | requestVoteResp resp =>
    show (Value.object [("RequestVoteResp", .object _)]).Plain (d + 5)
    simp [plain_nat (show Raft.FitsU64 resp.term from h)]
  | appendEntries req =>
    obtain ⟨hterm, hid, hindex, hprev, hentries, hcommit⟩ := h
    have hall : ∀ e ∈ req.entries, (Serde.toValue e).Plain (d + 2) := fun e he => plain_entry (hentries e he)
    show (Value.object [("AppendEntries", .object _)]).Plain (d + 5)
    simpa [plain_nat hterm, plain_nat hid, plain_nat hindex, plain_nat hprev, plain_nat hcommit] using hall
  | appendEntriesResp resp =>
    obtain ⟨hterm, hindex⟩ := h
    show (Value.object [("AppendEntriesResp", .object _)]).Plain (d + 5)
    simp [plain_nat hterm, plain_nat hindex]

theorem Kind.plain_obj (k : Kind) (obj : k.Obj) : (Serde.toValue obj).Plain (d + 7) := by
  cases k with
  | pod => exact Pod.plain obj
  | replicaSet => exact ReplicaSet.plain obj
  | node => exact Node.plain obj
  | service => exact Service.plain obj
  | endpoints => exact Endpoints.plain obj

theorem Kind.plain_status (k : Kind) (s : k.Status) : (k.statusValue s).Plain (d + 7) := by
  cases k with
  | pod => exact PodStatus.plain s
  | replicaSet => exact ReplicaSetStatus.plain s
  | node => exact NodeStatus.plain s
  | service => cases s
  | endpoints => cases s

end Plain

/-! ## Commands -/

/-- The JSON that a command carries. -/
def Op.payload : Op → Option Value
  | .create obj => some obj
  | .replaceSpec _ obj => some obj
  | .replaceStatus _ _ status => some status
  | .delete _ _ => none

def Op.mapPayload (f : Value → Value) : Op → Op
  | .create obj => .create (f obj)
  | .replaceSpec name obj => .replaceSpec name (f obj)
  | .replaceStatus name rv status => .replaceStatus name rv (f status)
  | .delete name rv => .delete name rv

theorem Op.mapPayload_eq_iff {f : Value → Value} {op : Op} :
    op.mapPayload f = op ↔ ∀ v ∈ op.payload, f v = v := by
  cases op <;> simp [mapPayload, payload]

theorem StoreCommand.mapNumbers_toValue (f : Number → Number) (cmd : StoreCommand) :
    (Serde.toValue cmd).mapNumbers f =
      Serde.toValue { cmd with op := cmd.op.mapPayload (Value.mapNumbers f) } := by
  obtain ⟨id, kind, op⟩ := cmd
  cases op <;> rfl

/-- There are three levels around the payload. -/
theorem StoreCommand.depth_toValue (cmd : StoreCommand) :
    (Serde.toValue cmd).depth = (cmd.op.payload.elim 0 Value.depth) + 3 := by
  obtain ⟨id, kind, op⟩ := cmd
  show (Value.object [("id", .string _), ("kind", .string kind), ("op", Serde.toValue op)]).depth = _
  have hop : (Serde.toValue op).depth = op.payload.elim 0 Value.depth + 2 := by
    cases op with
    | create obj =>
      show (Value.object [("Create", .object [("obj", obj)])]).depth = _
      simp [Value.depth, Value.depthFields, Op.payload]
    | replaceSpec name obj =>
      show (Value.object [("ReplaceSpec", .object [("name", .string name), ("obj", obj)])]).depth = _
      simp [Value.depth, Value.depthFields, Op.payload]
    | replaceStatus name rv status =>
      show (Value.object [("ReplaceStatus", .object [("name", .string name), ("rv", .string rv),
        ("status", status)])]).depth = _
      simp [Value.depth, Value.depthFields, Op.payload]
    | delete name rv => rfl
  simp [Value.depth, Value.depthFields, hop]

theorem StoreCommand.depth_le_iff (cmd : StoreCommand) :
    (Serde.toValue cmd).depth ≤ 127 ↔ ∀ v ∈ cmd.op.payload, v.depth ≤ 124 := by
  rw [cmd.depth_toValue]
  cases cmd.op.payload with
  | none => simp
  | some v =>
    simp only [Option.elim_some, Option.mem_def, Option.some.injEq, forall_eq']
    omega

section Text

variable {Text : Type} {L : TextLayer Text}

/-- A command is read back as far as its payload is. -/
theorem StoreCommand.readsBack_iff (hL : L.Documented) (cmd : StoreCommand) :
    L.ReadsBack cmd ↔ ∀ v ∈ cmd.op.payload, v.depth ≤ 124 ∧ v.mapNumbers L.reread = v := by
  have hsame : { cmd with op := cmd.op.mapPayload (Value.mapNumbers L.reread) } = cmd ↔
      ∀ v ∈ cmd.op.payload, v.mapNumbers L.reread = v := by
    rw [← Op.mapPayload_eq_iff]
    obtain ⟨id, kind, op⟩ := cmd
    simp
  rw [TextLayer.readsBack_iff hL, cmd.depth_le_iff, cmd.mapNumbers_toValue, Serde.fromValue_toValue,
    Except.ok.injEq, hsame]
  exact ⟨fun h v hv => ⟨h.1 v hv, h.2 v hv⟩, fun h => ⟨fun v hv => (h v hv).1, fun v hv => (h v hv).2⟩⟩

/-- What the handlers put into a command is plain. -/
theorem ApiCall.plain_payload {id : Uuid} {call : ApiCall} :
    ∀ v ∈ (call.command id).op.payload, v.Plain 7 := by
  obtain ⟨k, op⟩ := call
  cases op with
  | create obj => exact fun v hv => Option.some.inj hv ▸ k.plain_obj obj
  | replaceSpec name obj => exact fun v hv => Option.some.inj hv ▸ k.plain_obj obj
  | replaceStatus name rv status => exact fun v hv => Option.some.inj hv ▸ k.plain_status status
  | delete name rv => exact fun v hv => by cases hv

/-- **Round trip** of every type that is stored or sent. A command with any JSON is read back exactly if its
payload is not nested too deep and all of its numbers are read as they are. -/
theorem wire_round_trip (hL : L.Documented) :
    (∀ pod : Pod, L.ReadsBack pod) ∧ (∀ rs : ReplicaSet, L.ReadsBack rs) ∧
      (∀ node : Node, L.ReadsBack node) ∧ (∀ svc : Service, L.ReadsBack svc) ∧
      (∀ ep : Endpoints, L.ReadsBack ep) ∧ (∀ event : WatchEvent Pod, L.ReadsBack event) ∧
      (∀ event : WatchEvent ReplicaSet, L.ReadsBack event) ∧ (∀ event : WatchEvent Node, L.ReadsBack event) ∧
      (∀ event : WatchEvent Service, L.ReadsBack event) ∧
      (∀ event : WatchEvent Endpoints, L.ReadsBack event) ∧
      (∀ msg : Raft.Message, msg.Fits → L.ReadsBack msg) ∧
      (∀ (id : Uuid) (call : ApiCall), L.ReadsBack (call.command id)) ∧
      ∀ cmd : StoreCommand, L.ReadsBack cmd ↔
        ∀ v ∈ cmd.op.payload, v.depth ≤ 124 ∧ v.mapNumbers L.reread = v := by
  have hread : ∀ {T : Type} [Serde T] [Lawful T] (x : T), (Serde.toValue x).Plain 8 → L.ReadsBack x :=
    fun x hx => TextLayer.readsBack_of_plain hL hx (by decide) (Serde.fromValue_toValue x)
  refine ⟨fun x => hread x x.plain, fun x => hread x x.plain, fun x => hread x x.plain,
    fun x => hread x x.plain, fun x => hread x x.plain, fun x => hread x (x.plain Pod.plain),
    fun x => hread x (x.plain ReplicaSet.plain), fun x => hread x (x.plain Node.plain),
    fun x => hread x (x.plain Service.plain), fun x => hread x (x.plain Endpoints.plain), fun msg hfits => ?_,
    fun id call => ?_, StoreCommand.readsBack_iff hL⟩
  · exact TextLayer.readsBack_of_plain hL (plain_message (d := 0) hfits) (by decide)
      (Raft.Message.fromValue_toValue hfits)
  · refine (StoreCommand.readsBack_iff hL _).mpr fun v hv => ?_
    have hplain := ApiCall.plain_payload v hv
    exact ⟨hplain.depth_le.trans (by decide), hplain.mapNumbers_eq hL.reread_int⟩

end Text

/-- Documents as their own text, with the bound on their depth and a double that is missed by one bit. -/
def shallow : TextLayer Value :=
  let reread : Number → Number
    | .int n => .int n
    | .float bits => .float (if bits = 4632409357216853856 then 4632409357216853857 else bits)
  { print := id
    parse := fun v => if v.depth ≤ 127 then some (v.mapNumbers reread) else none
    reread }

theorem shallow_documented : shallow.Documented := ⟨fun _ => rfl, fun _ _ _ => rfl⟩

/-- A message with an entry. -/
def sampleMessage : Raft.Message := .appendEntries ⟨3, 1, 2, 2, [⟨3, 3, [123, 125]⟩], 2⟩

/-- Arrays in arrays. -/
def nested : ℕ → Value
  | 0 => .null
  | n + 1 => .array [nested n]

theorem depth_nested (n : ℕ) : (nested n).depth = n := by
  induction n with
  | zero => rfl
  | succ n ih => simp [nested, Value.depth, Value.depthItems, ih]

theorem mapNumbers_nested (f : Number → Number) (n : ℕ) : (nested n).mapNumbers f = nested n := by
  induction n with
  | zero => rfl
  | succ n ih => rw [nested, Value.mapNumbers, Value.mapItems, Value.mapItems, ih]

def carrying (payload : Value) : StoreCommand := ⟨7, "pods/", .create payload⟩

theorem wire_round_trip_shallow : sampleMessage.Fits ∧ shallow.ReadsBack sampleMessage ∧
    shallow.ReadsBack (samplePod "web" (some "5") none) ∧ shallow.ReadsBack (carrying (nested 124)) := by
  have hfits : sampleMessage.Fits := by
    refine ⟨by decide, by decide, by decide, by decide, ?_, by decide⟩
    intro e he
    obtain rfl := List.mem_singleton.mp he
    exact ⟨by decide, by decide⟩
  obtain ⟨hpod, -, -, -, -, -, -, -, -, -, hmsg, -, hcmd⟩ := wire_round_trip shallow_documented
  refine ⟨hfits, hmsg sampleMessage hfits, hpod _, (hcmd _).mpr fun v hv => ?_⟩
  obtain rfl := Option.some.inj hv
  exact ⟨(depth_nested 124).le, mapNumbers_nested _ 124⟩

/-- A payload one level deeper is refused, and the double 51.248178375505404 comes back as the next one. -/
theorem wire_not_round_trip : shallow.Documented ∧ ¬ shallow.ReadsBack (carrying (nested 125)) ∧
    ¬ shallow.ReadsBack (carrying (.number (.float 4632409357216853856))) := by
  refine ⟨shallow_documented, fun h => ?_, fun h => ?_⟩
  · have hdepth := ((StoreCommand.readsBack_iff shallow_documented _).mp h _ rfl).1
    rw [depth_nested] at hdepth
    exact absurd hdepth (by decide)
  · have hsame := ((StoreCommand.readsBack_iff shallow_documented _).mp h _ rfl).2
    cases hsame

end MyK8s.ApiServer
