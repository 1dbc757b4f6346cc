import MyK8s.Resource.Kinds

/-!
# The resource stores

`src/apiserver/storage.rs`. One sled database holds the objects of all kinds, each under the prefix
of its kind and its name, and the counter behind every `resourceVersion`. A write is a transaction
on it, then an entry in the index of revisions, then an event to the watchers.

The transactions are functions of the database (`createTxn` and its siblings). What surrounds them
is the same for all (`ResourceStore.run`), and takes the points at which sled may fail.
-/

namespace MyK8s.ApiServer

open ResourceMeta (kindPrefix getMeta setMeta inheritStatus)

/-! ## The database -/

/-- What is stored under a key: an object as JSON, or a counter as eight bytes. -/
inductive Cell
  | json (v : Serde.Value)
  | counter (n : ℕ)

/-- The default tree of the database, by key. -/
abbrev Db := Std.ExtTreeMap String Cell

inductive StoreError
  | notFound (name : String)
  | alreadyExists (name : String)
  | conflict (current provided : String)
  | sled (msg : String)
  | json (e : Serde.Error)
  deriving DecidableEq, Repr

def rvCounterKey : String := "rv_counter"

def u64Max : ℕ := 2 ^ 64 - 1

/-- `saturating_add(1)` on `u64`. -/
def saturatingSucc (n : ℕ) : ℕ := if n < u64Max then n + 1 else n

/-- Bytes that are not a counter read as 0. -/
def decodeU64 : Cell → ℕ
  | .counter n => n
  | .json _ => 0

def currentRv (db : Db) : ℕ := (db[rvCounterKey]?.map decodeU64).getD 0

/-- `bump_rv`: the next revision, and the database with the counter at it. -/
def bumpRv (db : Db) : ℕ × Db :=
  let next := saturatingSucc (currentRv db)
  (next, db.insert rvCounterKey (.counter next))

section Store

variable {T : Type} [ResourceMeta T]

/-- `ResourceStore::key`. -/
def key (T : Type) [ResourceMeta T] (name : String) : String := kindPrefix T ++ name

/-- `serde_json::from_slice` on a cell. The bytes of a counter are not an object. -/
def fromSlice (T : Type) [ResourceMeta T] : Cell → Except StoreError T
  | .json v =>
    match Serde.fromValue v with
    | .ok obj => .ok obj
    | .error e => .error (.json e)
  | .counter _ => .error (.json .invalidType)

def toJson (obj : T) : Cell := .json (Serde.toValue obj)

def loadRequired (T : Type) [ResourceMeta T] (db : Db) (name : String) : Except StoreError T :=
  match db[key T name]? with
  | none => .error (.notFound name)
  | some cell => fromSlice T cell

/-- The version of a stored object, as `check_rv` reads it. -/
def version (obj : T) : String := (getMeta obj).resourceVersion.getD ""

/-- `check_rv`: the caller must echo the version that it read. -/
def checkRv (current : T) (provided : Option String) : Except StoreError Unit :=
  match provided with
  | some p =>
    if p = version current then .ok () else .error (.conflict (version current) p)
  | none => .error (.conflict (version current) "(missing)")

/-! ## The transactions -/

/-- The object under its new version. -/
def stamped (rv : ℕ) (obj : T) : T :=
  setMeta obj { getMeta obj with resourceVersion := some (toString rv) }

def createTxn (db : Db) (obj : T) : Except StoreError (T × Db) :=
  let name := (getMeta obj).name
  if db[key T name]?.isSome then .error (.alreadyExists name)
  else
    let (rv, db) := bumpRv db
    let obj := stamped rv obj
    .ok (obj, db.insert (key T name) (toJson obj))

def replaceSpecTxn (db : Db) (name : String) (newObj : T) : Except StoreError (T × Db) := do
  let current ← loadRequired T db name
  checkRv current (getMeta newObj).resourceVersion
  let (rv, db) := bumpRv db
  let cm := getMeta current
  let obj := setMeta newObj { getMeta newObj with
    uid := cm.uid
    creationTimestamp := cm.creationTimestamp
    generation := some (cm.generation.getD 0 + 1)
    resourceVersion := some (toString rv) }
  let obj := inheritStatus obj current
  pure (obj, db.insert (key T name) (toJson obj))

def replaceStatusTxn (db : Db) (name expectedRv : String) (mutate : T → T) :
    Except StoreError (T × Db) := do
  let current ← loadRequired T db name
  checkRv current (some expectedRv)
  let (rv, db) := bumpRv db
  let obj := stamped rv (mutate current)
  pure (obj, db.insert (key T name) (toJson obj))

def deleteTxn (T : Type) [ResourceMeta T] (db : Db) (name expectedRv : String) :
    Except StoreError (T × Db) := do
  let current ← loadRequired T db name
  checkRv current (some expectedRv)
  let (rv, db) := bumpRv db
  pure (stamped rv current, db.erase (key T name))

/-! ## The operations -/

inductive WatchEventType
  | added
  | modified
  | deleted
  deriving DecidableEq, Repr

structure WatchEvent (T : Type) where
  eventType : WatchEventType
  object : T

/-- The storage calls of an operation that fail, with the error. A transaction that fails leaves
nothing behind. -/
structure Faults where
  txn : Option String
  index : Option String

def Faults.none : Faults := ⟨Option.none, Option.none⟩

/-- What an operation returns, the database after it and the events it has sent. -/
structure StoreOutcome (T : Type) where
  result : Except StoreError T
  db : Db
  events : List (WatchEvent T)

namespace ResourceStore

/-- The transaction, `index_rv` where the operation calls it, and `emit`. The object always comes with
a version that `index_rv` can parse. -/
def run (faults : Faults) (db : Db) (txn : Except StoreError (T × Db)) (indexes : Bool)
    (eventType : WatchEventType) : StoreOutcome T :=
  match faults.txn with
  | some msg => ⟨.error (.sled msg), db, []⟩
  | none =>
    match txn with
    | .error e => ⟨.error e, db, []⟩
    | .ok (obj, db) =>
      match if indexes then faults.index else none with
      | some msg => ⟨.error (.sled msg), db, []⟩
      | none => ⟨.ok obj, db, [⟨eventType, obj⟩]⟩

def createPrestamped (faults : Faults) (db : Db) (obj : T) : StoreOutcome T :=
  run faults db (createTxn db obj) true .added

def replaceSpec (faults : Faults) (db : Db) (name : String) (newObj : T) : StoreOutcome T :=
  run faults db (replaceSpecTxn db name newObj) true .modified

def replaceStatus (faults : Faults) (db : Db) (name expectedRv : String) (mutate : T → T) :
    StoreOutcome T :=
  run faults db (replaceStatusTxn db name expectedRv mutate) true .modified

/-- A delete is not entered in the index. -/
def delete (T : Type) [ResourceMeta T] (faults : Faults) (db : Db) (name expectedRv : String) :
    StoreOutcome T :=
  run faults db (deleteTxn T db name expectedRv) false .deleted

end ResourceStore

/-! ## What the transactions do -/

/-- The caller names the version of the object that is stored under the name. -/
def Echoes (T : Type) [ResourceMeta T] (db : Db) (name : String) (provided : Option String) : Prop :=
  ∃ current, loadRequired T db name = .ok current ∧ provided = some (version current)

theorem checkRv_ok_iff {current : T} {provided : Option String} :
    checkRv current provided = .ok () ↔ provided = some (version current) := by
  unfold checkRv
  cases provided with
  | none => simp
  | some p => by_cases h : p = version current <;> simp [h]

/-- The gate in front of the conditional writes. -/
theorem guarded_ok_iff {α : Type} {db : Db} {name : String} {provided : Option String}
    {f : T → Except StoreError α} {r : α} :
    (do
      let current ← loadRequired T db name
      checkRv current provided
      f current) = .ok r ↔
    ∃ current, loadRequired T db name = .ok current ∧ provided = some (version current) ∧
      f current = .ok r := by
  cases hl : loadRequired T db name with
  | error e => simp [bind, Except.bind]
  | ok current =>
    cases hc : checkRv current provided with
    | error e =>
      have hne : provided ≠ some (version current) := fun h => by
        rw [checkRv_ok_iff.mpr h] at hc
        cases hc
      simp [bind, Except.bind, hc, hne]
    | ok u =>
      obtain rfl := checkRv_ok_iff.mp hc
      simp [bind, Except.bind, hc]

theorem exists_guarded_ok_iff {α : Type} {db : Db} {name : String} {provided : Option String}
    {f : T → Except StoreError α} (hf : ∀ current, ∃ r, f current = .ok r) :
    (∃ r, (do
      let current ← loadRequired T db name
      checkRv current provided
      f current) = .ok r) ↔ Echoes T db name provided := by
  constructor
  · rintro ⟨r, h⟩
    obtain ⟨current, hl, hv, -⟩ := guarded_ok_iff.mp h
    exact ⟨current, hl, hv⟩
  · rintro ⟨current, hl, hv⟩
    obtain ⟨r, hr⟩ := hf current
    exact ⟨r, guarded_ok_iff.mpr ⟨current, hl, hv, hr⟩⟩

@[simp] theorem currentRv_insert_counter (db : Db) (n : ℕ) :
    currentRv (db.insert rvCounterKey (.counter n)) = n := by
  simp [currentRv, decodeU64]

/-- No object is stored under the key of the counter. -/
theorem key_ne_rvCounterKey (name : String) : key T name ≠ rvCounterKey := by
  intro h
  have hmem : '/' ∈ (key T name).toList := by
    unfold key
    rw [String.toList_append]
    exact List.mem_append_left _ (ResourceMeta.slash_mem (T := T))
  rw [h] at hmem
  exact absurd hmem (by decide)

@[simp] theorem currentRv_insert_key (db : Db) (name : String) (cell : Cell) :
    currentRv (db.insert (key T name) cell) = currentRv db := by
  unfold currentRv
  rw [Std.ExtTreeMap.getElem?_insert, if_neg]
  simpa using key_ne_rvCounterKey (T := T) name

@[simp] theorem currentRv_erase_key (db : Db) (name : String) :
    currentRv (db.erase (key T name)) = currentRv db := by
  unfold currentRv
  rw [Std.ExtTreeMap.getElem?_erase, if_neg]
  simpa using key_ne_rvCounterKey (T := T) name

/-- A create succeeds where nothing is stored under the name. -/
theorem createTxn_ok_iff {db : Db} {obj : T} :
    (∃ r, createTxn db obj = .ok r) ↔ db[key T (getMeta obj).name]? = none := by
  unfold createTxn
  simp only
  cases db[key T (getMeta obj).name]? with
  | none => simp
  | some cell => simp

/-- The conditional writes succeed for a caller that echoes the current version. -/
theorem replaceSpecTxn_ok_iff {db : Db} {name : String} {newObj : T} :
    (∃ r, replaceSpecTxn db name newObj = .ok r) ↔
      Echoes T db name (getMeta newObj).resourceVersion :=
  exists_guarded_ok_iff fun _ => ⟨_, rfl⟩

theorem replaceStatusTxn_ok_iff {db : Db} {name rv : String} {mutate : T → T} :
    (∃ r, replaceStatusTxn db name rv mutate = .ok r) ↔ Echoes T db name (some rv) :=
  exists_guarded_ok_iff fun _ => ⟨_, rfl⟩

theorem deleteTxn_ok_iff {db : Db} {name rv : String} :
    (∃ r, deleteTxn T db name rv = .ok r) ↔ Echoes T db name (some rv) :=
  exists_guarded_ok_iff fun _ => ⟨_, rfl⟩

theorem createTxn_ok {db db' : Db} {obj obj' : T} (h : createTxn db obj = .ok (obj', db')) :
    currentRv db' = saturatingSucc (currentRv db) := by
  unfold createTxn bumpRv at h
  simp only at h
  split at h
  · cases h
  · obtain ⟨-, rfl⟩ := Prod.mk.inj (Except.ok.inj h)
    simp

theorem replaceSpecTxn_ok {db db' : Db} {name : String} {newObj obj : T}
    (h : replaceSpecTxn db name newObj = .ok (obj, db')) :
    currentRv db' = saturatingSucc (currentRv db) := by
  obtain ⟨current, -, -, h⟩ := guarded_ok_iff.mp h
  obtain ⟨-, rfl⟩ := Prod.mk.inj (Except.ok.inj h)
  simp

theorem replaceStatusTxn_ok {db db' : Db} {name rv : String} {mutate : T → T} {obj : T}
    (h : replaceStatusTxn db name rv mutate = .ok (obj, db')) :
    currentRv db' = saturatingSucc (currentRv db) := by
  obtain ⟨current, -, -, h⟩ := guarded_ok_iff.mp h
  obtain ⟨-, rfl⟩ := Prod.mk.inj (Except.ok.inj h)
  simp

theorem deleteTxn_ok {db db' : Db} {name rv : String} {obj : T}
    (h : deleteTxn T db name rv = .ok (obj, db')) :
    currentRv db' = saturatingSucc (currentRv db) := by
  obtain ⟨current, -, -, h⟩ := guarded_ok_iff.mp h
  obtain ⟨-, rfl⟩ := Prod.mk.inj (Except.ok.inj h)
  simp

/-! ## What the operations do -/

omit [ResourceMeta T] in
theorem ResourceStore.run_error {db : Db} {txn : Except StoreError (T × Db)} {indexes : Bool}
    {eventType : WatchEventType} (h : ¬ ∃ r, txn = .ok r) :
    (run Faults.none db txn indexes eventType).db = db := by
  cases txn with
  | error e => rfl
  | ok r => exact absurd ⟨r, rfl⟩ h

omit [ResourceMeta T] in
theorem ResourceStore.run_ok {db : Db} {r : T × Db} {indexes : Bool}
    {eventType : WatchEventType} :
    (run Faults.none db (.ok r) indexes eventType).db = r.2 := by
  cases indexes with
  | _ => rfl

end Store

end MyK8s.ApiServer
