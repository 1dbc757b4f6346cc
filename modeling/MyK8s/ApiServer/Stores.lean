import MyK8s.Lib.Decimal
import MyK8s.Lib.Versioned
import MyK8s.Resource.RoundTrip
import MyK8s.ApiServer.Storage

/-!
# Five stores over one database

`src/apiserver/storage.rs`: the reads, the four writes as values, and the histories of calls that
five stores with one database can have.

`StoreOp.txn_ok_iff` says once what a transaction does: it starts from an object, puts a revised one
in its place or removes it, and moves the counter. The laws of `Versioned` follow for the database
(`stores_lawful`).
-/

namespace MyK8s.ApiServer

open ResourceMeta (kindPrefix getMeta setMeta inheritStatus)
open Versioned (Commit stateAt commitAt LastOn)

/-! ## Kinds -/

inductive Kind
  | pod
  | replicaSet
  | node
  | service
  | endpoints
  deriving DecidableEq, Repr

namespace Kind

def Obj : Kind → Type
  | pod => Pod
  | replicaSet => ReplicaSet
  | node => Node
  | service => Service
  | endpoints => Endpoints

instance : (k : Kind) → ResourceMeta k.Obj
  | pod => inferInstanceAs (ResourceMeta Pod)
  | replicaSet => inferInstanceAs (ResourceMeta ReplicaSet)
  | node => inferInstanceAs (ResourceMeta Node)
  | service => inferInstanceAs (ResourceMeta Service)
  | endpoints => inferInstanceAs (ResourceMeta Endpoints)

instance : (k : Kind) → LawfulResourceMeta k.Obj
  | pod => inferInstanceAs (LawfulResourceMeta Pod)
  | replicaSet => inferInstanceAs (LawfulResourceMeta ReplicaSet)
  | node => inferInstanceAs (LawfulResourceMeta Node)
  | service => inferInstanceAs (LawfulResourceMeta Service)
  | endpoints => inferInstanceAs (LawfulResourceMeta Endpoints)

/-- The prefixes of the kinds differ in their first letter. -/
def initial : Kind → Char
  | pod => 'p'
  | replicaSet => 'r'
  | node => 'n'
  | service => 's'
  | endpoints => 'e'

theorem initial_injective : Function.Injective initial := by
  intro k k' h
  cases k <;> cases k' <;> first | rfl | exact absurd h (by decide)

theorem head?_kindPrefix (k : Kind) : (kindPrefix k.Obj).toList.head? = some k.initial := by
  cases k <;> rfl

end Kind

/-- A key under the prefix of a kind is one of its keys. -/
theorem kind_eq_of_prefix {k k' : Kind} {name : String}
    (h : (kindPrefix k.Obj).toList <+: (key k'.Obj name).toList) : k = k' := by
  unfold key at h
  rw [String.toList_append] at h
  obtain ⟨rest, hrest⟩ := h
  have hhead := congrArg List.head? hrest
  rw [List.head?_append, List.head?_append, k.head?_kindPrefix, k'.head?_kindPrefix] at hhead
  exact Kind.initial_injective (Option.some.inj hhead)

theorem key_injective {k k' : Kind} {name name' : String} (h : key k.Obj name = key k'.Obj name') :
    k = k' ∧ name = name' := by
  have hk : k = k' := by
    have hstart : (kindPrefix k.Obj).toList <+: (key k'.Obj name').toList := by
      rw [← h, key, String.toList_append]
      exact List.prefix_append _ _
    exact kind_eq_of_prefix hstart
  subst hk
  have hlist := congrArg String.toList h
  unfold key at hlist
  rw [String.toList_append, String.toList_append] at hlist
  exact ⟨rfl, String.toList_injective (List.append_cancel_left hlist)⟩

section Store

variable {T : Type} [ResourceMeta T]

/-! ## Reads -/

namespace ResourceStore

def get (T : Type) [ResourceMeta T] (db : Db) (name : String) : Except StoreError (Option T) :=
  match db[key T name]? with
  | some cell => (fromSlice T cell).map some
  | none => .ok none

/-- `scan_prefix`, in the order of the keys. -/
def scanPrefix (db : Db) (start : String) : List (String × Cell) :=
  db.toList.filter fun entry => start.toList.isPrefixOf entry.1.toList

/-- The first read of `list`: the objects. -/
def items (T : Type) [ResourceMeta T] (db : Db) : Except StoreError (List T) :=
  (scanPrefix db (kindPrefix T)).mapM fun entry => fromSlice T entry.2

/-- `list`, with nothing written between its two reads. -/
def list (T : Type) [ResourceMeta T] (db : Db) : Except StoreError (List T × ℕ) := do
  let items ← items T db
  pure (items, currentRv db)

theorem mem_scanPrefix {db : Db} {start k : String} {cell : Cell} :
    (k, cell) ∈ scanPrefix db start ↔ db[k]? = some cell ∧ start.toList <+: k.toList := by
  unfold scanPrefix
  rw [List.mem_filter, Std.ExtTreeMap.mem_toList_iff_getElem?_eq_some, List.isPrefixOf_iff_prefix]

end ResourceStore

/-! ## Operations as values -/

/-- A write on a store, with its arguments. -/
inductive StoreOp (T : Type)
  | createPrestamped (obj : T)
  | replaceSpec (name : String) (newObj : T)
  | replaceStatus (name expectedRv : String) (mutate : T → T)
  | delete (name expectedRv : String)

namespace StoreOp

/-- The name that the operation addresses. -/
def name : StoreOp T → String
  | createPrestamped obj => (getMeta obj).name
  | replaceSpec name _ => name
  | replaceStatus name _ _ => name
  | delete name _ => name

def run (faults : Faults) (db : Db) : StoreOp T → StoreOutcome T
  | createPrestamped obj => ResourceStore.createPrestamped faults db obj
  | replaceSpec name newObj => ResourceStore.replaceSpec faults db name newObj
  | replaceStatus name rv mutate => ResourceStore.replaceStatus faults db name rv mutate
  | delete name rv => ResourceStore.delete T faults db name rv

/-- The transaction of the operation. -/
def txn (db : Db) : StoreOp T → Except StoreError (T × Db)
  | createPrestamped obj => createTxn db obj
  | replaceSpec name newObj => replaceSpecTxn db name newObj
  | replaceStatus name rv mutate => replaceStatusTxn db name rv mutate
  | delete name rv => deleteTxn T db name rv

/-- The operations that call `index_rv`. -/
def indexes : StoreOp T → Bool
  | delete _ _ => false
  | _ => true

def eventType : StoreOp T → WatchEventType
  | createPrestamped _ => .added
  | replaceSpec _ _ => .modified
  | replaceStatus _ _ _ => .modified
  | delete _ _ => .deleted

theorem run_eq (op : StoreOp T) (faults : Faults) (db : Db) :
    op.run faults db = ResourceStore.run faults db (op.txn db) op.indexes op.eventType := by
  cases op <;> rfl

/-- The `resourceVersion` that the caller provides. A create has no use for one. -/
def provided : StoreOp T → Option String
  | createPrestamped _ => none
  | replaceSpec _ newObj => (getMeta newObj).resourceVersion
  | replaceStatus _ rv _ => some rv
  | delete _ rv => some rv

/-- The object that the transaction starts from: for a create the one it is given, and else the one
that is stored, whose version the caller echoes. -/
def StartsFrom (db : Db) (base : T) : StoreOp T → Prop
  | createPrestamped obj => db[key T (getMeta obj).name]? = none ∧ base = obj
  | replaceSpec name newObj =>
    loadRequired T db name = .ok base ∧ (getMeta newObj).resourceVersion = some (version base)
  | replaceStatus name rv _ => loadRequired T db name = .ok base ∧ some rv = some (version base)
  | delete name rv => loadRequired T db name = .ok base ∧ some rv = some (version base)

/-- The object as the transaction leaves it, under its new version. -/
def revise (rv : ℕ) (base : T) : StoreOp T → T
  | createPrestamped obj => stamped rv obj
  | replaceSpec _ newObj =>
    inheritStatus (setMeta newObj { getMeta newObj with
      uid := (getMeta base).uid
      creationTimestamp := (getMeta base).creationTimestamp
      generation := some ((getMeta base).generation.getD 0 + 1)
      resourceVersion := some (toString rv) }) base
  | replaceStatus _ _ mutate => stamped rv (mutate base)
  | delete _ _ => stamped rv base

/-- What is under the key afterwards. -/
def leaves (obj : T) : StoreOp T → Option Cell
  | delete _ _ => none
  | _ => some (toJson obj)

end StoreOp

def put (db : Db) (k : String) : Option Cell → Db
  | some cell => db.insert k cell
  | none => db.erase k

theorem getElem?_put (db : Db) (k k' : String) (cell : Option Cell) :
    (put db k cell)[k']? = if k = k' then cell else db[k']? := by
  cases cell with
  | some cell => simp [put, Std.ExtTreeMap.getElem?_insert]
  | none => simp [put, Std.ExtTreeMap.getElem?_erase]

@[simp] theorem currentRv_put_key (db : Db) (name : String) (cell : Option Cell) :
    currentRv (put db (key T name) cell) = currentRv db := by
  cases cell with
  | some cell => exact currentRv_insert_key db name cell
  | none => exact currentRv_erase_key db name

/-- What a transaction that starts from an object returns. -/
def StoreOp.effect (op : StoreOp T) (db : Db) (base : T) : T × Db :=
  let obj := op.revise (bumpRv db).1 base
  (obj, put (bumpRv db).2 (key T op.name) (op.leaves obj))

omit [ResourceMeta T] in
theorem ok_eq_ok_iff {a b : T × Db} : (Except.ok a : Except StoreError _) = .ok b ↔ b = a := by
  rw [Except.ok.injEq]
  exact eq_comm

/-- **What a transaction does.** -/
theorem StoreOp.txn_ok_iff {op : StoreOp T} {db : Db} {r : T × Db} :
    op.txn db = .ok r ↔ ∃ base, op.StartsFrom db base ∧ r = op.effect db base := by
  cases op with
  | createPrestamped obj =>
    simp only [txn, createTxn, StartsFrom]
    cases hdb : db[key T (getMeta obj).name]? with
    | none =>
      simp only [Option.isSome_none, Bool.false_eq_true, if_false, true_and, exists_eq_left,
        Except.ok.injEq]
      exact eq_comm
    | some cell => simp
  | replaceSpec name newObj =>
    refine guarded_ok_iff.trans (exists_congr fun base => ?_)
    rw [StartsFrom, and_assoc]
    exact and_congr_right fun _ => and_congr_right fun _ => ok_eq_ok_iff
  | replaceStatus name rv mutate =>
    refine guarded_ok_iff.trans (exists_congr fun base => ?_)
    rw [StartsFrom, and_assoc]
    exact and_congr_right fun _ => and_congr_right fun _ => ok_eq_ok_iff
  | delete name rv =>
    refine guarded_ok_iff.trans (exists_congr fun base => ?_)
    rw [StartsFrom, and_assoc]
    exact and_congr_right fun _ => and_congr_right fun _ => ok_eq_ok_iff

theorem StoreOp.StartsFrom.unique {op : StoreOp T} {db : Db} {base base' : T}
    (h : op.StartsFrom db base) (h' : op.StartsFrom db base') : base = base' := by
  cases op with
  | createPrestamped obj => exact h.2.trans h'.2.symm
  | replaceSpec name newObj => exact Except.ok.inj (h.1.symm.trans h'.1)
  | replaceStatus name rv mutate => exact Except.ok.inj (h.1.symm.trans h'.1)
  | delete name rv => exact Except.ok.inj (h.1.symm.trans h'.1)

theorem StoreOp.StartsFrom.txn_eq {op : StoreOp T} {db : Db} {base : T}
    (h : op.StartsFrom db base) : op.txn db = .ok (op.effect db base) :=
  txn_ok_iff.mpr ⟨base, h, rfl⟩

/-- What the operation commits in the database, if it does. -/
def StoreOp.commit (op : StoreOp T) (faults : Faults) (db : Db) :
    Option (Commit String (Option String) Cell) :=
  match faults.txn with
  | some _ => none
  | none =>
    match op.txn db with
    | .error _ => none
    | .ok (obj, _) => some ⟨key T op.name, (getMeta obj).resourceVersion, op.leaves obj⟩

/-- A commit: no storage error hits the transaction, and there is an object to start from. -/
theorem StoreOp.commit_eq_some {op : StoreOp T} {faults : Faults} {db : Db}
    {c : Commit String (Option String) Cell} :
    op.commit faults db = some c ↔
      faults.txn = none ∧ ∃ base, op.StartsFrom db base ∧
        c = ⟨key T op.name, (getMeta (op.effect db base).1).resourceVersion,
          op.leaves (op.effect db base).1⟩ := by
  unfold commit
  cases faults.txn with
  | some msg => simp
  | none =>
    cases htxn : op.txn db with
    | error e =>
      have hno : ¬ ∃ base, op.StartsFrom db base := by
        rintro ⟨base, hbase⟩
        rw [hbase.txn_eq] at htxn
        cases htxn
      simp only [true_and, reduceCtorEq, false_iff]
      rintro ⟨base, hbase, -⟩
      exact hno ⟨base, hbase⟩
    | ok r =>
      obtain ⟨base, hbase, rfl⟩ := txn_ok_iff.mp htxn
      simp only [true_and, Option.some.injEq]
      constructor
      · rintro rfl
        exact ⟨base, hbase, rfl⟩
      · rintro ⟨base', hbase', rfl⟩
        rw [hbase.unique hbase']

/-! ## What the operations do -/

theorem StoreOp.run_of_commit_none {op : StoreOp T} {faults : Faults} {db : Db}
    (h : op.commit faults db = none) :
    (op.run faults db).db = db ∧ (op.run faults db).events = [] ∧
      ∀ obj, (op.run faults db).result ≠ .ok obj := by
  rw [run_eq]
  unfold commit at h
  unfold ResourceStore.run
  cases hf : faults.txn with
  | some msg => simp
  | none =>
    cases htxn : op.txn db with
    | error e => simp
    | ok r => simp [hf, htxn] at h

/-- The outcome of a commit: the object, and an event for the watchers; or, where the operation calls
`index_rv` and that fails, the error and no event. -/
theorem StoreOp.StartsFrom.run_cases {op : StoreOp T} {faults : Faults} {db : Db} {base : T}
    (h : op.StartsFrom db base) (hf : faults.txn = none) :
    ((op.indexes = true → faults.index = none) ∧
      op.run faults db = ⟨.ok (op.effect db base).1, (op.effect db base).2,
        [⟨op.eventType, (op.effect db base).1⟩]⟩) ∨
    ∃ msg, op.indexes = true ∧ faults.index = some msg ∧
      op.run faults db = ⟨.error (.sled msg), (op.effect db base).2, []⟩ := by
  rw [run_eq, h.txn_eq]
  unfold ResourceStore.run
  rw [hf]
  cases op.indexes with
  | false => exact .inl ⟨fun hx => absurd hx (by decide), rfl⟩
  | true =>
    cases faults.index with
    | none => exact .inl ⟨fun _ => rfl, rfl⟩
    | some msg => exact .inr ⟨msg, rfl, rfl, rfl⟩

theorem StoreOp.StartsFrom.run_db {op : StoreOp T} {faults : Faults} {db : Db} {base : T}
    (h : op.StartsFrom db base) (hf : faults.txn = none) :
    (op.run faults db).db = (op.effect db base).2 := by
  rcases h.run_cases hf with ⟨-, hrun⟩ | ⟨msg, -, -, hrun⟩
  · rw [hrun]
  · rw [hrun]

end Store

/-! ## Histories -/

/-- A call on one of the five stores. -/
structure StoreCall where
  kind : Kind
  op : StoreOp kind.Obj

namespace StoreCall

/-- The key that the call addresses. -/
def key (call : StoreCall) : String := ApiServer.key call.kind.Obj call.op.name

/-- The database after a call that meets the storage errors. -/
def step (db : Db) (call : StoreCall × Faults) : Db := (call.1.op.run call.2 db).db

def commit (db : Db) (call : StoreCall × Faults) : Option (Commit String (Option String) Cell) :=
  call.1.op.commit call.2 db

end StoreCall

/-- The objects and other cells of the database, without the counter. -/
def content (db : Db) (k : String) : Option Cell := if k = rvCounterKey then none else db[k]?

theorem content_put_key {T : Type} [ResourceMeta T] (db : Db) (n : ℕ) (name : String)
    (cell : Option Cell) :
    content (put (db.insert rvCounterKey (.counter n)) (ApiServer.key T name) cell) =
      Function.update (content db) (ApiServer.key T name) cell := by
  funext k
  unfold content
  rw [getElem?_put, Function.update_apply]
  by_cases hk : k = ApiServer.key T name
  · subst hk
    simp [key_ne_rvCounterKey]
  · rw [if_neg (Ne.symm hk), if_neg hk]
    by_cases hc : k = rvCounterKey
    · simp [hc]
    · rw [if_neg hc, if_neg hc, Std.ExtTreeMap.getElem?_insert, if_neg]
      simpa using Ne.symm hc

theorem le_saturatingSucc (n : ℕ) : n ≤ saturatingSucc n := by
  unfold saturatingSucc
  split <;> omega

theorem saturatingSucc_of_lt {n : ℕ} (h : n < u64Max) : saturatingSucc n = n + 1 := if_pos h

theorem StoreOp.effect_currentRv {T : Type} [ResourceMeta T] (op : StoreOp T) (db : Db) (base : T) :
    currentRv (op.effect db base).2 = saturatingSucc (currentRv db) := by
  simp [effect, bumpRv]

theorem StoreOp.resourceVersion_effect {T : Type} [ResourceMeta T] [LawfulResourceMeta T]
    (op : StoreOp T) (db : Db) (base : T) :
    (getMeta (op.effect db base).1).resourceVersion =
      some (toString (saturatingSucc (currentRv db))) := by
  cases op <;> simp [effect, revise, stamped, bumpRv]

/-- **The stores number their writes.** -/
theorem stores_lawful :
    Versioned.Lawful StoreCall.step StoreCall.commit content currentRv
      (fun n => some (toString n)) u64Max where
  label_injective := by
    intro m n h
    exact Decimal.toString_injective (Option.some.inj h)
  idle h := (StoreOp.run_of_commit_none h).1
  count_le := by
    intro db ⟨call, faults⟩
    cases hc : StoreCall.commit db (call, faults) with
    | none => exact (congrArg currentRv (StoreOp.run_of_commit_none hc).1).ge
    | some c =>
      obtain ⟨hf, base, hbase, -⟩ := StoreOp.commit_eq_some.mp hc
      rw [StoreCall.step, hbase.run_db hf, StoreOp.effect_currentRv]
      exact le_saturatingSucc _
  label_eq := by
    intro db ⟨call, faults⟩ c hc hlt
    obtain ⟨-, base, -, rfl⟩ := StoreOp.commit_eq_some.mp hc
    rw [StoreOp.resourceVersion_effect, saturatingSucc_of_lt hlt]
  count_eq := by
    intro db ⟨call, faults⟩ c hc hlt
    obtain ⟨hf, base, hbase, -⟩ := StoreOp.commit_eq_some.mp hc
    rw [StoreCall.step, hbase.run_db hf, StoreOp.effect_currentRv, saturatingSucc_of_lt hlt]
  content_eq := by
    intro db ⟨call, faults⟩ c hc
    obtain ⟨hf, base, hbase, rfl⟩ := StoreOp.commit_eq_some.mp hc
    rw [StoreCall.step, hbase.run_db hf]
    exact content_put_key db _ _ _

end MyK8s.ApiServer
