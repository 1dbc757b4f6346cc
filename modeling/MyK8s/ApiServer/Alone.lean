import MyK8s.ApiServer.Assignments

/-!
# Requests on their own

What a handler answers and leaves, and what a client brings about, when nobody else reads or writes
while it does. A list of requests that are served one after the other is one of the runs of the
server (`serve_eq_run`).
-/

namespace MyK8s.ApiServer

open ResourceMeta (getMeta stampForCreate)
open Process (Proc)

/-! ## Calls -/

namespace ApiCall

variable {k : Kind} {op : ApiOp k} {db : Db}

/-- A call that has an object to start from succeeds. -/
theorem exec_of_startsFrom {base : k.Obj} (h : op.storeOp.StartsFrom db base) :
    ApiCall.exec ⟨k, op⟩ db =
      (.ok (op.storeOp.effect db base).1, StoreCall.step db (⟨k, op.storeOp⟩, Faults.none)) := by
  have hnone : Faults.none.txn = none := rfl
  rcases h.run_cases hnone with ⟨-, hrun⟩ | ⟨msg, -, hfault, -⟩
  · unfold exec StoreCall.step
    rw [hrun]
    rfl
  · cases hfault

/-- A call that succeeds had an object to start from. -/
theorem startsFrom_of_exec {obj : k.Obj} {db' : Db}
    (h : ApiCall.exec ⟨k, op⟩ db = (.ok obj, db')) :
    ∃ base, op.storeOp.StartsFrom db base ∧ obj = (op.storeOp.effect db base).1 ∧
      db' = StoreCall.step db (⟨k, op.storeOp⟩, Faults.none) := by
  by_cases hbase : ∃ base, op.storeOp.StartsFrom db base
  · obtain ⟨base, hbase⟩ := hbase
    rw [exec_of_startsFrom hbase] at h
    cases h
    exact ⟨base, hbase, rfl, rfl⟩
  · -- nothing is committed, so the answer is an error
    have hcommit : op.storeOp.commit Faults.none db = none := by
      rw [Option.eq_none_iff_forall_ne_some]
      intro c hc
      obtain ⟨-, base, hstarts, -⟩ := StoreOp.commit_eq_some.mp hc
      exact hbase ⟨base, hstarts⟩
    obtain ⟨-, -, hno⟩ := StoreOp.run_of_commit_none hcommit
    have hresult : ((op.storeOp.run Faults.none db).result.mapError ApiError.ofStore) = .ok obj :=
      congrArg Prod.fst h
    cases hr : (op.storeOp.run Faults.none db).result with
    | ok obj' => exact absurd hr (hno obj')
    | error e =>
      rw [hr] at hresult
      cases hresult

theorem wellFormed_exec (hwf : WellFormed db) {r : Except ApiError k.Obj} {db' : Db}
    (h : ApiCall.exec ⟨k, op⟩ db = (r, db')) (ha : op.storeOp.Addressed) : WellFormed db' := by
  obtain rfl := congrArg Prod.snd h
  exact @WellFormed.step db hwf ⟨k, op.storeOp⟩ ha Faults.none

end ApiCall

/-! ## Handlers -/

namespace Handler

/-- What the handler answers and what it leaves. -/
def alone {α : Type} (h : Handler α) (db : Db) : Except ApiError α × Db :=
  Proc.alone ApiCall.exec h.run db

variable {α β : Type} {h : Handler α} {f : α → Handler β} {db db' : Db}

@[simp] theorem alone_pure (a : α) (db : Db) : alone (pure a) db = (.ok a, db) := rfl

@[simp] theorem alone_throw (e : ApiError) (db : Db) :
    alone (throw e : Handler α) db = (.error e, db) := rfl

theorem alone_bind (h : Handler α) (f : α → Handler β) (db : Db) :
    alone (h >>= f) db =
      match alone h db with
      | (.ok a, db') => alone (f a) db'
      | (.error e, db') => (.error e, db') := by
  unfold alone
  rw [Proc.alone_run_bind]
  cases Proc.alone ApiCall.exec h.run db with
  | mk r db' => cases r <;> rfl

theorem alone_bind_ok {a : α} (ha : alone h db = (.ok a, db')) :
    alone (h >>= f) db = alone (f a) db' := by
  rw [alone_bind, ha]

theorem alone_bind_error {e : ApiError} (he : alone h db = (.error e, db')) :
    alone (h >>= f) db = (.error e, db') := by
  rw [alone_bind, he]

@[simp] theorem alone_read (f : Db → Except StoreError α) (db : Db) :
    alone (read f) db = ((f db).mapError ApiError.ofStore, db) := rfl

@[simp] theorem alone_store (k : Kind) (op : ApiOp k) (db : Db) :
    alone (store k op) db = ApiCall.exec ⟨k, op⟩ db := rfl

/-- A get answers with what is stored. -/
theorem alone_get (hwf : WellFormed db) (k : Kind) (name : String) :
    alone (get k name) db = (.ok (stored k db name), db) := by
  obtain ⟨o, ho, -⟩ := hwf.get_ok k name
  have hstored : stored k db name = o := by rw [stored, ho]
  rw [hstored]
  refine (alone_read _ db).trans ?_
  rw [ho]
  rfl

theorem alone_list {k : Kind} {objs : List k.Obj}
    (h : ResourceStore.items k.Obj db = .ok objs) : alone (list k) db = (.ok objs, db) := by
  refine (alone_read _ db).trans ?_
  rw [h]
  rfl

end Handler

namespace Handlers

variable {k : Kind} {db db' : Db} {name : String} {obj reply : k.Obj}

theorem alone_get (hwf : WellFormed db) (k : Kind) (name : String) :
    (get k name).alone db = ((stored k db name).elim (.error (.notFound name)) .ok, db) := by
  unfold get
  rw [Handler.alone_bind_ok (Handler.alone_get hwf k name)]
  cases stored k db name <;> rfl

end Handlers

/-! ## Clients -/

namespace Client

/-- What the client comes to and what it leaves. -/
def alone {α : Type} (c : Client α) (db : Db) : Except ClientError α × Db :=
  Proc.alone ApiCall.exec c.run db

variable {α β : Type} {c : Client α} {f : α → Client β} {db db' : Db}

@[simp] theorem alone_pure (a : α) (db : Db) : alone (pure a) db = (.ok a, db) := rfl

@[simp] theorem alone_throw (e : ClientError) (db : Db) :
    alone (throw e : Client α) db = (.error e, db) := rfl

theorem alone_bind (c : Client α) (f : α → Client β) (db : Db) :
    alone (c >>= f) db =
      match alone c db with
      | (.ok a, db') => alone (f a) db'
      | (.error e, db') => (.error e, db') := by
  unfold alone
  rw [Proc.alone_run_bind]
  cases Proc.alone ApiCall.exec c.run db with
  | mk r db' => cases r <;> rfl

theorem alone_bind_ok {a : α} (ha : alone c db = (.ok a, db')) :
    alone (c >>= f) db = alone (f a) db' := by
  rw [alone_bind, ha]

theorem alone_bind_error {e : ClientError} (he : alone c db = (.error e, db')) :
    alone (c >>= f) db = (.error e, db') := by
  rw [alone_bind, he]

theorem alone_request (h : Handler α) (db : Db) :
    alone (request h) db = ((h.alone db).1.mapError .server, (h.alone db).2) := by
  unfold alone request Handler.alone
  rw [ExceptT.run_mk, Proc.alone_bind]
  cases (Proc.alone ApiCall.exec h.run db).1 <;> rfl

theorem alone_request_eq_ok {h : Handler α} {a : α} :
    alone (request h) db = (.ok a, db') ↔ h.alone db = (.ok a, db') := by
  rw [alone_request]
  cases h.alone db with
  | mk r mid => cases r <;> simp [Except.mapError]

theorem alone_get (hwf : WellFormed db) (k : Kind) (name : String) :
    alone (get k name) db = (.ok (stored k db name), db) := by
  have hget := Handlers.alone_get hwf k name
  unfold alone get
  rw [ExceptT.run_mk, Proc.alone_bind]
  unfold Handler.alone at hget
  rw [hget]
  cases stored k db name <;> rfl

theorem alone_list {k : Kind} {objs : List k.Obj}
    (h : ResourceStore.items k.Obj db = .ok objs) : alone (list k) db = (.ok objs, db) := by
  unfold list
  rw [alone_request, Handler.alone_list h]
  rfl

/-- The client comes to `a` and writes nothing. -/
structure Quiet (c : Client α) (db : Db) (a : α) : Prop where
  alone : c.alone db = (.ok a, db)
  written : Proc.written ApiCall.exec c.run db = []

theorem Quiet.pure (a : α) (db : Db) : Quiet (pure a) db a := ⟨rfl, rfl⟩

theorem Quiet.bind {a : α} {b : β} (hc : Quiet c db a) (hf : Quiet (f a) db b) :
    Quiet (c >>= f) db b := by
  refine ⟨(alone_bind_ok hc.alone).trans hf.alone, ?_⟩
  rw [ExceptT.run_bind, Proc.written_bind, hc.written, List.nil_append]
  have halone : Proc.alone ApiCall.exec c.run db = (.ok a, db) := hc.alone
  rw [halone]
  exact hf.written

end Client

/-! ## Sequences of requests -/

/-- The database after the request. -/
def serve (db : Db) (r : Request) : Db := (Proc.alone ApiCall.exec r.code db).2

/-- Requests one after the other are a run of the server. -/
theorem serve_eq_run (rs : List Request) : ∃ acts : List ApiAct,
    (∀ r, .start r ∈ acts → r ∈ rs) ∧ (Api.start.run acts).now = rs.foldl serve ∅ :=
  Process.System.exists_run_sequence Api.start rs

end MyK8s.ApiServer
