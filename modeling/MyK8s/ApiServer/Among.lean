import MyK8s.Lib.Interference
import MyK8s.ApiServer.Alone
import MyK8s.ApiServer.Listing

/-!
# Requests among others

What the requests of a client come to when others write in between (`Process.Proc.establishes`). A get and a
list show the objects of some time during the request.
-/

namespace MyK8s.ApiServer

open Process (Proc)

/-- **What a call leaves alone**: the objects of other kinds, and those of its kind under other names. -/
theorem ApiCall.exec_frame {k : Kind} (op : ApiOp k) (db : Db) :
    (∀ k' ≠ k, ∀ name, stored k' (ApiCall.exec ⟨k, op⟩ db).2 name = stored k' db name) ∧
      ∀ name ≠ op.storeOp.name, stored k (ApiCall.exec ⟨k, op⟩ db).2 name = stored k db name := by
  rw [ApiCall.exec_snd]
  by_cases hbase : ∃ base, op.storeOp.StartsFrom db base
  · obtain ⟨base, hbase⟩ := hbase
    refine ⟨fun k' hk name => hbase.stored_step_of_ne hk.symm name, fun name hne => ?_⟩
    exact (hbase.stored_step name).trans (if_neg hne.symm)
  · have hsame : StoreCall.step db (ApiCall.storeCall ⟨k, op⟩, Faults.none) = db :=
      step_of_not_startsFrom hbase
    rw [hsame]
    exact ⟨fun _ _ _ => rfl, fun _ _ => rfl⟩

/-- What a call that is answered well leaves under its name. -/
theorem ApiCall.stored_exec {k : Kind} {op : ApiOp k} {db : Db} {obj : k.Obj}
    (h : (ApiCall.exec ⟨k, op⟩ db).1 = .ok obj) :
    stored k (ApiCall.exec ⟨k, op⟩ db).2 op.storeOp.name = WatchEvent.value ⟨op.storeOp.eventType, obj⟩ := by
  obtain ⟨base, hbase, rfl, hdb⟩ := ApiCall.startsFrom_of_exec (Prod.ext h rfl)
  exact (congrArg (stored k · op.storeOp.name) hdb).trans ((hbase.stored_step _).trans (if_pos rfl))

/-- A call that is answered with an error has done nothing. -/
theorem ApiCall.exec_error {k : Kind} {op : ApiOp k} {db : Db} {e : ApiError}
    (h : (ApiCall.exec ⟨k, op⟩ db).1 = .error e) : (ApiCall.exec ⟨k, op⟩ db).2 = db := by
  by_cases hbase : ∃ base, op.storeOp.StartsFrom db base
  · obtain ⟨base, hbase⟩ := hbase
    rw [exec_of_startsFrom hbase] at h
    cases h
  · exact step_of_not_startsFrom hbase

/-- The writes of the setting are the calls, and a refused one is answered with an error. -/
structure Serves (S : Process.Setting Db ApiCall ApiCall.Reply ApiError) : Prop where
  exec : S.exec = ApiCall.exec
  refuse : ∀ e w, ∃ e', S.refuse e w = .error e'

section Rules

variable {S : Process.Setting Db ApiCall ApiCall.Reply ApiError} {rely : Db → Db → Prop} {db : Db} {k : Kind}
  {name : String}

namespace Handler

theorem establishes_read {α : Type} {f : Db → Except StoreError α} {Q : Db → α → Prop}
    (h : ∀ db' db'' a, rely db db' → rely db' db'' → f db' = .ok a → Q db'' a) :
    Proc.establishes S rely Q (read f) db := by
  intro db' hdb' db'' hdb'' a ha
  refine h db' db'' a hdb' hdb'' ?_
  cases hf : f db' with
  | ok b =>
    have hb : (Except.ok b : Except ApiError α) = .ok a := by
      rw [hf] at ha
      exact ha
    rw [Except.ok.inj hb]
  | error e =>
    rw [hf] at ha
    cases ha

theorem establishes_lift [Std.Refl rely] {α : Type} {r : Except ApiError α} {Q : Db → α → Prop}
    (h : ∀ db' a, rely db db' → r = .ok a → Q db' a) : Proc.establishes S rely Q (lift r) db :=
  fun db' hdb' a ha => h db' a hdb' ha

/-- A write that is answered well has been done. -/
theorem establishes_store (hS : Serves S) {op : ApiOp k} {Q : Db → k.Obj → Prop}
    (h : ∀ db' db'' obj, rely db db' → (ApiCall.exec ⟨k, op⟩ db').1 = .ok obj →
      rely (ApiCall.exec ⟨k, op⟩ db').2 db'' → Q db'' obj) :
    Proc.establishes S rely Q (store k op) db := by
  intro db' hdb'
  rw [hS.exec]
  refine ⟨fun _ db'' hdb'' obj hobj => h db' db'' obj hdb' hobj hdb'', fun e => ?_⟩
  obtain ⟨e', he'⟩ := hS.refuse e ⟨k, op⟩
  rw [he']
  constructor
  · rintro - db'' - obj ⟨⟩
  · rintro - db'' - obj ⟨⟩

end Handler

namespace Client

theorem under_request {α : Type} {h : Handler α} {Q : Db → Except ClientError α → Prop}
    (hh : Proc.under S rely (fun s r => Q s (r.mapError .server)) h.run db) :
    Proc.under S rely Q (request h).run db := by
  have hmap : (request h).run = h.run >>= fun r => pure (r.mapError .server) := by
    unfold request
    rw [ExceptT.run_mk]
    congr 1
    funext r
    cases r <;> rfl
  rw [hmap]
  exact Proc.under_map hh

theorem establishes_request {α : Type} {h : Handler α} {Q : Db → α → Prop}
    (hh : Proc.establishes S rely Q h db) : Proc.establishes S rely Q (request h) db := by
  refine under_request (Proc.under_mono (fun t r hr a ha => ?_) hh)
  cases r with
  | ok b => exact hr a (congrArg _ (Except.ok.inj ha))
  | error e => cases ha

/-- What a client makes of the answer to a get. -/
def found {α : Type} : Except ApiError α → Except ClientError (Option α)
  | .ok obj => .ok (some obj)
  | .error (.notFound _) => .ok none
  | .error e => .error (.server e)

theorem run_get (k : Kind) (name : String) :
    (get k name).run = (Handlers.get k name).run >>= fun r => pure (found r) := by
  unfold get
  rw [ExceptT.run_mk]
  congr 1
  funext r
  rcases r with e | obj
  · cases e <;> rfl
  · rfl

theorem establishes_get {Q : Db → Option k.Obj → Prop}
    (h : ∀ db' db'', rely db db' → rely db' db'' → Q db'' (stored k db' name)) :
    Proc.establishes S rely Q (get k name) db := by
  unfold Proc.establishes
  rw [run_get]
  refine Proc.under_map fun db' hdb' => ?_
  have hstored := h db'
  unfold stored at hstored
  show Proc.under S rely _ ((Handler.lift ((ResourceStore.get k.Obj db' name).mapError ApiError.ofStore)).run.bind
    (ExceptT.bindCont _)) db'
  cases hget : ResourceStore.get k.Obj db' name with
  | ok o =>
    rw [hget] at hstored
    cases o with
    | some obj =>
      rintro db'' hdb'' o ⟨⟩
      exact hstored db'' hdb' hdb''
    | none =>
      rintro db'' hdb'' o ⟨⟩
      exact hstored db'' hdb' hdb''
  | error e =>
    rw [hget] at hstored
    cases e with
    | notFound missing =>
      rintro db'' hdb'' o ⟨⟩
      exact hstored db'' hdb' hdb''
    | _ => rintro db'' - o ⟨⟩

theorem establishes_list {Q : Db → List k.Obj → Prop}
    (h : ∀ db' db'', rely db db' → rely db' db'' → Q db'' (listed k db')) :
    Proc.establishes S rely Q (list k) db := by
  refine establishes_request (Handler.establishes_read fun db' db'' objs hdb' hdb'' hobjs => ?_)
  have hlisted : listed k db' = objs := by rw [listed, hobjs]
  rw [← hlisted]
  exact h db' db'' hdb' hdb''

/-- The caller goes on, whatever the call comes to. -/
theorem establishes_attempt {α : Type} {c : Client α} {Q : Db → Except ClientError α → Prop}
    (h : Proc.under S rely Q c.run db) : Proc.establishes S rely Q (attempt c) db := by
  unfold Proc.establishes attempt
  rw [ExceptT.run_mk]
  refine Proc.under_map (Proc.under_mono (fun t r hr => ?_) h)
  rintro r' ⟨⟩
  exact hr

end Client

/-! ## Writes -/

namespace Handlers

/-- A write after a check, whatever the two come to. -/
theorem under_check_store {check : Except ApiError Unit} {op : ApiOp k} {Q : Db → Except ApiError k.Obj → Prop}
    (hcheck : ∀ e, check = .error e → ∀ s, rely db s → Q s (.error e))
    (hstore : check = .ok () → Proc.under S rely Q (Handler.store k op).run db) :
    Proc.under S rely Q (Handler.lift check >>= fun _ => Handler.store k op).run db := by
  show Proc.under S rely Q (ExceptT.bindCont (fun _ => Handler.store k op) check) db
  cases check with
  | ok u => exact hstore rfl
  | error e => exact fun s hs => hcheck e rfl s hs

variable [IsPreorder Db rely] {obj : k.Obj} {Q : Db → k.Obj → Prop}

theorem establishes_replace (hS : Serves S) {validate : k.Obj → Except ApiError Unit}
    (h : ∀ db' db'' reply, rely db db' → (ApiCall.exec ⟨k, .replaceSpec name obj⟩ db').1 = .ok reply →
      rely (ApiCall.exec ⟨k, .replaceSpec name obj⟩ db').2 db'' → Q db'' reply) :
    Proc.establishes S rely Q (replace k validate name obj) db := by
  unfold replace
  refine Proc.establishes_bind (Handler.establishes_lift fun db1 _ hdb1 _ => ?_)
  split
  · exact Proc.establishes_bind Proc.establishes_throw
  · refine Proc.establishes_bind (Proc.establishes_pure fun db2 hdb2 => ?_)
    refine Handler.establishes_store hS fun db' db'' reply hdb' => ?_
    exact h db' db'' reply (Trans.trans hdb1 (Trans.trans hdb2 hdb'))

end Handlers

end Rules

end MyK8s.ApiServer
