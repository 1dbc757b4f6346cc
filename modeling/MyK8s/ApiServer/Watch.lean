import MyK8s.ApiServer.Revisions

/-!
# Watch events

What a write tells the watchers of a kind is what it does to the objects of the kind
(`Write.cases`). A client of `src/apiserver/watch.rs` keeps the objects in a cache, as
`Reconciler::apply_watch_event` does.
-/

namespace MyK8s.ApiServer

open ResourceMeta (kindPrefix getMeta)

/-! ## Revisions of objects -/

section Store

variable {T : Type} [ResourceMeta T]

/-- `str::parse::<u64>`. -/
def parseU64 (s : String) : Option ℕ := Decimal.parse u64Max s

/-- `resource_rv`. -/
def resourceRv (obj : T) : ℕ := ((getMeta obj).resourceVersion.bind parseU64).getD 0

theorem resourceRv_of_toString {obj : T} {n : ℕ} (hn : n ≤ u64Max)
    (h : (getMeta obj).resourceVersion = some (toString n)) : resourceRv obj = n := by
  unfold resourceRv parseU64
  rw [h, Option.bind_some, Decimal.parse_toString hn, Option.getD_some]

/-! ## The cache of a client -/

abbrev Cache (T : Type) := Std.ExtTreeMap String T

/-- `apply_watch_event`: what becomes of the cache. -/
def applyWatchEvent (cache : Cache T) (event : WatchEvent T) : Cache T :=
  match event.eventType with
  | .added => cache.insert (getMeta event.object).name event.object
  | .modified => cache.insert (getMeta event.object).name event.object
  | .deleted => cache.erase (getMeta event.object).name

/-- The name that an event is about. -/
def WatchEvent.name (event : WatchEvent T) : String := (getMeta event.object).name

omit [ResourceMeta T] in
/-- The object that an event leaves. -/
def WatchEvent.value (event : WatchEvent T) : Option T :=
  match event.eventType with
  | .deleted => none
  | _ => some event.object

@[simp] theorem getElem?_applyWatchEvent (cache : Cache T) (event : WatchEvent T) (name : String) :
    (applyWatchEvent cache event)[name]? = if event.name = name then event.value else cache[name]? := by
  unfold applyWatchEvent WatchEvent.value WatchEvent.name
  cases event.eventType with
  | added => simp [Std.ExtTreeMap.getElem?_insert]
  | modified => simp [Std.ExtTreeMap.getElem?_insert]
  | deleted => simp [Std.ExtTreeMap.getElem?_erase]

/-- An event about another name is not seen under this one. -/
theorem getElem?_foldl_of_forall_ne {events : List (WatchEvent T)} {name : String}
    (h : ∀ event ∈ events, event.name ≠ name) (cache : Cache T) :
    (events.foldl applyWatchEvent cache)[name]? = cache[name]? := by
  induction events generalizing cache with
  | nil => rfl
  | cons event events ih =>
    rw [List.foldl_cons, ih (fun e he => h e (List.mem_cons_of_mem event he)),
      getElem?_applyWatchEvent, if_neg (h event List.mem_cons_self)]

end Store

/-! ## Writes -/

/-- A write that keeps objects under their names. Its storage calls go through. -/
structure Write where
  call : StoreCall
  addressed : call.op.Addressed

namespace Write

def step (db : Db) (w : Write) : Db := StoreCall.step db (w.call, .none)

/-- The events of a write on the channel of a kind. -/
def events (kind : Kind) (db : Db) (w : Write) : List (WatchEvent kind.Obj) :=
  if h : w.call.kind = kind then h ▸ (w.call.op.run .none db).events else []

end Write

/-- The object of the kind under a name. -/
def stored (kind : Kind) (db : Db) (name : String) : Option kind.Obj :=
  match ResourceStore.get kind.Obj db name with
  | .ok o => o
  | .error _ => none

theorem stored_of_getElem?_none {kind : Kind} {db : Db} {name : String}
    (h : db[key kind.Obj name]? = none) : stored kind db name = none := by
  unfold stored ResourceStore.get
  rw [h]

namespace WellFormed

variable {db : Db}

theorem get_eq (h : WellFormed db) (kind : Kind) (name : String) :
    ResourceStore.get kind.Obj db name = .ok (stored kind db name) := by
  obtain ⟨o, ho, -⟩ := h.get_ok kind name
  rw [stored, ho]

theorem stored_eq_some (h : WellFormed db) {kind : Kind} {name : String} {obj : kind.Obj} :
    stored kind db name = some obj ↔ (getMeta obj).name = name ∧ Stored db obj := by
  obtain ⟨o, ho, hiff⟩ := h.get_ok kind name
  rw [stored, ho]
  exact hiff obj

theorem stored_eq_none (h : WellFormed db) {kind : Kind} {name : String} :
    stored kind db name = none ↔ db[key kind.Obj name]? = none := by
  constructor
  · intro hs
    by_contra hcell
    obtain ⟨cell, hsome⟩ := Option.ne_none_iff_exists'.mp hcell
    obtain ⟨obj, rfl, hname, -⟩ := h.found hsome
    have hstored : stored kind db name = some obj :=
      h.stored_eq_some.mpr ⟨hname, by rw [Stored, hname]; exact hsome⟩
    rw [hs] at hstored
    cases hstored
  · exact stored_of_getElem?_none

theorem write (h : WellFormed db) (w : Write) : WellFormed (w.step db) := h.step w.addressed .none

/-- A stored object has a version that the counter has reached. -/
theorem resourceRv_stored (h : WellFormed db) {kind : Kind} {name : String} {obj : kind.Obj}
    (hs : stored kind db name = some obj) : 0 < resourceRv obj ∧ resourceRv obj ≤ currentRv db := by
  obtain ⟨obj', heq, -, n, hpos, hle, hrv⟩ := h.found (h.stored_eq_some.mp hs).2
  obtain rfl := toJson_injective heq
  rw [resourceRv_of_toString (hle.trans h.counter_le) hrv]
  exact ⟨hpos, hle⟩

end WellFormed

theorem stored_congr {kind : Kind} {db db' : Db} {name : String}
    (h : db[key kind.Obj name]? = db'[key kind.Obj name]?) :
    stored kind db name = stored kind db' name := by
  simp [stored, ResourceStore.get, h]

/-- What an operation leaves is read as what its event leaves. -/
theorem stored_of_leaves {kind : Kind} {db : Db} {name : String} {op : StoreOp kind.Obj}
    {obj : kind.Obj} (h : db[key kind.Obj name]? = op.leaves obj) :
    stored kind db name = WatchEvent.value ⟨op.eventType, obj⟩ := by
  unfold stored ResourceStore.get
  rw [h]
  cases op with
  | delete name rv => rfl
  | _ => simp [StoreOp.leaves, StoreOp.eventType, WatchEvent.value, Except.map]

section Commit

variable {kind : Kind} {op : StoreOp kind.Obj} {db : Db} {base : kind.Obj}

/-- A commit changes what is stored under its key, and nothing else of any kind. -/
theorem StoreOp.StartsFrom.getElem?_step (h : op.StartsFrom db base) (kind' : Kind)
    (name : String) :
    (StoreCall.step db (⟨kind, op⟩, .none))[key kind'.Obj name]? =
      if key kind'.Obj name = key kind.Obj op.name then op.leaves (op.effect db base).1
      else db[key kind'.Obj name]? := by
  have hcommit : StoreCall.commit db (⟨kind, op⟩, .none) =
      some ⟨key kind.Obj op.name, _, op.leaves (op.effect db base).1⟩ :=
    StoreOp.commit_eq_some.mpr ⟨rfl, base, h, rfl⟩
  have hcontent := congrFun (stores_lawful.content_eq hcommit) (key kind'.Obj name)
  rwa [Function.update_apply, content_key, content_key] at hcontent

theorem StoreOp.StartsFrom.stored_step (h : op.StartsFrom db base) (name : String) :
    stored kind (StoreCall.step db (⟨kind, op⟩, .none)) name =
      if op.name = name then WatchEvent.value ⟨op.eventType, (op.effect db base).1⟩
      else stored kind db name := by
  have hcell := h.getElem?_step kind name
  by_cases hn : op.name = name
  · rw [if_pos (congrArg (key kind.Obj) hn.symm)] at hcell
    rw [if_pos hn]
    exact stored_of_leaves hcell
  · rw [if_neg fun hkey => hn (key_injective hkey).2.symm] at hcell
    rw [if_neg hn]
    exact stored_congr hcell

theorem StoreOp.StartsFrom.stored_step_of_ne (h : op.StartsFrom db base) {kind' : Kind}
    (hk : kind ≠ kind') (name : String) :
    stored kind' (StoreCall.step db (⟨kind, op⟩, .none)) name = stored kind' db name := by
  have hcell := h.getElem?_step kind' name
  rw [if_neg fun hkey => hk (key_injective hkey).1.symm] at hcell
  exact stored_congr hcell

end Commit

/-- **What a write tells the watchers of a kind**: nothing, and the objects of the kind are as they
were; or one event, of the next revision, and the object of its name is the one that it leaves. -/
theorem Write.cases {db : Db} (h : WellFormed db) (w : Write) (kind : Kind) :
    (w.events kind db = [] ∧ ∀ name, stored kind (w.step db) name = stored kind db name) ∨
    ∃ event, w.events kind db = [event] ∧
      currentRv (w.step db) = saturatingSucc (currentRv db) ∧
      resourceRv event.object = saturatingSucc (currentRv db) ∧
      ∀ name, stored kind (w.step db) name =
        if event.name = name then event.value else stored kind db name := by
  obtain ⟨⟨kind', op⟩, ha⟩ := w
  cases hc : StoreCall.commit db (⟨kind', op⟩, .none) with
  | none =>
    obtain ⟨hdb, hevents, -⟩ := StoreOp.run_of_commit_none hc
    left
    constructor
    · unfold events
      split
      · rename_i hk
        cases hk
        exact hevents
      · rfl
    · intro name
      exact congrArg (stored kind · name) hdb
  | some c =>
    obtain ⟨hf, base, hbase, -⟩ := StoreOp.commit_eq_some.mp hc
    by_cases hk : kind' = kind
    · subst hk
      right
      have hrun : (op.run .none db).events = [⟨op.eventType, (op.effect db base).1⟩] := by
        rcases hbase.run_cases hf with ⟨-, hrun⟩ | ⟨msg, -, hi, -⟩
        · exact congrArg StoreOutcome.events hrun
        · cases hi
      have hname : (getMeta (op.effect db base).1).name = op.name :=
        ha.name_effect hbase fun obj hobj => h.name_of_loadRequired hobj
      have hcount : currentRv (StoreCall.step db (⟨kind', op⟩, .none)) =
          saturatingSucc (currentRv db) := by
        rw [StoreCall.step, hbase.run_db hf, StoreOp.effect_currentRv]
      refine ⟨⟨op.eventType, (op.effect db base).1⟩, ?_, hcount, ?_, fun name => ?_⟩
      · unfold events
        rw [dif_pos rfl]
        exact hrun
      · refine resourceRv_of_toString ?_ (op.resourceVersion_effect db base)
        rw [← hcount]
        exact (h.step ha .none).counter_le
      · unfold WatchEvent.name
        simp only
        rw [hname]
        exact hbase.stored_step name
    · left
      exact ⟨dif_neg hk, hbase.stored_step_of_ne hk⟩

end MyK8s.ApiServer
