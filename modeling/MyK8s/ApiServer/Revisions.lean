import MyK8s.ApiServer.Stores

/-!
# Revisions

What holds of the database in every history of calls on the five stores: `no_lost_update`, for the
conditional writes, and `revision_invariant`, for the keys, the versions and the counter.

Every object lies under the key of its kind and name, with a version that the counter has reached
(`WellFormed`). Which call has written it is what `Versioned` says of the history.
-/

namespace MyK8s.ApiServer

open ResourceMeta (kindPrefix getMeta setMeta)
open Versioned (Commit stateAt commitAt LastOn)

section Store

variable {T : Type} [ResourceMeta T]

/-! ## Reading back -/

@[simp] theorem fromSlice_toJson [LawfulResourceMeta T] (obj : T) :
    fromSlice T (toJson obj) = .ok obj := by
  simp [fromSlice, toJson]

theorem toJson_injective [LawfulResourceMeta T] {obj obj' : T} (h : toJson obj = toJson obj') :
    obj = obj' := by
  have heq := fromSlice_toJson obj
  rw [h, fromSlice_toJson] at heq
  exact (Except.ok.inj heq).symm

theorem loadRequired_eq_ok {db : Db} {name : String} {base : T} :
    loadRequired T db name = .ok base ↔
      ∃ cell, db[key T name]? = some cell ∧ fromSlice T cell = .ok base := by
  unfold loadRequired
  cases db[key T name]? with
  | none => simp
  | some cell => simp

/-- A conditional write starts from the object whose version it echoes. -/
theorem StoreOp.StartsFrom.echo {op : StoreOp T} {db : Db} {base : T} {r : String}
    (h : op.StartsFrom db base) (hr : op.provided = some r) :
    loadRequired T db op.name = .ok base ∧ version base = r := by
  cases op with
  | createPrestamped obj => cases hr
  | replaceSpec name newObj => exact ⟨h.1, Option.some.inj (h.2.symm.trans hr)⟩
  | replaceStatus name rv mutate => exact ⟨h.1, Option.some.inj (h.2.symm.trans hr)⟩
  | delete name rv => exact ⟨h.1, Option.some.inj (h.2.symm.trans hr)⟩

end Store

/-! ## The history of a database -/

/-- The database after all calls of a history, from nothing. -/
def dbAfter (calls : List (StoreCall × Faults)) : Db := calls.foldl StoreCall.step ∅

/-- The database that call `i` finds. -/
def dbAt (calls : List (StoreCall × Faults)) (i : ℕ) : Db := stateAt StoreCall.step ∅ calls i

/-- What call `i` commits. A call that succeeds commits, and so does one that fails at the index. -/
def commits (calls : List (StoreCall × Faults)) :
    ℕ → Option (Commit String (Option String) Cell) :=
  commitAt StoreCall.step StoreCall.commit ∅ calls

theorem commits_eq_some {calls : List (StoreCall × Faults)} {i : ℕ}
    {w : Commit String (Option String) Cell} :
    commits calls i = some w ↔
      ∃ call faults, calls[i]? = some (call, faults) ∧ faults.txn = none ∧
        ∃ base, call.op.StartsFrom (dbAt calls i) base ∧
          w = ⟨call.key, (getMeta (call.op.effect (dbAt calls i) base).1).resourceVersion,
            call.op.leaves (call.op.effect (dbAt calls i) base).1⟩ := by
  unfold commits
  rw [Versioned.commitAt_eq_some]
  constructor
  · rintro ⟨⟨call, faults⟩, hcall, hw⟩
    obtain ⟨hf, hbase⟩ := StoreOp.commit_eq_some.mp hw
    exact ⟨call, faults, hcall, hf, hbase⟩
  · rintro ⟨call, faults, hcall, hf, hbase⟩
    exact ⟨(call, faults), hcall, StoreOp.commit_eq_some.mpr ⟨hf, hbase⟩⟩

theorem commits_key {calls : List (StoreCall × Faults)} {i : ℕ} {call : StoreCall}
    {faults : Faults} {w : Commit String (Option String) Cell}
    (hi : calls[i]? = some (call, faults)) (hw : commits calls i = some w) : w.key = call.key := by
  obtain ⟨call', faults', hi', -, base, -, rfl⟩ := commits_eq_some.mp hw
  obtain rfl : call = call' := congrArg Prod.fst (Option.some.inj (hi.symm.trans hi'))
  rfl

/-- What a commit leaves under a key of a kind is an object of the kind, with the version that the
commit was assigned. -/
theorem commits_value {calls : List (StoreCall × Faults)} {j : ℕ} {k : Kind} {name : String}
    {w : Commit String (Option String) Cell} {cell : Cell} (hw : commits calls j = some w)
    (hk : w.key = key k.Obj name) (hv : w.value = some cell) :
    ∃ obj : k.Obj, cell = toJson obj ∧ w.label = (getMeta obj).resourceVersion := by
  obtain ⟨⟨k', op⟩, faults, -, -, base, -, rfl⟩ := commits_eq_some.mp hw
  obtain ⟨rfl, -⟩ := key_injective hk
  refine ⟨(op.effect (dbAt calls j) base).1, ?_, rfl⟩
  cases op with
  | delete name rv => cases hv
  | _ => exact (Option.some.inj hv).symm

/-! ## No lost update -/

theorem content_key {T : Type} [ResourceMeta T] (db : Db) (name : String) :
    content db (key T name) = db[key T name]? := if_neg (key_ne_rvCounterKey name)

/-- Call `j`, and no other, was assigned version `r`. What it put under the key of call `i` is the
object that call `i` starts from, no call between the two has committed on the key, and a delete on
it that came before call `i` came before call `j`. -/
structure WroteBase (calls : List (StoreCall × Faults)) (r : String) (call : StoreCall) (i j : ℕ) :
    Prop where
  wrote : ∃ w base, LastOn (commits calls) call.key i j w ∧ w.label = some r ∧
    w.value = some (toJson base) ∧ call.op.StartsFrom (dbAt calls i) base
  unique : ∀ m w, commits calls m = some w → w.label = some r → m = j
  deleted : ∀ d w, commits calls d = some w → w.key = call.key → w.value = none → d < i → d < j

theorem wroteBase_of_commit {calls : List (StoreCall × Faults)}
    (hmax : currentRv (dbAfter calls) < u64Max) {i : ℕ} {call : StoreCall} {faults : Faults}
    {r : String} (hi : calls[i]? = some (call, faults)) (hr : call.op.provided = some r)
    (hc : (commits calls i).isSome) : ∃ j, WroteBase calls r call i j := by
  obtain ⟨w, hw⟩ := Option.isSome_iff_exists.mp hc
  obtain ⟨call', faults', hi', -, base, hbase, -⟩ := commits_eq_some.mp hw
  obtain rfl : call = call' := congrArg Prod.fst (Option.some.inj (hi.symm.trans hi'))
  obtain ⟨hload, hversion⟩ := hbase.echo hr
  obtain ⟨cell, hcell, hread⟩ := loadRequired_eq_ok.mp hload
  have hcontent : content (dbAt calls i) call.key = some cell := (content_key _ _).trans hcell
  obtain ⟨j, v, hlast, hv⟩ := (stores_lawful.content_iff (by simp [content])).mp hcontent
  obtain ⟨obj, rfl, hlabel⟩ := commits_value hlast.commit hlast.key hv
  obtain rfl : obj = base := by simpa using hread
  -- the version is a number that the counter has reached
  obtain ⟨hnumber, -⟩ := stores_lawful.commitAt_count hmax hlast.commit
  have hassigned : v.label = some r := by
    rw [hnumber] at hlabel ⊢
    rw [version, ← hlabel] at hversion
    rw [← hversion]
    rfl
  refine ⟨j, ⟨v, obj, hlast, hassigned, hv, hbase⟩, ?_, ?_⟩
  · intro m u hm hu
    exact stores_lawful.label_unique hmax hm hlast.commit (hu.trans hassigned.symm)
  · intro d u hd hkey hnone hlt
    rcases Nat.lt_trichotomy d j with hdj | rfl | hjd
    · exact hdj
    · obtain rfl := Option.some.inj (hd.symm.trans hlast.commit)
      rw [hnone] at hv
      cases hv
    · exact absurd hkey (hlast.last d hjd hlt u hd)

/-- **No lost update.** When a replacement or a delete commits that provides version `r`, there is
one call that was assigned `r`, it wrote the object that is overwritten, and nothing was committed
on the key in between. No other call that provides `r` ever commits. -/
theorem no_lost_update (calls : List (StoreCall × Faults))
    (hmax : currentRv (dbAfter calls) < u64Max) {i : ℕ} {call : StoreCall} {faults : Faults}
    {r : String} (hi : calls[i]? = some (call, faults)) (hr : call.op.provided = some r)
    (hc : (commits calls i).isSome) :
    (∃ j, WroteBase calls r call i j) ∧
      ∀ m call' faults', calls[m]? = some (call', faults') → call'.op.provided = some r →
        (commits calls m).isSome → m = i := by
  obtain ⟨j, hj⟩ := wroteBase_of_commit hmax hi hr hc
  refine ⟨⟨j, hj⟩, fun m call' faults' hm hr' hc' => ?_⟩
  obtain ⟨j', hj'⟩ := wroteBase_of_commit hmax hm hr' hc'
  obtain ⟨v, -, hlast, hlabel, -, -⟩ := hj.wrote
  obtain ⟨v', -, hlast', hlabel', -, -⟩ := hj'.wrote
  obtain rfl := hj.unique j' v' hlast'.commit hlabel'
  obtain rfl := Option.some.inj (hlast.commit.symm.trans hlast'.commit)
  obtain ⟨w, hw⟩ := Option.isSome_iff_exists.mp hc
  obtain ⟨w', hw'⟩ := Option.isSome_iff_exists.mp hc'
  -- both commit on the key of the call that was assigned the version
  have hkey : call'.key = call.key := hlast'.key.symm.trans hlast.key
  rcases Nat.lt_trichotomy m i with hlt | rfl | hgt
  · exact absurd ((commits_key hm hw').trans hkey) (hlast.last m hlast'.lt hlt w' hw')
  · rfl
  · exact absurd ((commits_key hi hw).trans hkey.symm) (hlast'.last i hlast.lt hgt w hw)

/-- A pod as a client sends it. -/
def samplePod (name : String) (resourceVersion nodeName : Option String) : Pod where
  apiVersion := "v1"
  kind := "Pod"
  metadata :=
    { name
      uid := none
      resourceVersion
      generation := none
      creationTimestamp := none
      labels := ∅
      ownerReferences := [] }
  spec := { containers := [⟨"c", "busybox", []⟩], nodeName }
  status := none

/-- A pod is created, and two clients that have read version 1 both write it. -/
def rivals : List (StoreCall × Faults) :=
  [(⟨.pod, .createPrestamped (samplePod "web" none none)⟩, .none),
    (⟨.pod, .replaceSpec "web" (samplePod "web" (some "1") (some "a"))⟩, .none),
    (⟨.pod, .replaceSpec "web" (samplePod "web" (some "1") (some "b"))⟩, .none)]

/-- The first of the two overwrites what the create wrote, and the second is refused. -/
theorem no_lost_update_rivals :
    (∃ j, WroteBase rivals "1"
      ⟨.pod, .replaceSpec "web" (samplePod "web" (some "1") (some "a"))⟩ 1 j) ∧
      (commits rivals 2).isSome = false := by
  have h := no_lost_update rivals (by decide +kernel) (i := 1) (r := "1") rfl rfl
    (by decide +kernel)
  exact ⟨h.1, by decide +kernel⟩

/-! ## Well-formed databases -/

section Store

variable {T : Type} [ResourceMeta T]

/-- The object is stored under the key of its kind and name. -/
def Stored (db : Db) (obj : T) : Prop := db[key T (getMeta obj).name]? = some (toJson obj)

/-- The operation keeps an object under its name: a replacement carries the name that it addresses,
and a new status leaves the name alone. The handlers send nothing else. -/
def StoreOp.Addressed : StoreOp T → Prop
  | createPrestamped _ => True
  | replaceSpec name newObj => (getMeta newObj).name = name
  | replaceStatus _ _ mutate => ∀ obj, (getMeta (mutate obj)).name = (getMeta obj).name
  | delete _ _ => True

theorem StoreOp.Addressed.name_effect [LawfulResourceMeta T] {op : StoreOp T} (h : op.Addressed)
    {db : Db} {base : T} (hbase : op.StartsFrom db base)
    (hname : ∀ obj, loadRequired T db op.name = .ok obj → (getMeta obj).name = op.name) :
    (getMeta (op.effect db base).1).name = op.name := by
  cases op with
  | createPrestamped obj => simp [effect, revise, stamped, name]
  | replaceSpec name newObj =>
    simp only [effect, revise, LawfulResourceMeta.getMeta_inheritStatus,
      LawfulResourceMeta.getMeta_setMeta]
    exact h
  | replaceStatus name rv mutate =>
    simp only [effect, revise, stamped, LawfulResourceMeta.getMeta_setMeta]
    exact (h base).trans (hname base hbase.1)
  | delete name rv =>
    simp only [effect, revise, stamped, LawfulResourceMeta.getMeta_setMeta]
    exact hname base hbase.1

end Store

/-- What the database holds: objects under their own keys, with versions that the counter has
reached, and the counter in the range of its type. -/
structure WellFormed (db : Db) : Prop where
  counter_le : currentRv db ≤ u64Max
  home : ∀ k cell, content db k = some cell → ∃ (kind : Kind) (obj : kind.Obj),
    k = key kind.Obj (getMeta obj).name ∧ cell = toJson obj ∧
      ∃ n, 0 < n ∧ n ≤ currentRv db ∧ (getMeta obj).resourceVersion = some (toString n)

namespace WellFormed

variable {db : Db}

theorem empty : WellFormed ∅ where
  counter_le := by decide
  home := by
    intro k cell h
    simp [content] at h

/-- What is found under a key of a kind is an object of the kind with that name. -/
theorem found (h : WellFormed db) {kind : Kind} {name : String} {cell : Cell}
    (hcell : db[key kind.Obj name]? = some cell) : ∃ obj : kind.Obj,
      cell = toJson obj ∧ (getMeta obj).name = name ∧
        ∃ n, 0 < n ∧ n ≤ currentRv db ∧ (getMeta obj).resourceVersion = some (toString n) := by
  obtain ⟨kind', obj, hk, hv, hn⟩ := h.home _ cell ((content_key db name).trans hcell)
  obtain ⟨rfl, rfl⟩ := key_injective hk
  exact ⟨obj, hv, rfl, hn⟩

theorem name_of_loadRequired (h : WellFormed db) {kind : Kind} {name : String} {base : kind.Obj}
    (hload : loadRequired kind.Obj db name = .ok base) : (getMeta base).name = name := by
  obtain ⟨cell, hcell, hread⟩ := loadRequired_eq_ok.mp hload
  obtain ⟨obj, rfl, hname, -⟩ := h.found hcell
  rw [fromSlice_toJson] at hread
  rw [← Except.ok.inj hread, hname]

theorem step (h : WellFormed db) {call : StoreCall} (ha : call.op.Addressed) (faults : Faults) :
    WellFormed (StoreCall.step db (call, faults)) := by
  cases hc : StoreCall.commit db (call, faults) with
  | none =>
    rw [stores_lawful.idle hc]
    exact h
  | some c =>
    obtain ⟨hf, base, hbase, -⟩ := StoreOp.commit_eq_some.mp hc
    have hcount : currentRv (StoreCall.step db (call, faults)) = saturatingSucc (currentRv db) := by
      rw [StoreCall.step, hbase.run_db hf, StoreOp.effect_currentRv]
    have hle := h.counter_le
    have hsucc : 0 < saturatingSucc (currentRv db) ∧ saturatingSucc (currentRv db) ≤ u64Max := by
      unfold saturatingSucc u64Max at *
      split <;> omega
    refine ⟨hcount.trans_le hsucc.2, fun k cell hcell => ?_⟩
    rw [stores_lawful.content_eq hc, Function.update_apply] at hcell
    obtain ⟨-, base', hbase', rfl⟩ := StoreOp.commit_eq_some.mp hc
    obtain rfl := hbase.unique hbase'
    split at hcell
    · rename_i hk
      refine ⟨call.kind, (call.op.effect db base).1, ?_, ?_, _, hsucc.1, hcount.ge,
        StoreOp.resourceVersion_effect _ _ _⟩
      · rw [hk, ha.name_effect hbase fun obj hobj => h.name_of_loadRequired hobj]
      · cases hop : call.op with
        | delete name rv =>
          rw [hop] at hcell
          cases hcell
        | _ =>
          rw [hop] at hcell
          exact (Option.some.inj hcell).symm
    · obtain ⟨kind, obj, hk, hv, n, hpos, hn, hrv⟩ := h.home k cell hcell
      exact ⟨kind, obj, hk, hv, n, hpos, by rw [hcount]; exact hn.trans (le_saturatingSucc _), hrv⟩

theorem foldl (h : WellFormed db) {calls : List (StoreCall × Faults)}
    (ha : ∀ call ∈ calls, call.1.op.Addressed) : WellFormed (calls.foldl StoreCall.step db) := by
  induction calls generalizing db with
  | nil => exact h
  | cons call calls ih =>
    rw [List.foldl_cons]
    exact ih (h.step (ha call List.mem_cons_self) call.2)
      fun c hc => ha c (List.mem_cons_of_mem call hc)

/-! ### Reads of a well-formed database -/

theorem get_ok (h : WellFormed db) (kind : Kind) (name : String) :
    ∃ o, ResourceStore.get kind.Obj db name = .ok o ∧
      ∀ obj, o = some obj ↔ (getMeta obj).name = name ∧ Stored db obj := by
  unfold ResourceStore.get
  cases hcell : db[key kind.Obj name]? with
  | none =>
    refine ⟨none, rfl, fun obj => ?_⟩
    simp only [reduceCtorEq, false_iff]
    rintro ⟨rfl, hs⟩
    rw [Stored, hcell] at hs
    cases hs
  | some cell =>
    obtain ⟨obj, rfl, hname, -⟩ := h.found hcell
    refine ⟨some obj, by simp [Except.map], fun obj' => ?_⟩
    constructor
    · rintro ⟨⟩
      exact ⟨hname, by rw [Stored, hname, hcell]⟩
    · rintro ⟨hname', hs⟩
      rw [Stored, hname', hcell] at hs
      rw [toJson_injective (Option.some.inj hs)]

/-- What the scan of a kind finds is of that kind. -/
theorem scan_ok (h : WellFormed db) (kind : Kind) {entry : String × Cell}
    (he : entry ∈ ResourceStore.scanPrefix db (kindPrefix kind.Obj)) : ∃ obj : kind.Obj,
      entry.1 = key kind.Obj (getMeta obj).name ∧ entry.2 = toJson obj ∧ Stored db obj := by
  obtain ⟨k, cell⟩ := entry
  obtain ⟨hcell, hstart⟩ := ResourceStore.mem_scanPrefix.mp he
  have hne : k ≠ rvCounterKey := by
    rintro rfl
    cases kind <;> exact absurd hstart (by decide)
  obtain ⟨kind', obj, rfl, rfl, -⟩ := h.home k cell (by rw [content, if_neg hne, hcell])
  obtain rfl := kind_eq_of_prefix hstart
  exact ⟨obj, rfl, rfl, hcell⟩

/-- A list is the objects of the kind, each once. -/
theorem items_ok (h : WellFormed db) (kind : Kind) :
    ∃ objs, ResourceStore.items kind.Obj db = .ok objs ∧ (∀ obj, obj ∈ objs ↔ Stored db obj) ∧
      (objs.map fun obj => (getMeta obj).name).Nodup := by
  let entry : kind.Obj → String × Cell := fun obj => (key kind.Obj (getMeta obj).name, toJson obj)
  have hrange : ResourceStore.scanPrefix db (kindPrefix kind.Obj) ∈ Set.range (List.map entry) := by
    rw [Set.range_list_map]
    intro e he
    obtain ⟨obj, hk, hv, -⟩ := h.scan_ok kind he
    exact ⟨obj, Prod.ext hk.symm hv.symm⟩
  obtain ⟨objs, hobjs⟩ := hrange
  refine ⟨objs, ?_, fun obj => ?_, ?_⟩
  · unfold ResourceStore.items
    rw [← hobjs]
    let read : String × Cell → Except StoreError kind.Obj := fun e => fromSlice kind.Obj e.2
    have hread : ∀ obj, read (entry obj) = .ok obj := fun obj => fromSlice_toJson obj
    exact Serde.mapM_map_of_ok hread objs
  · constructor
    · intro hobj
      have he : entry obj ∈ ResourceStore.scanPrefix db (kindPrefix kind.Obj) := by
        rw [← hobjs]
        exact List.mem_map_of_mem hobj
      exact (ResourceStore.mem_scanPrefix.mp he).1
    · intro hs
      have he : entry obj ∈ objs.map entry := by
        rw [hobjs]
        refine ResourceStore.mem_scanPrefix.mpr ⟨hs, ?_⟩
        rw [key, String.toList_append]
        exact List.prefix_append _ _
      obtain ⟨obj', hobj', heq⟩ := List.mem_map.mp he
      rwa [← toJson_injective (congrArg Prod.snd heq)]
  · have hnodup : ((objs.map entry).map Prod.fst).Nodup := by
      rw [hobjs]
      refine List.Nodup.sublist (List.filter_sublist.map _) ?_
      rw [Std.ExtTreeMap.map_fst_toList_eq_keys]
      exact Std.ExtTreeMap.nodup_keys
    rw [List.map_map] at hnodup
    refine List.Nodup.of_map (key kind.Obj) ?_
    rw [List.map_map]
    exact hnodup

end WellFormed

/-! ## The invariant of the revisions -/

/-- What the keys, the versions and the counter have to do with each other. -/
structure RevisionInv (db : Db) : Prop where
  wellFormed : WellFormed db
  get : ∀ (kind : Kind) (name : String), ∃ o, ResourceStore.get kind.Obj db name = .ok o ∧
    ∀ obj, o = some obj ↔ (getMeta obj).name = name ∧ Stored db obj
  list : ∀ kind : Kind, ∃ objs, ResourceStore.list kind.Obj db = .ok (objs, currentRv db) ∧
    ∀ obj, obj ∈ objs ↔ Stored db obj
  distinct : ∀ (kind kind' : Kind) (obj : kind.Obj) (obj' : kind'.Obj), Stored db obj →
    Stored db obj' → (getMeta obj).resourceVersion = (getMeta obj').resourceVersion →
      kind = kind' ∧ (getMeta obj).name = (getMeta obj').name

/-- What one more operation does to the counter, by what it answers. -/
structure Counts {T : Type} [ResourceMeta T] (db : Db) (r : StoreOutcome T) : Prop where
  ok : ∀ obj, r.result = .ok obj → currentRv r.db = currentRv db + 1 ∧
    (getMeta obj).resourceVersion = some (toString (currentRv db + 1))
  refused : ∀ e, r.result = .error e → (∀ msg, e ≠ .sled msg) → r.db = db

theorem counts_run {T : Type} [ResourceMeta T] [LawfulResourceMeta T] (op : StoreOp T)
    (faults : Faults) {db : Db} (hmax : currentRv db < u64Max) : Counts db (op.run faults db) := by
  cases hc : op.commit faults db with
  | none =>
    obtain ⟨hdb, -, hno⟩ := StoreOp.run_of_commit_none hc
    exact ⟨fun obj hok => absurd hok (hno obj), fun e _ _ => hdb⟩
  | some c =>
    obtain ⟨hf, base, hbase, -⟩ := StoreOp.commit_eq_some.mp hc
    have hcount : currentRv (op.run faults db).db = currentRv db + 1 := by
      rw [hbase.run_db hf, StoreOp.effect_currentRv, saturatingSucc_of_lt hmax]
    have hrv := op.resourceVersion_effect db base
    rw [saturatingSucc_of_lt hmax] at hrv
    rcases hbase.run_cases hf with ⟨-, hrun⟩ | ⟨msg, -, -, hrun⟩
    · refine ⟨fun obj hok => ⟨hcount, ?_⟩, fun e he => ?_⟩
      · rw [hrun] at hok
        rwa [← Except.ok.inj hok]
      · rw [hrun] at he
        cases he
    · refine ⟨fun obj hok => ?_, fun e he hne => ?_⟩
      · rw [hrun] at hok
        cases hok
      · rw [hrun] at he
        exact absurd (Except.error.inj he).symm (hne msg)

theorem WellFormed.list_ok {db : Db} (h : WellFormed db) (kind : Kind) :
    ∃ objs, ResourceStore.list kind.Obj db = .ok (objs, currentRv db) ∧
      ∀ obj, obj ∈ objs ↔ Stored db obj := by
  obtain ⟨objs, hitems, hmem, -⟩ := h.items_ok kind
  refine ⟨objs, ?_, hmem⟩
  unfold ResourceStore.list
  rw [hitems]
  rfl

/-- An object was stored by a commit that was assigned its version. -/
theorem committed_of_stored {calls : List (StoreCall × Faults)} {kind : Kind} {obj : kind.Obj}
    (hs : Stored (dbAfter calls) obj) : ∃ j w, commits calls j = some w ∧
      w.key = key kind.Obj (getMeta obj).name ∧ w.label = (getMeta obj).resourceVersion := by
  have hcontent : content (dbAt calls calls.length) (key kind.Obj (getMeta obj).name) =
      some (toJson obj) := by
    rw [content_key, dbAt, Versioned.stateAt_of_length_le _ _ le_rfl]
    exact hs
  obtain ⟨j, w, hlast, hv⟩ := (stores_lawful.content_iff (by simp [content])).mp hcontent
  obtain ⟨obj', heq, hlabel⟩ := commits_value hlast.commit hlast.key hv
  obtain rfl := toJson_injective heq
  exact ⟨j, w, hlast.commit, hlast.key, hlabel⟩

/-- **The revisions.** After any history of calls that keep objects under their names, every object
is where its kind and name put it, reads of a kind find its objects and no others, and the versions
are distinct and at most the counter. A further call that succeeds raises the counter by one and
answers with an object of that version; one that is refused leaves the database as it is. -/
theorem revision_invariant (calls : List (StoreCall × Faults))
    (ha : ∀ call ∈ calls, call.1.op.Addressed) (hmax : currentRv (dbAfter calls) < u64Max) :
    RevisionInv (dbAfter calls) ∧ ∀ (next : StoreCall) (faults : Faults),
      Counts (dbAfter calls) (next.op.run faults (dbAfter calls)) := by
  have hwf : WellFormed (dbAfter calls) := WellFormed.empty.foldl ha
  refine ⟨⟨hwf, hwf.get_ok, hwf.list_ok, ?_⟩, fun next faults => counts_run next.op faults hmax⟩
  intro kind kind' obj obj' hs hs' heq
  obtain ⟨j, w, hw, hkey, hlabel⟩ := committed_of_stored hs
  obtain ⟨j', w', hw', hkey', hlabel'⟩ := committed_of_stored hs'
  have hlabels : w.label = w'.label := hlabel.trans (heq.trans hlabel'.symm)
  obtain rfl := stores_lawful.label_unique hmax hw hw' hlabels
  obtain rfl := Option.some.inj (hw.symm.trans hw')
  exact key_injective (hkey.symm.trans hkey')

theorem rivals_addressed : ∀ call ∈ rivals, call.1.op.Addressed := by
  intro call hcall
  simp only [rivals, List.mem_cons, List.not_mem_nil, or_false] at hcall
  rcases hcall with rfl | rfl | rfl
  · exact trivial
  · rfl
  · rfl

theorem revision_invariant_rivals : RevisionInv (dbAfter rivals) :=
  (revision_invariant rivals rivals_addressed (by decide +kernel)).1

end MyK8s.ApiServer
