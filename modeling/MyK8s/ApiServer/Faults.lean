import MyK8s.ApiServer.Revisions

/-!
# When sled fails

`src/apiserver/storage.rs`: a write commits its transaction, then calls `index_rv`, then emits its
event. An error of `index_rv` returns early: the caller is told that the write has failed, it has
not, and the watchers do not hear of it.

`allOrNothing_iff`: which writes are all or nothing all the same.
-/

namespace MyK8s.ApiServer

open ResourceMeta (getMeta)

section Store

variable {T : Type} [ResourceMeta T]

/-- An operation that fails has changed nothing and told nobody. One that succeeds has stored its
change and sent one event, with the object. -/
structure AllOrNothing (op : StoreOp T) (faults : Faults) (db : Db) : Prop where
  failed : ∀ e, (op.run faults db).result = .error e →
    (op.run faults db).db = db ∧ (op.run faults db).events = []
  succeeded : ∀ obj, (op.run faults db).result = .ok obj →
    op.txn db = .ok (obj, (op.run faults db).db) ∧
      (op.run faults db).db[key T op.name]? = op.leaves obj ∧
      (op.run faults db).events = [⟨op.eventType, obj⟩]

/-- A status that is set to what it is, when the counter cannot move any more. -/
def StoreOp.Rewrites (db : Db) : StoreOp T → Prop
  | replaceStatus name rv mutate => u64Max ≤ currentRv db ∧
    ∃ base, loadRequired T db name = .ok base ∧ rv = version base ∧
      db[key T name]? = some (toJson (stamped (currentRv db) (mutate base)))
  | _ => False

theorem StoreOp.effect_getElem? (op : StoreOp T) (db : Db) (base : T) :
    (op.effect db base).2[key T op.name]? = op.leaves (op.effect db base).1 := by
  unfold effect
  rw [getElem?_put, if_pos rfl]

theorem saturatingSucc_eq_self_iff {n : ℕ} : saturatingSucc n = n ↔ u64Max ≤ n := by
  unfold saturatingSucc
  split <;> omega

theorem counter_of_pos {db : Db} (h : 0 < currentRv db) :
    db[rvCounterKey]? = some (.counter (currentRv db)) := by
  unfold currentRv at *
  cases hc : db[rvCounterKey]? with
  | none => simp [hc] at h
  | some cell =>
    cases cell with
    | json v => simp [hc, decodeU64] at h
    | counter n => simp [decodeU64]

/-- A write with the counter at its end, of what is there already, changes nothing. -/
theorem put_eq_self {db : Db} {name : String} {cell : Cell} (hmax : u64Max ≤ currentRv db)
    (h : db[key T name]? = some cell) : put (bumpRv db).2 (key T name) (some cell) = db := by
  apply Std.ExtTreeMap.ext_getElem?
  intro k
  rw [getElem?_put]
  split
  · rename_i hk
    rw [← hk, h]
  · unfold bumpRv
    simp only [Std.ExtTreeMap.getElem?_insert, saturatingSucc_eq_self_iff.mpr hmax]
    split
    · rename_i hk
      have hpos : 0 < currentRv db := lt_of_lt_of_le (by decide) hmax
      rw [← Std.LawfulEqOrd.eq_of_compare hk, counter_of_pos hpos]
    · rfl

theorem next_generation_ne (g : Option UInt64) : some (g.getD 0 + 1) ≠ g := by
  cases g with
  | none => simp
  | some g =>
    rw [Option.getD_some, ne_eq, Option.some.injEq]
    intro h
    have hnat := congrArg UInt64.toNat h
    rw [UInt64.toNat_add] at hnat
    have hlt := g.toNat_lt
    change (g.toNat + 1) % 2 ^ 64 = g.toNat at hnat
    omega

/-- The writes that are entered in the index change the database, but for a status rewritten. -/
theorem StoreOp.effect_eq_self_iff [LawfulResourceMeta T] {op : StoreOp T} {db : Db} {base : T}
    (hbase : op.StartsFrom db base) (hx : op.indexes = true) :
    (op.effect db base).2 = db ↔ op.Rewrites db := by
  constructor
  · intro heq
    have hmax : u64Max ≤ currentRv db := by
      rw [← saturatingSucc_eq_self_iff, ← op.effect_currentRv db base, heq]
    have hcell := op.effect_getElem? db base
    rw [heq] at hcell
    cases op with
    | createPrestamped obj =>
      rw [name, hbase.1] at hcell
      cases hcell
    | replaceSpec name newObj =>
      obtain ⟨cell, hfound, hread⟩ := loadRequired_eq_ok.mp hbase.1
      obtain rfl := Option.some.inj (hfound.symm.trans hcell)
      rw [fromSlice_toJson] at hread
      -- the generation has moved
      have hgen := congrArg (fun obj => (getMeta obj).generation) (Except.ok.inj hread)
      simp only [effect, revise, LawfulResourceMeta.getMeta_inheritStatus,
        LawfulResourceMeta.getMeta_setMeta] at hgen
      exact absurd hgen (next_generation_ne _)
    | replaceStatus name rv mutate =>
      refine ⟨hmax, base, hbase.1, Option.some.inj hbase.2, ?_⟩
      have hrv : (bumpRv db).1 = currentRv db := saturatingSucc_eq_self_iff.mpr hmax
      simpa [effect, revise, hrv, StoreOp.name, leaves] using hcell
    | delete name rv => cases hx
  · intro hr
    cases op with
    | replaceStatus name rv mutate =>
      obtain ⟨hmax, base', hload, -, hcell⟩ := hr
      obtain rfl := Except.ok.inj (hbase.1.symm.trans hload)
      have hrv : (bumpRv db).1 = currentRv db := saturatingSucc_eq_self_iff.mpr hmax
      simp only [effect, revise, hrv]
      exact put_eq_self hmax hcell
    | _ => exact hr.elim

/-- **All or nothing.** Whatever the database and the storage calls that fail: the operation is all
or nothing exactly if the index takes its entry or is not asked to, or the transaction itself does
not go through, or a status is rewritten at the end of the counter. -/
theorem allOrNothing_iff [LawfulResourceMeta T] (op : StoreOp T) (faults : Faults) (db : Db) :
    AllOrNothing op faults db ↔
      faults.index = none ∨ op.indexes = false ∨ faults.txn ≠ none ∨
        (¬ ∃ base, op.StartsFrom db base) ∨ op.Rewrites db := by
  cases hc : op.commit faults db with
  | none =>
    obtain ⟨hdb, hevents, hno⟩ := StoreOp.run_of_commit_none hc
    have hout : faults.txn ≠ none ∨ ¬ ∃ base, op.StartsFrom db base := by
      by_contra hcon
      push Not at hcon
      obtain ⟨hf, base, hbase⟩ := hcon
      rw [StoreOp.commit_eq_some.mpr ⟨hf, base, hbase, rfl⟩] at hc
      cases hc
    constructor
    · intro _
      tauto
    · intro _
      exact ⟨fun _ _ => ⟨hdb, hevents⟩, fun obj hok => absurd hok (hno obj)⟩
  | some c =>
    obtain ⟨hf, base, hbase, -⟩ := StoreOp.commit_eq_some.mp hc
    rcases hbase.run_cases hf with ⟨hgo, hrun⟩ | ⟨msg, hx, hi, hrun⟩
    · constructor
      · intro _
        cases hx : op.indexes with
        | false => exact .inr (.inl rfl)
        | true => exact .inl (hgo hx)
      · intro _
        refine ⟨fun e he => ?_, fun obj hok => ?_⟩
        · rw [hrun] at he
          cases he
        · rw [hrun] at hok ⊢
          obtain rfl := Except.ok.inj hok
          exact ⟨hbase.txn_eq, op.effect_getElem? db base, rfl⟩
    · constructor
      · intro h
        have hsame := (h.failed (.sled msg) (by rw [hrun])).1
        rw [hrun] at hsame
        exact .inr (.inr (.inr (.inr ((StoreOp.effect_eq_self_iff hbase hx).mp hsame))))
      · rintro (h | h | h | h | h)
        · rw [hi] at h
          cases h
        · rw [hx] at h
          cases h
        · exact absurd hf h
        · exact absurd ⟨base, hbase⟩ h
        · refine ⟨fun e he => ?_, fun obj hok => ?_⟩
          · rw [hrun]
            exact ⟨(StoreOp.effect_eq_self_iff hbase hx).mpr h, rfl⟩
          · rw [hrun] at hok
            cases hok

end Store

/-- A delete is not entered in the index. -/
theorem allOrNothing_delete :
    AllOrNothing (.delete "web" "1" : StoreOp Pod) ⟨none, some "disk full"⟩ ∅ :=
  (allOrNothing_iff _ _ _).mpr (.inr (.inl rfl))

/-- A pod is created, and the index does not take its revision. -/
theorem not_allOrNothing_create :
    ¬ AllOrNothing (.createPrestamped (samplePod "web" none none)) ⟨none, some "disk full"⟩ ∅ := by
  intro h
  have hdb := (h.failed (.sled "disk full") rfl).1
  have hcount : currentRv (StoreOp.run ⟨none, some "disk full"⟩ ∅
    (.createPrestamped (samplePod "web" none none))).db = 1 := by decide +kernel
  rw [hdb] at hcount
  exact absurd hcount (by decide)

end MyK8s.ApiServer
