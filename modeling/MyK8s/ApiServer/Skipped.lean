import MyK8s.ApiServer.Restart

/-!
# Commands that fail on one replica

`apply_loop` goes on to the next entry whatever comes out of one. A command that every replica refuses
changes nothing anywhere, but one whose transaction meets an error of the local database takes effect
on the other replicas and not on this one, and the commands after it are applied without it.

`skipped_iff`: the stores of a replica stay among those that the log leads to, exactly as long as no
command takes effect after one that has been missed, but for one that does the same.
-/

namespace MyK8s.ApiServer

open ResourceMeta (kindPrefix)

/-! ## Storage errors -/

section Faults

variable {T : Type} [ResourceMeta T] {faults : Faults} {db : Db}

omit [ResourceMeta T] in
/-- An error within the transaction leaves all as it was, one after it does not undo it. -/
theorem ResourceStore.run_db (txn : Except StoreError (T × Db)) (indexes : Bool)
    (eventType : WatchEventType) :
    (run faults db txn indexes eventType).db =
      if faults.txn.isSome then db else (run Faults.none db txn indexes eventType).db := by
  unfold run
  cases faults.txn with
  | some msg => rfl
  | none =>
    cases txn with
    | error e => rfl
    | ok r =>
      obtain ⟨obj, db'⟩ := r
      cases indexes with
      | false => rfl
      | true => cases faults.index <;> rfl

theorem applyOp_db (notice : WatchEvent T → Notice) (setStatus : T → Serde.Value → T) (op : Op) :
    (applyOp notice setStatus faults db op).db =
      if faults.txn.isSome then db else (applyOp notice setStatus Faults.none db op).db := by
  cases op with
  | create obj =>
    simp only [applyOp]
    cases (Serde.fromValue obj : Except Serde.Error T) with
    | ok o => exact ResourceStore.run_db _ _ _
    | error e => exact (ite_self db).symm
  | replaceSpec name obj =>
    simp only [applyOp]
    cases (Serde.fromValue obj : Except Serde.Error T) with
    | ok o => exact ResourceStore.run_db _ _ _
    | error e => exact (ite_self db).symm
  | replaceStatus name rv status => exact ResourceStore.run_db _ _ _
  | delete name rv => exact ResourceStore.run_db _ _ _

theorem apply_db (cmd : StoreCommand) :
    (apply faults db cmd).db = if faults.txn.isSome then db else applyNext db cmd := by
  unfold applyNext apply
  simp only
  split
  · exact applyOp_db _ _ cmd.op
  · split
    · exact applyOp_db _ _ cmd.op
    · split
      · exact applyOp_db _ _ cmd.op
      · split
        · exact applyOp_db _ _ cmd.op
        · split
          · exact applyOp_db _ _ cmd.op
          · exact (ite_self db).symm

end Faults

/-! ## A replica that misses commands -/

/-- The body of `apply_loop`, with the storage errors that the command meets. -/
def applyWithFaults (db : Db) (entry : StoreCommand × Faults) : Db := (apply entry.2 db entry.1).db

/-- The database of a replica that has applied the log as far as its storage let it. -/
def applyAllWithFaults (entries : List (StoreCommand × Faults)) : Db :=
  entries.foldl applyWithFaults ∅

/-- Which of the commands are missed. -/
def marked (entries : List (StoreCommand × Faults)) : List (StoreCommand × Bool) :=
  entries.map fun entry => (entry.1, entry.2.txn.isSome)

theorem applyAllWithFaults_eq_lag (entries : List (StoreCommand × Faults)) :
    applyAllWithFaults entries = Replay.lag applyNext ∅ (marked entries) := by
  unfold applyAllWithFaults Replay.lag marked
  rw [List.foldl_map]
  congr 1
  funext db entry
  exact apply_db entry.1

@[simp] theorem map_fst_marked (entries : List (StoreCommand × Faults)) :
    (marked entries).map Prod.fst = entries.map Prod.fst := by
  simp [marked, Function.comp_def]

theorem prefix_marked_iff {entries : List (StoreCommand × Faults)} {past : List (StoreCommand × Bool)} :
    past <+: marked entries ↔ ∃ p, p <+: entries ∧ past = marked p := by
  unfold marked
  constructor
  · intro h
    obtain ⟨p, hp, heq⟩ := List.prefix_map_iff.mp h
    exact ⟨p, hp, heq⟩
  · rintro ⟨p, hp, rfl⟩
    exact hp.map _

/-- **Skipped commands.** All along a log, the objects and the counter of a replica are those of some
part of the log from its start, if and only if each command that its storage lets through is refused,
or has the effect of the next one that has been missed. (The index of an entry is a `u64`, and there
is no log of that many.) -/
theorem skipped_iff (entries : List (StoreCommand × Faults)) (hlen : entries.length < u64Max) :
    (∀ past, past <+: entries → ∃ log, log <+: past.map Prod.fst ∧
      applyAllWithFaults past = applyAll log) ↔
    ∀ past cmd faults, past ++ [(cmd, faults)] <+: entries → faults.txn = none →
      Refused (applyAllWithFaults past) cmd ∨
      ∀ log missed, log ++ [missed] <+: past.map Prod.fst → applyAll log = applyAllWithFaults past →
        ¬ Refused (applyAllWithFaults past) missed →
        applyNext (applyAllWithFaults past) cmd = applyNext (applyAllWithFaults past) missed := by
  have hlag : (∀ past, past <+: marked entries → Replay.OnTrack applyNext ∅ past) ↔
      ∀ past cmd, past ++ [(cmd, false)] <+: marked entries →
        Replay.InStep applyNext Refused ∅ past cmd :=
    applyNext_counted.onTrack_iff (by decide) (by simpa [marked] using hlen.le)
  have htrack : ∀ past : List (StoreCommand × Faults),
      Replay.OnTrack applyNext ∅ (marked past) ↔
        ∃ log, log <+: past.map Prod.fst ∧ applyAllWithFaults past = applyAll log := by
    intro past
    unfold Replay.OnTrack
    rw [← applyAllWithFaults_eq_lag, map_fst_marked]
    constructor
    · rintro ⟨k, -, heq⟩
      exact ⟨_, List.take_prefix k _, heq⟩
    · rintro ⟨log, hlog, heq⟩
      refine ⟨log.length, by simpa [marked] using hlog.length_le, ?_⟩
      rw [heq, ← List.prefix_iff_eq_take.mp hlog]
      rfl
  have hin : ∀ past cmd, Replay.InStep applyNext Refused ∅ (marked past) cmd ↔
      (Refused (applyAllWithFaults past) cmd ∨
      ∀ log missed, log ++ [missed] <+: past.map Prod.fst → applyAll log = applyAllWithFaults past →
        ¬ Refused (applyAllWithFaults past) missed →
        applyNext (applyAllWithFaults past) cmd = applyNext (applyAllWithFaults past) missed) := by
    intro past cmd
    unfold Replay.InStep
    rw [← applyAllWithFaults_eq_lag, map_fst_marked]
    rfl
  constructor
  · intro hall past cmd faults hp hok
    refine (hin past cmd).mp (hlag.mp (fun past' hp' => ?_) (marked past) cmd ?_)
    · obtain ⟨p, hp, rfl⟩ := prefix_marked_iff.mp hp'
      exact (htrack p).mpr (hall p hp)
    · exact prefix_marked_iff.mpr ⟨_, hp, by simp [marked, hok]⟩
  · intro hall past hp
    refine (htrack past).mp (hlag.mpr (fun past' cmd hp' => ?_) _ (prefix_marked_iff.mpr ⟨past, hp, rfl⟩))
    obtain ⟨p, hp, heq⟩ := prefix_marked_iff.mp hp'
    obtain ⟨q, ⟨cmd', faults⟩, rfl⟩ : ∃ q x, p = q ++ [x] := by
      refine ⟨p.dropLast, p.getLast ?_, (List.dropLast_append_getLast _).symm⟩
      rintro rfl
      simp [marked] at heq
    have heq' : past' ++ [(cmd, false)] = marked q ++ [(cmd', faults.txn.isSome)] := by
      simpa [marked] using heq
    obtain ⟨rfl, hlast⟩ := List.append_inj' heq' rfl
    obtain ⟨rfl, hok⟩ := Prod.mk.inj (List.singleton_inj.mp hlast)
    exact (hin q cmd).mpr (hall q cmd faults hp (Option.not_isSome_iff_eq_none.mp (by simp [← hok])))

/-! ## A pod without its predecessor -/

def sledError : Faults := ⟨some "sled error: io", none⟩

def createDb : StoreCommand where
  id := 3
  kind := "pods/"
  op := .create (Serde.toValue { web with metadata := { web.metadata with name := "db" } })

/-- The last command of a log may fail. -/
theorem skipped_deleteWeb :
    ∃ log, log <+: [createWeb, deleteWeb] ∧
      applyAllWithFaults [(createWeb, Faults.none), (deleteWeb, sledError)] = applyAll log := by
  refine (skipped_iff [(createWeb, Faults.none), (deleteWeb, sledError)] (by decide)).mpr ?_ _
    List.prefix_rfl
  intro past cmd faults hp hok
  cases past with
  | nil => exact .inr fun log missed hlog => absurd hlog (by simp)
  | cons x past =>
    obtain ⟨rfl, hrest⟩ := List.cons_prefix_cons.mp hp
    cases past with
    | nil =>
      obtain ⟨heq, -⟩ := List.cons_prefix_cons.mp hrest
      obtain ⟨-, rfl⟩ := Prod.mk.inj heq
      cases hok
    | cons y past =>
      have hlen := hrest.length_le
      simp at hlen

/-- Pod `web` is missing on the replica, and pod `db` has the version that `web` has elsewhere. -/
theorem skipped_createWeb :
    let db := applyAllWithFaults [(createWeb, sledError), (createDb, Faults.none)]
    db["pods/web"]?.isSome = false ∧ db["pods/db"]?.isSome = true ∧ currentRv db = 1 ∧
      ¬ ∃ log, log <+: [createWeb, createDb] ∧ db = applyAll log := by
  have hdb : (applyAllWithFaults [(createWeb, sledError), (createDb, Faults.none)])["pods/db"]?.isSome =
      true := by decide +kernel
  have hrv : currentRv (applyAllWithFaults [(createWeb, sledError), (createDb, Faults.none)]) = 1 := by
    decide +kernel
  refine ⟨by decide +kernel, hdb, hrv, ?_⟩
  rintro ⟨log, hlog, heq⟩
  rw [heq] at hdb hrv
  have hcases : log = [] ∨ log = [createWeb] ∨ log = [createWeb, createDb] := by
    match log, hlog with
    | [], _ => exact .inl rfl
    | [x], h =>
      obtain ⟨rfl, -⟩ := List.cons_prefix_cons.mp h
      exact .inr (.inl rfl)
    | [x, y], h =>
      obtain ⟨rfl, hy⟩ := List.cons_prefix_cons.mp h
      obtain ⟨rfl, -⟩ := List.cons_prefix_cons.mp hy
      exact .inr (.inr rfl)
    | x :: y :: z :: rest, h =>
      have hlen := h.length_le
      simp at hlen
  rcases hcases with rfl | rfl | rfl
  · exact absurd hdb (by decide +kernel)
  · exact absurd hdb (by decide +kernel)
  · exact absurd hrv (by decide +kernel)

end MyK8s.ApiServer
