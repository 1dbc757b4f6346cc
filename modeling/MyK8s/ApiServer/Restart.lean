import MyK8s.Lib.Replay
import MyK8s.ApiServer.Applier

/-!
# Restarting a replica

The stores of a replica are on disk, and how much of the log it has applied is not: `RaftShell::new`
starts with `last_applied` at 0, and `apply_loop` gets the log from index 1 again, for the stores
that already have its effects.

`replay_agrees_iff`: this is harmless exactly as long as no command that has been applied would take
effect again. Delete an object, and the create before it does.
-/

namespace MyK8s.ApiServer

open ResourceMeta (kindPrefix getMeta)

/-- The body of `apply_loop`, for a command that parses. -/
def applyNext (db : Db) (cmd : StoreCommand) : Db := (apply Faults.none db cmd).db

/-- The database of a replica that has applied the log, from empty stores and without a crash. -/
def applyAll (log : List StoreCommand) : Db := log.foldl applyNext ∅

/-- The same with crashes, each after a number of commands from the start of the log. -/
def applyWithCrashes (log : List StoreCommand) (crashes : List ℕ) : Db :=
  Replay.replay applyNext ∅ log crashes

theorem applyNext_counted : Replay.Counted applyNext Refused currentRv u64Max where
  refused h := (apply_effective _ _).refused h
  le db cmd := by
    by_cases h : Refused db cmd
    · exact (congrArg currentRv ((apply_effective db cmd).refused h)).ge
    · rw [applyNext, (apply_effective db cmd).counted h]
      unfold saturatingSucc
      split <;> omega
  le_succ db cmd := by
    by_cases h : Refused db cmd
    · rw [applyNext, (apply_effective db cmd).refused h]
      omega
    · rw [applyNext, (apply_effective db cmd).counted h]
      unfold saturatingSucc
      split <;> omega
  lt := by
    intro db cmd h hlt
    rw [applyNext, (apply_effective db cmd).counted h]
    unfold saturatingSucc
    rw [if_pos hlt]
    omega

/-- **Replay after restart.** At every length of the log, and for all crashes on the way, a replica
ends with the objects and the counter of one that never crashed, if and only if at every length the
stores would refuse each command that has been applied. (The index of an entry is a `u64`, and there
is no log of that many.) -/
theorem replay_agrees_iff (log : List StoreCommand) (hlen : log.length < u64Max) :
    (∀ past, past <+: log → ∀ crashes, applyWithCrashes past crashes = applyAll past) ↔
      ∀ past, past <+: log → ∀ cmd ∈ past, Refused (applyAll past) cmd :=
  applyNext_counted.replay_eq_iff (by decide) hlen

/-! ## A pod that comes back -/

def web : Pod where
  apiVersion := "v1"
  kind := "Pod"
  metadata :=
    { name := "web"
      uid := some "uid-web"
      resourceVersion := none
      generation := some 1
      creationTimestamp := some "2026-06-12T10:00:00Z"
      labels := ∅
      ownerReferences := [] }
  spec := { containers := [], nodeName := none }
  status := none

def createWeb : StoreCommand where
  id := 1
  kind := "pods/"
  op := .create (Serde.toValue web)

def deleteWeb : StoreCommand where
  id := 2
  kind := "pods/"
  op := .delete "web" "1"

/-- A log that only creates an object can be replayed. -/
theorem replay_agrees_createWeb :
    applyWithCrashes [createWeb] [1, 0, 1] = applyAll [createWeb] := by
  refine (replay_agrees_iff [createWeb] (by decide)).mpr ?_ _ List.prefix_rfl _
  intro past hp cmd hcmd
  cases past with
  | nil => cases hcmd
  | cons c rest =>
    obtain ⟨rfl, hrest⟩ := List.cons_prefix_cons.mp hp
    obtain rfl := List.prefix_nil.mp hrest
    obtain rfl := List.mem_singleton.mp hcmd
    unfold Refused
    rw [if_pos (by decide)]
    intro o ho
    have hweb : Serde.fromValue (Serde.toValue web) = .ok web := by decide +kernel
    obtain rfl : o = web := Except.ok.inj (ho.symm.trans hweb)
    have hstored : (applyAll [createWeb])[key Pod "web"]?.isSome = true := by decide +kernel
    exact Option.ne_none_iff_isSome.mpr hstored

/-- The pod is deleted, and a restart brings it back under version 3. -/
theorem restart_restores_deleted :
    (applyAll [createWeb, deleteWeb])["pods/web"]?.isSome = false ∧
      currentRv (applyAll [createWeb, deleteWeb]) = 2 ∧
      (applyWithCrashes [createWeb, deleteWeb] [2])["pods/web"]?.isSome = true ∧
      currentRv (applyWithCrashes [createWeb, deleteWeb] [2]) = 3 := by
  decide +kernel

end MyK8s.ApiServer
