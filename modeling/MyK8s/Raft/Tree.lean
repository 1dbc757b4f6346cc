import MyK8s.Lib.Decimal
import MyK8s.Raft.Wire

/-!
# The tree behind the durable state

`src/raft/storage.rs` over the bytes of its keys: a log entry is stored under its index, padded to 20 digits,
and the log is read and truncated by a scan of the keys that begin with `log/`. The order of these keys is
that of the indices (`compare_logKey`), so the tree holds the map that `RaftStorage` is, write by write
(`Represents.run`). What is read back after any calls is what the calls say (`storage_refines_log`).
-/

namespace MyK8s.Raft

open Decimal (utf8 padded)
open Serde (Value)

/-! ## Keys -/

def hardStateKey : List UInt8 := utf8 "hard_state"

def logKeyPrefix : String := "log/"

def logKey (index : ℕ) : List UInt8 := utf8 (logKeyPrefix ++ padded 20 index)

theorem logKey_eq (index : ℕ) : logKey index = utf8 logKeyPrefix ++ utf8 (padded 20 index) :=
  Decimal.utf8_append ..

theorem prefix_logKey (index : ℕ) : utf8 logKeyPrefix <+: logKey index := by
  rw [logKey_eq]
  exact List.prefix_append ..

theorem not_prefix_hardStateKey : ¬ utf8 logKeyPrefix <+: hardStateKey := by
  decide +kernel

/-- No entry is stored where the hard state is. -/
theorem logKey_ne_hardStateKey (index : ℕ) : logKey index ≠ hardStateKey :=
  fun h => not_prefix_hardStateKey (h ▸ prefix_logKey index)

/-- **The bytes of the keys are in the order of the indices.** -/
theorem compare_logKey {m n : ℕ} (hm : FitsU64 m) (hn : FitsU64 n) :
    compare (logKey m) (logKey n) = compare m n := by
  unfold FitsU64 at hm hn
  have hself : compare (utf8 logKeyPrefix) (utf8 logKeyPrefix) = .eq := Std.ReflCmp.compare_self
  rw [logKey_eq, logKey_eq, Decimal.compare_append rfl, hself]
  exact Decimal.compare_utf8_padded (by decide) (by omega) (by omega)

/-! ## The tree -/

/-- A `sled::Tree`, by the bytes of its keys. A document stands for its text: it is flat and has no numbers but
integers, so the text reads back (`TextLayer.readsBack_of_plain`). -/
abbrev RaftTree := Std.ExtTreeMap (List UInt8) Value

namespace RaftTree

/-- `scan_prefix`, in the order of the keys. -/
def scanPrefix (t : RaftTree) (start : List UInt8) : List (List UInt8 × Value) :=
  t.toList.filter fun item => start <+: item.1

def loadHardState (t : RaftTree) : Except Serde.Error HardState :=
  match t[hardStateKey]? with
  | some bytes => Serde.fromValue bytes
  | none => .ok .default

def saveHardState (t : RaftTree) (hs : HardState) : RaftTree := t.insert hardStateKey (Serde.toValue hs)

def appendEntries (t : RaftTree) (entries : List LogEntry) : RaftTree :=
  entries.foldl (fun t entry => t.insert (logKey entry.index) (Serde.toValue entry)) t

/-- The keys that `truncate_from` collects before it removes any of them. -/
def doomed (t : RaftTree) (start : ℕ) : List (List UInt8) :=
  ((scanPrefix t (utf8 logKeyPrefix)).map Prod.fst).filter fun k =>
    (compare k (logKey (max start 1))).isGE

def truncateFrom (t : RaftTree) (start : ℕ) : RaftTree :=
  (doomed t start).foldl (fun t key => t.erase key) t

def loadLog (t : RaftTree) : Except Serde.Error (List LogEntry) :=
  (scanPrefix t (utf8 logKeyPrefix)).mapM fun item => Serde.fromValue item.2

/-- A single write. -/
def runOp (t : RaftTree) : TreeOp → RaftTree
  | .insertHardState hs => t.insert hardStateKey (Serde.toValue hs)
  | .insertEntry e => t.insert (logKey e.index) (Serde.toValue e)
  | .removeEntry index => t.erase (logKey index)

end RaftTree

/-! ## The tree holds the map -/

def TreeOp.Fits : TreeOp → Prop
  | .insertHardState hs => hs.Fits
  | .insertEntry e => e.Fits
  | .removeEntry index => FitsU64 index

/-- The hard state and the entries of the map are in the tree, under their keys, and nothing else is. -/
structure Represents (t : RaftTree) (s : RaftStorage) : Prop where
  hardState : t[hardStateKey]? = s.hardState.map Serde.toValue
  log : ∀ n : ℕ, FitsU64 n → t[logKey n]? = s.log[n]?.map Serde.toValue
  keys : ∀ k ∈ t, k = hardStateKey ∨ ∃ n, FitsU64 n ∧ k = logKey n
  fitsHardState : ∀ hs : HardState, s.hardState = some hs → hs.Fits
  fitsLog : ∀ (n : ℕ) (e : LogEntry), s.log[n]? = some e → e.Fits

namespace Represents

variable {t : RaftTree} {s : RaftStorage}

theorem fresh : Represents ∅ .fresh where
  hardState := by simp [RaftStorage.fresh]
  log n _ := by simp [RaftStorage.fresh]
  keys k hk := by simp at hk
  fitsHardState := nofun
  fitsLog n e h := by simp [RaftStorage.fresh] at h

theorem fits (h : Represents t s) {n : ℕ} {e : LogEntry} (he : s.log[n]? = some e) : FitsU64 n :=
  s.keyed n e he ▸ (h.fitsLog n e he).index

/-- One write of the tree is one write of the map. -/
theorem runOp (h : Represents t s) {op : TreeOp} (hop : op.Fits) : Represents (RaftTree.runOp t op) (s.runOp op) := by
  cases op with
  | insertHardState hs =>
    refine ⟨Std.ExtTreeMap.getElem?_insert_self, fun n hn => ?_, fun k hk => ?_, fun hs' heq => ?_, h.fitsLog⟩
    · show (t.insert hardStateKey _)[logKey n]? = _
      rw [Std.ExtTreeMap.getElem?_insert, if_neg]
      · exact h.log n hn
      · exact fun heq => logKey_ne_hardStateKey n (Std.LawfulEqCmp.eq_of_compare heq).symm
    · obtain heq | hk := Std.ExtTreeMap.mem_insert.mp hk
      · exact .inl (Std.LawfulEqCmp.eq_of_compare heq).symm
      · exact h.keys k hk
    · cases heq
      exact hop
  | insertEntry e =>
    refine ⟨?_, fun n hn => ?_, fun k hk => ?_, h.fitsHardState, fun n e' he' => ?_⟩
    · show (t.insert (logKey e.index) _)[hardStateKey]? = _
      rw [Std.ExtTreeMap.getElem?_insert, if_neg]
      · exact h.hardState
      · exact fun heq => logKey_ne_hardStateKey e.index (Std.LawfulEqCmp.eq_of_compare heq)
    · show (t.insert (logKey e.index) _)[logKey n]? = _
      rw [Std.ExtTreeMap.getElem?_insert, RaftStorage.log_insertEntry, compare_logKey hop.index hn]
      simp only [Nat.compare_eq_eq]
      split
      · rfl
      · exact h.log n hn
    · obtain heq | hk := Std.ExtTreeMap.mem_insert.mp hk
      · exact .inr ⟨e.index, hop.index, (Std.LawfulEqCmp.eq_of_compare heq).symm⟩
      · exact h.keys k hk
    · rw [RaftStorage.log_insertEntry] at he'
      split at he'
      · cases he'
        exact hop
      · exact h.fitsLog n e' he'
  | removeEntry index =>
    refine ⟨?_, fun n hn => ?_, fun k hk => ?_, h.fitsHardState, fun n e' he' => ?_⟩
    · show (t.erase (logKey index))[hardStateKey]? = _
      rw [Std.ExtTreeMap.getElem?_erase, if_neg]
      · exact h.hardState
      · exact fun heq => logKey_ne_hardStateKey index (Std.LawfulEqCmp.eq_of_compare heq)
    · show (t.erase (logKey index))[logKey n]? = _
      rw [Std.ExtTreeMap.getElem?_erase, RaftStorage.log_removeEntry, compare_logKey hop hn]
      simp only [Nat.compare_eq_eq]
      split
      · rfl
      · exact h.log n hn
    · exact h.keys k (Std.ExtTreeMap.mem_of_mem_erase hk)
    · rw [RaftStorage.log_removeEntry] at he'
      split at he'
      · cases he'
      · exact h.fitsLog n e' he'

theorem run (h : Represents t s) {ops : List TreeOp} (hops : ∀ op ∈ ops, op.Fits) :
    Represents (ops.foldl RaftTree.runOp t) (s.run ops) := by
  induction ops generalizing t s with
  | nil => exact h
  | cons op rest ih =>
    exact ih (h.runOp (hops op List.mem_cons_self)) fun op hop => hops op (List.mem_cons_of_mem _ hop)

/-! ### What is read -/

/-- The scan gives the entries of the map, in its order. -/
theorem scanPrefix_eq (h : Represents t s) : RaftTree.scanPrefix t (utf8 logKeyPrefix) =
    s.log.toList.map fun item => (logKey item.1, Serde.toValue item.2) := by
  let before : List UInt8 × Value → List UInt8 × Value → Prop := fun a b => compare a.1 b.1 = .lt
  have : Std.Asymm before := ⟨fun a b hab hba => by
    have hgt : compare b.1 a.1 = .gt := Std.OrientedCmp.gt_of_lt hab
    cases hgt.symm.trans hba⟩
  have : Std.Irrefl before := ⟨fun a ha => Std.Asymm.asymm a a ha ha⟩
  have hscan : (RaftTree.scanPrefix t (utf8 logKeyPrefix)).Pairwise before :=
    Std.ExtTreeMap.ordered_keys_toList.filter _
  have hmap : (s.log.toList.map fun item => (logKey item.1, Serde.toValue item.2)).Pairwise before := by
    rw [List.pairwise_map]
    refine Std.ExtTreeMap.ordered_keys_toList.imp_of_mem ?_
    rintro ⟨m, e⟩ ⟨n, e'⟩ hm hn hlt
    rw [Std.ExtTreeMap.mem_toList_iff_getElem?_eq_some] at hm hn
    show compare (logKey m) (logKey n) = .lt
    rw [compare_logKey (h.fits hm) (h.fits hn)]
    exact hlt
  refine hscan.eq_of_mem_iff hmap fun ⟨k, v⟩ => ?_
  unfold RaftTree.scanPrefix
  rw [List.mem_filter, Std.ExtTreeMap.mem_toList_iff_getElem?_eq_some, decide_eq_true_eq, List.mem_map]
  constructor
  · rintro ⟨hk, hprefix⟩
    obtain rfl | ⟨n, hn, rfl⟩ := h.keys k (Std.ExtTreeMap.mem_iff_isSome_getElem?.mpr (by rw [hk]; rfl))
    · exact absurd hprefix not_prefix_hardStateKey
    · rw [h.log n hn] at hk
      obtain ⟨e, he, rfl⟩ := Option.map_eq_some_iff.mp hk
      exact ⟨(n, e), Std.ExtTreeMap.mem_toList_iff_getElem?_eq_some.mpr he, rfl⟩
  · rintro ⟨⟨n, e⟩, hmem, heq⟩
    cases heq
    have he := Std.ExtTreeMap.mem_toList_iff_getElem?_eq_some.mp hmem
    exact ⟨by rw [h.log n (h.fits he), he]; rfl, prefix_logKey n⟩

theorem loadLog_eq (h : Represents t s) : RaftTree.loadLog t = .ok s.loadLog := by
  have hread : ∀ e ∈ s.loadLog, (Serde.fromValue (Serde.toValue e) : Except Serde.Error LogEntry) = .ok e :=
    fun e he => LogEntry.fromValue_toValue (h.fitsLog e.index e (RaftStorage.mem_loadLog.mp he))
  calc RaftTree.loadLog t
      = (s.log.toList.map fun item => (logKey item.1, Serde.toValue item.2)).mapM
          fun item => Serde.fromValue item.2 := by rw [RaftTree.loadLog, h.scanPrefix_eq]
    _ = (s.loadLog.map Serde.toValue).mapM Serde.fromValue := by
        rw [List.mapM_map, RaftStorage.loadLog, List.map_map, List.mapM_map]
        rfl
    _ = .ok s.loadLog := Serde.mapM_map_of_ok_mem _ hread

theorem loadHardState_eq (h : Represents t s) : RaftTree.loadHardState t = .ok s.loadHardState := by
  unfold RaftTree.loadHardState RaftStorage.loadHardState
  rw [h.hardState]
  cases hs : s.hardState with
  | none => rfl
  | some hs' => exact HardState.fromValue_toValue (h.fitsHardState hs' hs)

/-- The same keys are collected. -/
theorem doomed_eq (h : Represents t s) {start : ℕ} (hstart : FitsU64 start) :
    RaftTree.doomed t start = (s.doomed start).map logKey := by
  have hone : FitsU64 (max start 1) := by
    unfold FitsU64 at hstart ⊢
    omega
  unfold RaftTree.doomed RaftStorage.doomed
  rw [h.scanPrefix_eq, List.map_map, ← Std.ExtTreeMap.map_fst_toList_eq_keys, List.filter_map, List.filter_map,
    List.map_map]
  refine congrArg _ (List.filter_congr fun item hitem => ?_)
  have hfits := h.fits (Std.ExtTreeMap.mem_toList_iff_getElem?_eq_some.mp hitem)
  show (compare (logKey item.1) (logKey (max start 1))).isGE = decide (max start 1 ≤ item.1)
  rw [compare_logKey hfits hone, Bool.eq_iff_iff, Nat.isGE_compare, decide_eq_true_eq]

end Represents

/-! ## Calls -/

/-- A call that completes. -/
inductive StorageCall
  | saveHardState (hs : HardState)
  | appendEntries (entries : List LogEntry)
  | truncateFrom (start : ℕ)

def StorageCall.Fits : StorageCall → Prop
  | .saveHardState hs => hs.Fits
  | .appendEntries entries => ∀ e ∈ entries, e.Fits
  | .truncateFrom start => FitsU64 start

def RaftTree.call (t : RaftTree) : StorageCall → RaftTree
  | .saveHardState hs => t.saveHardState hs
  | .appendEntries entries => t.appendEntries entries
  | .truncateFrom start => t.truncateFrom start

def RaftStorage.call (s : RaftStorage) : StorageCall → RaftStorage
  | .saveHardState hs => s.saveHardState hs
  | .appendEntries entries => s.appendEntries entries
  | .truncateFrom start => s.truncateFrom start

theorem Represents.call {t : RaftTree} {s : RaftStorage} (h : Represents t s) {c : StorageCall} (hc : c.Fits) :
    Represents (t.call c) (s.call c) := by
  cases c with
  | saveHardState hs =>
    have hop : (TreeOp.insertHardState hs).Fits := hc
    exact h.runOp hop
  | appendEntries entries =>
    have hops : ∀ op ∈ RaftStorage.appendEntriesOps entries, op.Fits := by
      intro op hop
      obtain ⟨e, he, rfl⟩ := List.mem_map.mp hop
      exact hc e he
    have hrun := h.run hops
    rw [RaftStorage.appendEntriesOps, List.foldl_map] at hrun
    exact hrun
  | truncateFrom start =>
    have hops : ∀ op ∈ s.truncateFromOps start, op.Fits := by
      intro op hop
      obtain ⟨n, hn, rfl⟩ := List.mem_map.mp hop
      obtain ⟨e, he⟩ := Option.isSome_iff_exists.mp
        (Std.ExtTreeMap.mem_iff_isSome_getElem?.mp (Std.ExtTreeMap.mem_keys.mp (List.mem_filter.mp hn).1))
      exact h.fits he
    have hrun := h.run hops
    rw [RaftStorage.truncateFromOps, List.foldl_map] at hrun
    show Represents ((t.doomed start).foldl _ t) _
    rw [h.doomed_eq hc, List.foldl_map]
    exact hrun

/-! ## What the calls say -/

namespace StorageCall

/-- What a call makes of the entry at an index: the last one that it appends there, and none where it
truncates. -/
def entryAt (index : ℕ) (entry : Option LogEntry) : StorageCall → Option LogEntry
  | .saveHardState _ => entry
  | .appendEntries entries => (entries.reverse.find? fun e => e.index = index).or entry
  | .truncateFrom start => if max start 1 ≤ index then none else entry

def hardState (saved : HardState) : StorageCall → HardState
  | .saveHardState hs => hs
  | .appendEntries _ | .truncateFrom _ => saved

/-- The last entry that was appended at the index and not truncated since. -/
def lastEntry (calls : List StorageCall) (index : ℕ) : Option LogEntry := calls.foldl (entryAt index) none

/-- The hard state that was saved last. -/
def lastHardState (calls : List StorageCall) : HardState := calls.foldl hardState .default

end StorageCall

namespace RaftStorage

theorem log_run_appendEntriesOps (s : RaftStorage) (entries : List LogEntry) (index : ℕ) :
    (s.run (appendEntriesOps entries)).log[index]? =
      (entries.reverse.find? fun e => e.index = index).or s.log[index]? := by
  induction entries generalizing s with
  | nil => rfl
  | cons e rest ih =>
    rw [appendEntriesOps, List.map_cons, run_cons, ← appendEntriesOps, ih, log_insertEntry, List.reverse_cons,
      List.find?_append, Option.or_assoc]
    congr 1
    by_cases he : e.index = index <;> simp [he]

theorem log_call (s : RaftStorage) (c : StorageCall) (index : ℕ) :
    (s.call c).log[index]? = c.entryAt index s.log[index]? := by
  cases c with
  | saveHardState hs => rfl
  | appendEntries entries => exact s.log_run_appendEntriesOps entries index
  | truncateFrom start =>
    show (s.run ((s.doomed start).map .removeEntry)).log[index]? = if max start 1 ≤ index then none else _
    rw [log_run_remove]
    have hdoomed : index ∈ s.doomed start ↔ s.log[index]?.isSome ∧ max start 1 ≤ index := by
      unfold doomed
      rw [List.mem_filter, Std.ExtTreeMap.mem_keys, Std.ExtTreeMap.mem_iff_isSome_getElem?, decide_eq_true_eq]
    by_cases hindex : max start 1 ≤ index
    · rw [if_pos hindex]
      cases hentry : s.log[index]? with
      | none => exact ite_self none
      | some e => exact if_pos (hdoomed.mpr ⟨by rw [hentry]; rfl, hindex⟩)
    · rw [if_neg hindex, if_neg fun hmem => hindex (hdoomed.mp hmem).2]

theorem loadHardState_call (s : RaftStorage) (c : StorageCall) :
    (s.call c).loadHardState = c.hardState s.loadHardState := by
  cases c with
  | saveHardState hs => rfl
  | appendEntries entries =>
    show (s.run (appendEntriesOps entries)).hardState.getD _ = _
    rw [hardState_run_log _ s (by simp [appendEntriesOps])]
    rfl
  | truncateFrom start =>
    show (s.run (s.truncateFromOps start)).hardState.getD _ = _
    rw [hardState_run_log _ s (by simp [truncateFromOps])]
    rfl

end RaftStorage

/-- After any calls the tree holds a map with what the calls say. -/
theorem represents_calls {t : RaftTree} {s : RaftStorage} (h : Represents t s) {calls : List StorageCall}
    (hcalls : ∀ c ∈ calls, c.Fits) :
    ∃ s', Represents (calls.foldl RaftTree.call t) s' ∧
      (∀ index, s'.log[index]? = calls.foldl (StorageCall.entryAt index) s.log[index]?) ∧
      s'.loadHardState = calls.foldl StorageCall.hardState s.loadHardState := by
  induction calls generalizing t s with
  | nil => exact ⟨s, h, fun _ => rfl, rfl⟩
  | cons c rest ih =>
    obtain ⟨s', hs', hlog, hhard⟩ := ih (h.call (hcalls c List.mem_cons_self))
      fun c hc => hcalls c (List.mem_cons_of_mem _ hc)
    refine ⟨s', hs', fun index => ?_, ?_⟩
    · rw [hlog, s.log_call]
      rfl
    · rw [hhard, s.loadHardState_call]
      rfl

/-- **Raft storage refines a log.** After any calls on a new tree, `load_log` gives, in the order of their
indices, the last entry of each index that was not truncated since, and `load_hard_state` what was saved
last. The keys of the log are in the order of the indices, and none is that of the hard state. -/
theorem storage_refines_log (calls : List StorageCall) (hcalls : ∀ c ∈ calls, c.Fits) :
    (∃ entries, RaftTree.loadLog (calls.foldl RaftTree.call ∅) = .ok entries ∧
      entries.Pairwise (fun a b => a.index < b.index) ∧
      ∀ e, e ∈ entries ↔ StorageCall.lastEntry calls e.index = some e) ∧
    RaftTree.loadHardState (calls.foldl RaftTree.call ∅) = .ok (StorageCall.lastHardState calls) ∧
    (∀ m n, FitsU64 m → FitsU64 n → m < n → compare (logKey m) (logKey n) = .lt) ∧
    ∀ index, logKey index ≠ hardStateKey := by
  obtain ⟨s, hs, hlog, hhard⟩ := represents_calls .fresh hcalls
  refine ⟨⟨s.loadLog, hs.loadLog_eq, s.loadLog_sorted, fun e => ?_⟩, ?_, fun m n hm hn hlt => ?_,
    logKey_ne_hardStateKey⟩
  · rw [RaftStorage.mem_loadLog, hlog]
    exact Iff.of_eq (congrArg (fun entry => calls.foldl (StorageCall.entryAt e.index) entry = some e)
      Std.ExtTreeMap.getElem?_empty)
  · rw [hs.loadHardState_eq, hhard]
    rfl
  · rw [compare_logKey hm hn]
    exact Nat.compare_eq_lt.mpr hlt

/-- Entry 10 is truncated and appended again. -/
def sampleCalls : List StorageCall :=
  [.saveHardState ⟨5, some 2⟩, .appendEntries [⟨1, 9, [7]⟩, ⟨1, 10, [8]⟩], .truncateFrom 10,
    .appendEntries [⟨5, 10, [9]⟩]]

theorem storage_refines_log_sample :
    RaftTree.loadHardState (sampleCalls.foldl RaftTree.call ∅) = .ok ⟨5, some 2⟩ ∧
      ∃ entries, RaftTree.loadLog (sampleCalls.foldl RaftTree.call ∅) = .ok entries ∧
        entries.Pairwise (fun a b => a.index < b.index) ∧
        ⟨1, 9, [7]⟩ ∈ entries ∧ ⟨5, 10, [9]⟩ ∈ entries ∧ ⟨1, 10, [8]⟩ ∉ entries := by
  have hfits : ∀ c ∈ sampleCalls, c.Fits := by
    have hentry : ∀ e ∈ [(⟨1, 9, [7]⟩ : LogEntry), ⟨1, 10, [8]⟩, ⟨5, 10, [9]⟩], e.Fits := by
      intro e he
      fin_cases he <;> exact ⟨by decide, by decide⟩
    intro c hc
    fin_cases hc
    · exact ⟨by decide, fun id hid => by cases hid; decide⟩
    · exact fun e he => hentry e (List.mem_append_left [_] he)
    · show FitsU64 10
      decide
    · exact fun e he => hentry e (List.mem_append_right [_, _] he)
  obtain ⟨⟨entries, hload, hsorted, hmem⟩, hhard, -, -⟩ := storage_refines_log sampleCalls hfits
  refine ⟨hhard, entries, hload, hsorted, (hmem _).mpr (by decide), (hmem _).mpr (by decide), fun h => ?_⟩
  exact absurd ((hmem _).mp h) (by decide)

end MyK8s.Raft
