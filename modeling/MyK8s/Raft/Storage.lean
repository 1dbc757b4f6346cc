import MyK8s.Raft.Log

/-!
# The durable state of a Raft node

`src/raft/storage.rs`: the hard state and the log, in one sled tree. Every log entry is stored
under a key made from its own index, zero-padded so that byte order is index order; the model
keeps the entries in a map ordered by index, with the hard state beside it under a key of its own.

A call on the storage is the list of single tree writes it issues (`TreeOp`), and then a flush.
The flush makes them durable; a crash before it leaves some first part of the list.
-/

namespace MyK8s.Raft

structure HardState where
  currentTerm : ℕ
  votedFor : Option NodeId
  deriving DecidableEq, Repr

/-- `HardState::default`. -/
def HardState.default : HardState := ⟨0, none⟩

/-- The `raft` tree of a node. Entries are only ever inserted under their own index. -/
structure RaftStorage where
  hardState : Option HardState
  log : Std.ExtTreeMap ℕ LogEntry
  keyed : ∀ (k : ℕ) (e : LogEntry), log[k]? = some e → e.index = k

/-- A single insert or remove on the tree. -/
inductive TreeOp
  | insertHardState (hs : HardState)
  | insertEntry (e : LogEntry)
  | removeEntry (index : ℕ)
  deriving DecidableEq, Repr

namespace RaftStorage

/-- The empty tree of a node that has never run. -/
def fresh : RaftStorage := ⟨none, ∅, fun k e h => by simp at h⟩

def runOp (s : RaftStorage) : TreeOp → RaftStorage
  | .insertHardState hs => { s with hardState := some hs }
  | .insertEntry e =>
    { s with
      log := s.log.insert e.index e
      keyed := fun k x h => by
        rw [Std.ExtTreeMap.getElem?_insert] at h
        split at h
        · rename_i hk
          cases h
          exact Std.LawfulEqCmp.eq_of_compare hk
        · exact s.keyed k x h }
  | .removeEntry index =>
    { s with
      log := s.log.erase index
      keyed := fun k x h => by
        rw [Std.ExtTreeMap.getElem?_erase] at h
        split at h
        · cases h
        · exact s.keyed k x h }

def run (s : RaftStorage) (ops : List TreeOp) : RaftStorage := ops.foldl runOp s

def loadHardState (s : RaftStorage) : HardState := s.hardState.getD HardState.default

/-- `load_log`: the values in key order. -/
def loadLog (s : RaftStorage) : List LogEntry := s.log.toList.map Prod.snd

/-- The keys `truncate_from` collects, in key order, before it removes any of them. -/
def doomed (s : RaftStorage) (start : ℕ) : List ℕ :=
  s.log.keys.filter (fun k => max start 1 ≤ k)

def saveHardStateOps (hs : HardState) : List TreeOp := [.insertHardState hs]

def appendEntriesOps (entries : List LogEntry) : List TreeOp := entries.map .insertEntry

def truncateFromOps (s : RaftStorage) (start : ℕ) : List TreeOp :=
  (s.doomed start).map .removeEntry

def saveHardState (s : RaftStorage) (hs : HardState) : RaftStorage := s.run (saveHardStateOps hs)

def appendEntries (s : RaftStorage) (entries : List LogEntry) : RaftStorage :=
  s.run (appendEntriesOps entries)

def truncateFrom (s : RaftStorage) (start : ℕ) : RaftStorage :=
  s.run (s.truncateFromOps start)

/-! ## Single writes -/

@[simp] theorem run_nil (s : RaftStorage) : s.run [] = s := rfl

@[simp] theorem run_cons (s : RaftStorage) (op : TreeOp) (ops : List TreeOp) :
    s.run (op :: ops) = (s.runOp op).run ops := rfl

theorem log_insertEntry (s : RaftStorage) (e : LogEntry) (k : ℕ) :
    (s.runOp (.insertEntry e)).log[k]? = if e.index = k then some e else s.log[k]? := by
  show (s.log.insert e.index e)[k]? = _
  rw [Std.ExtTreeMap.getElem?_insert]
  simp only [Std.LawfulEqCmp.compare_eq_iff_eq]

theorem log_removeEntry (s : RaftStorage) (i k : ℕ) :
    (s.runOp (.removeEntry i)).log[k]? = if i = k then none else s.log[k]? := by
  show (s.log.erase i)[k]? = _
  rw [Std.ExtTreeMap.getElem?_erase]
  simp only [Std.LawfulEqCmp.compare_eq_iff_eq]

/-- Writes to the log leave the hard state alone. -/
theorem hardState_run_log (ops : List TreeOp) :
    ∀ s : RaftStorage, (∀ hs, .insertHardState hs ∉ ops) → (s.run ops).hardState = s.hardState := by
  induction ops with
  | nil => intro s _; rfl
  | cons op ops ih =>
    intro s h
    rw [run_cons, ih _ fun hs hm => h hs (List.mem_cons_of_mem _ hm)]
    cases op with
    | insertHardState hs => exact absurd List.mem_cons_self (h hs)
    | insertEntry e => rfl
    | removeEntry i => rfl

theorem log_run_remove (ks : List ℕ) :
    ∀ (s : RaftStorage) (k : ℕ),
      (s.run (ks.map .removeEntry)).log[k]? = if k ∈ ks then none else s.log[k]? := by
  induction ks with
  | nil => intro s k; simp
  | cons i ks ih =>
    intro s k
    rw [List.map_cons, run_cons, ih, log_removeEntry]
    by_cases hk : k ∈ ks
    · simp [hk]
    · by_cases hi : i = k
      · simp [hi]
      · simp [hk, hi, Ne.symm hi]

/-- Entries inserted at increasing indices are all there, and nothing else has changed. -/
theorem log_run_insert (es : List LogEntry) :
    ∀ (s : RaftStorage) (start : ℕ), ContiguousFrom start es → ∀ k : ℕ,
      (s.run (appendEntriesOps es)).log[k]? =
        if start < k ∧ k ≤ start + es.length then es[k - start - 1]? else s.log[k]? := by
  induction es with
  | nil =>
    intro s start _ k
    rw [if_neg (by simp only [List.length_nil]; omega)]
    rfl
  | cons e es ih =>
    intro s start hc k
    obtain ⟨he, hes⟩ := contiguousFrom_cons.mp hc
    rw [appendEntriesOps, List.map_cons, run_cons, ← appendEntriesOps, ih _ _ hes k,
      log_insertEntry, List.length_cons]
    by_cases hk : start + 1 < k ∧ k ≤ start + 1 + es.length
    · obtain ⟨m, rfl⟩ : ∃ m, k = start + 1 + m + 1 := ⟨k - start - 2, by omega⟩
      rw [if_pos hk, if_pos (by omega), show start + 1 + m + 1 - (start + 1) - 1 = m by omega,
        show start + 1 + m + 1 - start - 1 = m + 1 by omega, List.getElem?_cons_succ]
    · rw [if_neg hk]
      by_cases hk' : k = start + 1
      · subst hk'
        rw [if_pos he, if_pos (by omega), show start + 1 - start - 1 = 0 by omega]
        rfl
      · rw [if_neg (by omega), if_neg (by omega)]

/-! ## Reading the log back -/

theorem loadLog_sorted (s : RaftStorage) :
    s.loadLog.Pairwise (fun a b => a.index < b.index) := by
  unfold loadLog
  rw [List.pairwise_map]
  refine Std.ExtTreeMap.ordered_keys_toList.imp_of_mem ?_
  rintro ⟨k, e⟩ ⟨k', e'⟩ hm hm' hlt
  rw [Std.ExtTreeMap.mem_toList_iff_getElem?_eq_some] at hm hm'
  show e.index < e'.index
  rw [s.keyed k e hm, s.keyed k' e' hm']
  exact Nat.compare_eq_lt.mp hlt

theorem mem_loadLog {s : RaftStorage} {e : LogEntry} : e ∈ s.loadLog ↔ s.log[e.index]? = some e := by
  unfold loadLog
  rw [List.mem_map]
  constructor
  · rintro ⟨⟨k, x⟩, hm, rfl⟩
    rw [Std.ExtTreeMap.mem_toList_iff_getElem?_eq_some] at hm
    rw [s.keyed k x hm]
    exact hm
  · intro h
    exact ⟨(e.index, e), Std.ExtTreeMap.mem_toList_iff_getElem?_eq_some.mpr h, rfl⟩

/-- The log read back is the one list with increasing indices that has just the stored entries. -/
theorem loadLog_eq {s : RaftStorage} {es : List LogEntry}
    (hs : es.Pairwise (fun a b => a.index < b.index))
    (hm : ∀ e, s.log[e.index]? = some e ↔ e ∈ es) : s.loadLog = es := by
  have : Std.Irrefl (fun a b : LogEntry => a.index < b.index) := ⟨fun a => Nat.lt_irrefl _⟩
  have : Std.Asymm (fun a b : LogEntry => a.index < b.index) := ⟨fun a b => Nat.lt_asymm⟩
  exact (loadLog_sorted s).eq_of_mem_iff hs fun e => mem_loadLog.trans (hm e)

/-! ## Logs with contiguous indices -/

/-- A stored log with contiguous indices, read by key. -/
theorem log_of_loadLog {s : RaftStorage} {es : List LogEntry} (hs : s.loadLog = es)
    (hc : Coherent es) (k : ℕ) : s.log[k]? = if 0 < k then es[k - 1]? else none := by
  have hiff : ∀ e, s.log[k]? = some e ↔ 0 < k ∧ es[k - 1]? = some e := by
    intro e
    constructor
    · intro h
      obtain rfl := s.keyed k e h
      rwa [← mem_loadLog, hs, hc.mem_iff] at h
    · rintro ⟨hpos, h⟩
      have hi := hc _ e h
      have hk : e.index = k := by omega
      rw [← hk, ← mem_loadLog, hs]
      exact List.mem_of_getElem? h
  ext e
  rw [hiff]
  split
  · rename_i hpos
    simp [hpos]
  · rename_i hpos
    simp [hpos]

/-- Appending entries that continue the stored log, up to any point between two inserts. -/
theorem loadLog_append {s : RaftStorage} {old es : List LogEntry} (hs : s.loadLog = old)
    (hc : Coherent old) (hes : ContiguousFrom old.length es) :
    (s.run (appendEntriesOps es)).loadLog = old ++ es := by
  have hall : Coherent (old ++ es) := coherent_append.mpr ⟨hc, hes⟩
  refine loadLog_eq (hall.sorted) fun e => ?_
  rw [log_run_insert es s _ hes, log_of_loadLog hs hc, hall.mem_iff]
  by_cases hpos : 0 < e.index
  · rcases Nat.lt_or_ge old.length e.index with hlt | hge
    · rw [List.getElem?_append_right (by omega)]
      by_cases hle : e.index ≤ old.length + es.length
      · rw [if_pos ⟨hlt, hle⟩, show e.index - 1 - old.length = e.index - old.length - 1 by omega]
        simp [hpos]
      · rw [if_neg (by omega), if_pos hpos, List.getElem?_eq_none (by omega),
          List.getElem?_eq_none (by omega)]
        simp
    · rw [if_neg (by omega), if_pos hpos, List.getElem?_append_left (by omega)]
      simp [hpos]
  · rw [if_neg (by omega), if_neg hpos]
    simp [hpos]

theorem mem_doomed {s : RaftStorage} {es : List LogEntry} (hs : s.loadLog = es) (hc : Coherent es)
    {start k : ℕ} : k ∈ s.doomed start ↔ max start 1 ≤ k ∧ k ≤ es.length := by
  unfold doomed
  rw [List.mem_filter, Std.ExtTreeMap.mem_keys, Std.ExtTreeMap.mem_iff_isSome_getElem?,
    log_of_loadLog hs hc]
  by_cases hk : 0 < k
  · rw [if_pos hk, isSome_getElem?, decide_eq_true_eq]
    omega
  · rw [if_neg hk]
    simp
    omega

/-- The keys to remove, in the order of their removal: ascending. -/
theorem doomed_eq {s : RaftStorage} {es : List LogEntry} (hs : s.loadLog = es) (hc : Coherent es)
    (start : ℕ) :
    s.doomed start = List.range' (max start 1) (es.length + 1 - max start 1) := by
  have : Std.Irrefl (fun a b : ℕ => a < b) := ⟨Nat.lt_irrefl⟩
  have : Std.Asymm (fun a b : ℕ => a < b) := ⟨fun a b => Nat.lt_asymm⟩
  have h1 : (s.doomed start).Pairwise (fun a b => a < b) :=
    (Std.ExtTreeMap.ordered_keys.imp fun h => Nat.compare_eq_lt.mp h).filter _
  have h2 : (List.range' (max start 1) (es.length + 1 - max start 1)).Pairwise
      (fun a b => a < b) := List.pairwise_lt_range'
  refine h1.eq_of_mem_iff h2 fun k => ?_
  rw [mem_doomed hs hc, List.mem_range'_1]
  omega

/-- A truncation cut short after `j` removals leaves what stood before the first of them and what
stood after the last. -/
theorem loadLog_truncate {s : RaftStorage} {es : List LogEntry} (hs : s.loadLog = es)
    (hc : Coherent es) (start j : ℕ) :
    (s.run ((s.truncateFromOps start).take j)).loadLog =
      es.take (max start 1 - 1) ++ es.drop (max start 1 - 1 + j) := by
  have hsub : (es.take (max start 1 - 1) ++ es.drop (max start 1 - 1 + j)).Sublist es := by
    have h := (List.Sublist.refl (es.take (max start 1 - 1))).append
      (List.drop_sublist j (es.drop (max start 1 - 1)))
    rwa [List.drop_drop, List.take_append_drop] at h
  have hmem : ∀ k, k ∈ (s.doomed start).take j ↔
      (max start 1 ≤ k ∧ k ≤ es.length) ∧ k < max start 1 + j := by
    intro k
    rw [doomed_eq hs hc]
    rcases Nat.le_total (es.length + 1 - max start 1) j with hle | hge
    · rw [List.take_range'_of_length_le hle, List.mem_range'_1]
      omega
    · rw [List.take_range'_of_length_ge hge, List.mem_range'_1]
      omega
  refine loadLog_eq (hc.sorted.sublist hsub) fun e => ?_
  rw [truncateFromOps, ← List.map_take, log_run_remove, List.mem_append, hc.mem_take_iff,
    hc.mem_drop_iff]
  by_cases hin : e ∈ es
  · -- an entry of the log goes just when its key is among the first `j`
    have hstored : s.log[e.index]? = some e := by rwa [← mem_loadLog, hs]
    have hle : e.index ≤ es.length := by
      obtain ⟨h0, hk⟩ := hc.mem_iff.mp hin
      have := (List.getElem?_eq_some_iff.mp hk).1
      omega
    by_cases hk : e.index ∈ (s.doomed start).take j
    · have := (hmem _).mp hk
      rw [if_pos hk]
      simp only [reduceCtorEq, hin, true_and, false_iff]
      omega
    · rw [if_neg hk, hstored]
      rw [hmem] at hk
      simp only [hin, true_and, true_iff]
      omega
  · have hstored : s.log[e.index]? ≠ some e := by rwa [ne_eq, ← mem_loadLog, hs]
    split
    · simp [hin]
    · simp [hin, hstored]

/-! ## Crashes inside a call -/

/-- A call that writes to the stored log. -/
inductive LogCall
  | appendEntries (entries : List LogEntry)
  | truncateFrom (start : ℕ)

/-- The single writes a call issues on the tree `s`. -/
def LogCall.ops (s : RaftStorage) : LogCall → List TreeOp
  | .appendEntries entries => appendEntriesOps entries
  | .truncateFrom start => s.truncateFromOps start

/-- The tree after a call that ran to its end. -/
def complete (s : RaftStorage) (call : LogCall) : RaftStorage := s.run (call.ops s)

/-- The tree that comes back after a crash when the first `j` writes of the call had taken. -/
def crash (s : RaftStorage) (call : LogCall) (j : ℕ) : RaftStorage := s.run ((call.ops s).take j)

/-- Recovery after the crash finds a log whose positions are its indices, and one that the node
had before the call or would have had after it, up to a shorter end. -/
def CrashConsistent (s : RaftStorage) (call : LogCall) (j : ℕ) : Prop :=
  Coherent (s.crash call j).loadLog ∧
    ((s.crash call j).loadLog <+: s.loadLog ∨
      (s.crash call j).loadLog <+: (s.complete call).loadLog)

theorem appendEntries_crashConsistent {s : RaftStorage} {es : List LogEntry}
    (hc : Coherent s.loadLog) (hes : ContiguousFrom s.loadLog.length es) (j : ℕ) :
    s.CrashConsistent (.appendEntries es) j := by
  have htake : ContiguousFrom s.loadLog.length (es.take j) := by
    intro k e hk
    rw [List.getElem?_take] at hk
    split at hk
    · exact hes k e hk
    · cases hk
  have hcut : (s.crash (.appendEntries es) j).loadLog = s.loadLog ++ es.take j := by
    rw [← loadLog_append rfl hc htake, appendEntriesOps, List.map_take]
    rfl
  have hfull : (s.complete (.appendEntries es)).loadLog = s.loadLog ++ es :=
    loadLog_append rfl hc hes
  unfold CrashConsistent
  rw [hcut, hfull]
  exact ⟨coherent_append.mpr ⟨hc, htake⟩,
    Or.inr ((List.prefix_append_right_inj _).mpr (List.take_prefix _ _))⟩

/-- The removals run upwards, so one that is not the last leaves a hole under the entries above. -/
theorem truncateFrom_crashConsistent_iff {s : RaftStorage} (hc : Coherent s.loadLog)
    (start j : ℕ) :
    s.CrashConsistent (.truncateFrom start) j ↔
      j = 0 ∨ s.loadLog.length < max start 1 + j := by
  have hcut : (s.crash (.truncateFrom start) j).loadLog =
      s.loadLog.take (max start 1 - 1) ++ s.loadLog.drop (max start 1 - 1 + j) :=
    loadLog_truncate rfl hc start j
  have hpos : 0 < max start 1 := by omega
  unfold CrashConsistent
  rw [hcut]
  constructor
  · rintro ⟨hcoh, _⟩
    by_contra hn
    obtain ⟨hj, hlen⟩ := not_or.mp hn
    -- the entry now at position `max start 1` carries an index that is `j` higher
    obtain ⟨e, he⟩ : ∃ e, s.loadLog[max start 1 - 1 + j]? = some e :=
      ⟨_, List.getElem?_eq_getElem (by omega)⟩
    have hold := hc _ e he
    have hnew := hcoh (max start 1 - 1) e (by
      rw [List.getElem?_append_right (by rw [List.length_take]; omega), List.length_take,
        List.getElem?_drop, ← he]
      congr 1
      omega)
    omega
  · rintro (rfl | hlen)
    · rw [Nat.add_zero, List.take_append_drop]
      exact ⟨hc, Or.inl List.prefix_rfl⟩
    · rw [List.drop_eq_nil_of_le (by omega), List.append_nil]
      exact ⟨hc.take _, Or.inl (List.take_prefix _ _)⟩

/-- **Crash consistency of the stored log.** A crash inside a call leaves a recoverable log unless
it falls between two removals of a truncation. -/
theorem crashConsistent_iff (s : RaftStorage) (call : LogCall) (j : ℕ)
    (hc : Coherent s.loadLog)
    (hcall : ∀ es, call = .appendEntries es → ContiguousFrom s.loadLog.length es) :
    s.CrashConsistent call j ↔
      ∀ start, call = .truncateFrom start → j = 0 ∨ s.loadLog.length < max start 1 + j := by
  cases call with
  | appendEntries es =>
    exact iff_of_true (appendEntries_crashConsistent hc (hcall es rfl) j) fun _ h => by cases h
  | truncateFrom start =>
    rw [truncateFrom_crashConsistent_iff hc]
    exact ⟨fun h _ he => by cases he; exact h, fun h => h start rfl⟩

/-- A stored log of three entries. -/
def threeEntries : RaftStorage := fresh.appendEntries [⟨1, 1, [7]⟩, ⟨1, 2, [8]⟩, ⟨1, 3, [9]⟩]

theorem loadLog_threeEntries :
    threeEntries.loadLog = [⟨1, 1, [7]⟩, ⟨1, 2, [8]⟩, ⟨1, 3, [9]⟩] := by
  decide +kernel

theorem crashConsistent_iff_threeEntries :
    threeEntries.CrashConsistent (.truncateFrom 2) 2 := by
  refine (crashConsistent_iff threeEntries (.truncateFrom 2) 2 ?_ (fun _ h => by cases h)).mpr ?_
  · rw [loadLog_threeEntries]
    decide
  · rintro start ⟨⟩
    rw [loadLog_threeEntries]
    decide

/-- `truncate_from(2)` on three entries, cut after its first removal: entry 3 comes back at
position 2. -/
theorem truncateFrom_leaves_hole :
    Coherent threeEntries.loadLog ∧
      (threeEntries.crash (.truncateFrom 2) 1).loadLog = [⟨1, 1, [7]⟩, ⟨1, 3, [9]⟩] ∧
      ¬ threeEntries.CrashConsistent (.truncateFrom 2) 1 := by
  have hcut : (threeEntries.crash (.truncateFrom 2) 1).loadLog =
      [⟨1, 1, [7]⟩, ⟨1, 3, [9]⟩] := by
    decide +kernel
  refine ⟨by decide +kernel, hcut, fun h => absurd h.1 ?_⟩
  rw [hcut]
  decide

end RaftStorage

end MyK8s.Raft
