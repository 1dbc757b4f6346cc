import Mathlib

/-!
# The replicated log

`src/raft/log.rs`: a vector of entries addressed from 1. Entry `p` lives at position `p - 1` of
the vector, and index 0 is the empty log, whose term is 0 for every node.

`Term` and `LogIndex` are natural numbers. A build that traps on `u64` overflow stops the node's
task there, which in the cluster model is a crash; no statement below depends on a bound.
-/

namespace MyK8s.Raft

abbrev NodeId := ℕ

/-- A command is an opaque byte string. -/
abbrev Command := List UInt8

structure LogEntry where
  term : ℕ
  index : ℕ
  command : Command
  deriving DecidableEq, Repr

structure RaftLog where
  entries : List LogEntry
  deriving DecidableEq, Repr

namespace RaftLog

/-- The empty log of `RaftLog::new`. -/
def new : RaftLog := ⟨[]⟩

def fromEntries (entries : List LogEntry) : RaftLog := ⟨entries⟩

def lastIndex (l : RaftLog) : ℕ := l.entries.length

def lastTerm (l : RaftLog) : ℕ := (l.entries.getLast?.map LogEntry.term).getD 0

def termAt (l : RaftLog) (index : ℕ) : Option ℕ :=
  if index = 0 then some 0 else (l.entries[index - 1]?).map LogEntry.term

def get (l : RaftLog) (index : ℕ) : Option LogEntry :=
  if index = 0 then none else l.entries[index - 1]?

def entriesFrom (l : RaftLog) (start : ℕ) : List LogEntry :=
  if start = 0 ∨ start > l.lastIndex then [] else l.entries.drop (start - 1)

/-- `append` returns the log and the index of the new entry. -/
def append (l : RaftLog) (term : ℕ) (command : Command) : RaftLog × ℕ :=
  (⟨l.entries ++ [⟨term, l.lastIndex + 1, command⟩]⟩, l.lastIndex + 1)

def truncateFrom (l : RaftLog) (start : ℕ) : RaftLog :=
  if start = 0 then ⟨[]⟩ else ⟨l.entries.take (start - 1)⟩

def appendEntries (l : RaftLog) (es : List LogEntry) : RaftLog := ⟨l.entries ++ es⟩

@[ext] theorem ext {l l' : RaftLog} (h : l.entries = l'.entries) : l = l' := by
  cases l; cases l'; simpa using h

@[simp] theorem entries_new : new.entries = [] := rfl
@[simp] theorem entries_fromEntries (es : List LogEntry) : (fromEntries es).entries = es := rfl
@[simp] theorem fromEntries_entries (l : RaftLog) : fromEntries l.entries = l := rfl
@[simp] theorem termAt_zero (l : RaftLog) : l.termAt 0 = some 0 := rfl
@[simp] theorem get_zero (l : RaftLog) : l.get 0 = none := rfl

@[simp] theorem termAt_succ (l : RaftLog) (i : ℕ) :
    l.termAt (i + 1) = (l.entries[i]?).map LogEntry.term := by
  simp [termAt]

@[simp] theorem get_succ (l : RaftLog) (i : ℕ) : l.get (i + 1) = l.entries[i]? := by
  simp [get]

@[simp] theorem entries_appendEntries (l : RaftLog) (es : List LogEntry) :
    (l.appendEntries es).entries = l.entries ++ es := rfl

@[simp] theorem entries_truncateFrom_succ (l : RaftLog) (i : ℕ) :
    (l.truncateFrom (i + 1)).entries = l.entries.take i := by
  simp [truncateFrom]

theorem entriesFrom_succ (l : RaftLog) (i : ℕ) : l.entriesFrom (i + 1) = l.entries.drop i := by
  unfold entriesFrom lastIndex
  by_cases h : i + 1 > l.entries.length
  · rw [if_pos (Or.inr h), List.drop_eq_nil_of_le (by omega)]
  · have h' : ¬(i + 1 = 0 ∨ i + 1 > l.entries.length) := by omega
    rw [if_neg h', Nat.add_sub_cancel]

theorem get_append_last (l : RaftLog) (t : ℕ) (c : Command) :
    (l.append t c).1.get (l.append t c).2 = some ⟨t, l.lastIndex + 1, c⟩ := by
  simp [append, lastIndex, get]

/-- An index whose term is on record lies inside the log. -/
theorem le_lastIndex_of_termAt {l : RaftLog} {i : ℕ} {t : ℕ}
    (h : l.termAt i = some t) : i ≤ l.lastIndex := by
  cases i with
  | zero => exact Nat.zero_le _
  | succ i =>
    rw [termAt_succ, Option.map_eq_some_iff] at h
    obtain ⟨e, he, _⟩ := h
    exact (List.getElem?_eq_some_iff.mp he).1

end RaftLog

/-- Entry `p` of the list carries index `p`, counted from 1: what the positional addressing of
`RaftLog` and the keys of the disk log both rely on. -/
def Coherent (es : List LogEntry) : Prop :=
  ∀ k e, es[k]? = some e → e.index = k + 1

/-- A list of entries that continues a log of `start` entries. -/
def ContiguousFrom (start : ℕ) (es : List LogEntry) : Prop :=
  ∀ k e, es[k]? = some e → e.index = start + k + 1

theorem contiguousFrom_zero {es : List LogEntry} : ContiguousFrom 0 es ↔ Coherent es := by
  unfold ContiguousFrom Coherent
  simp only [Nat.zero_add]

theorem contiguousFrom_iff_get {start : ℕ} {es : List LogEntry} :
    ContiguousFrom start es ↔ ∀ k : Fin es.length, es[k].index = start + k + 1 := by
  constructor
  · intro h k
    exact h k _ (List.getElem?_eq_getElem k.isLt)
  · intro h k e hk
    obtain ⟨hlt, rfl⟩ := List.getElem?_eq_some_iff.mp hk
    exact h ⟨k, hlt⟩

instance (start : ℕ) (es : List LogEntry) : Decidable (ContiguousFrom start es) :=
  decidable_of_iff _ contiguousFrom_iff_get.symm

instance (es : List LogEntry) : Decidable (Coherent es) :=
  decidable_of_iff _ contiguousFrom_zero

theorem contiguousFrom_cons {start : ℕ} {e : LogEntry} {es : List LogEntry} :
    ContiguousFrom start (e :: es) ↔ e.index = start + 1 ∧ ContiguousFrom (start + 1) es := by
  constructor
  · intro h
    refine ⟨h 0 e rfl, fun k x hx => ?_⟩
    have := h (k + 1) x (by simpa using hx)
    omega
  · rintro ⟨he, hes⟩ k x hx
    cases k with
    | zero => simp at hx; subst hx; omega
    | succ k =>
      have := hes k x (by simpa using hx)
      omega

theorem ContiguousFrom.drop {start : ℕ} {es : List LogEntry} (h : ContiguousFrom start es)
    (j : ℕ) : ContiguousFrom (start + j) (es.drop j) := by
  intro k e hk
  rw [List.getElem?_drop] at hk
  have := h (j + k) e hk
  omega

theorem Coherent.anti {es fs : List LogEntry} (h : Coherent fs) (hp : es <+: fs) :
    Coherent es := by
  intro k e hk
  obtain ⟨t, rfl⟩ := hp
  exact h k e (by rw [List.getElem?_append_left (List.getElem?_eq_some_iff.mp hk).1]; exact hk)

theorem Coherent.take {es : List LogEntry} (h : Coherent es) (n : ℕ) : Coherent (es.take n) :=
  h.anti (List.take_prefix n es)

/-- A coherent log followed by entries that continue it is coherent. -/
theorem coherent_append {es fs : List LogEntry} :
    Coherent (es ++ fs) ↔ Coherent es ∧ ContiguousFrom es.length fs := by
  constructor
  · intro h
    refine ⟨h.anti (List.prefix_append es fs), fun k e hk => ?_⟩
    have := h (es.length + k) e (by rw [List.getElem?_append_right (by omega)]; simpa using hk)
    omega
  · rintro ⟨h1, h2⟩ k e hk
    rcases Nat.lt_or_ge k es.length with hlt | hge
    · exact h1 k e (by rwa [List.getElem?_append_left hlt] at hk)
    · rw [List.getElem?_append_right hge] at hk
      have := h2 _ e hk
      omega

/-! ## Membership in a coherent log, by index -/

theorem Coherent.sorted {es : List LogEntry} (h : Coherent es) :
    es.Pairwise (fun a b => a.index < b.index) := by
  rw [List.pairwise_iff_getElem]
  intro i j hi hj hij
  have h1 := h i _ (List.getElem?_eq_getElem hi)
  have h2 := h j _ (List.getElem?_eq_getElem hj)
  omega

theorem Coherent.mem_iff {es : List LogEntry} (h : Coherent es) {e : LogEntry} :
    e ∈ es ↔ 0 < e.index ∧ es[e.index - 1]? = some e := by
  constructor
  · intro hm
    obtain ⟨k, hk⟩ := List.mem_iff_getElem?.mp hm
    have hi := h k e hk
    exact ⟨by omega, by rw [hi, Nat.add_sub_cancel, hk]⟩
  · rintro ⟨_, hk⟩
    exact List.mem_of_getElem? hk

theorem Coherent.mem_take_iff {es : List LogEntry} (h : Coherent es) {e : LogEntry} {n : ℕ} :
    e ∈ es.take n ↔ e ∈ es ∧ e.index ≤ n := by
  rw [(h.take n).mem_iff, h.mem_iff, List.getElem?_take]
  by_cases hn : e.index ≤ n
  · by_cases h0 : 0 < e.index
    · rw [if_pos (by omega)]
      simp [hn]
    · simp [h0]
  · by_cases h0 : 0 < e.index
    · rw [if_neg (by omega)]
      simp [hn]
    · simp [h0]

theorem Coherent.mem_drop_iff {es : List LogEntry} (h : Coherent es) {e : LogEntry} {n : ℕ} :
    e ∈ es.drop n ↔ e ∈ es ∧ n < e.index := by
  constructor
  · intro hm
    obtain ⟨k, hk⟩ := List.mem_iff_getElem?.mp hm
    rw [List.getElem?_drop] at hk
    have hi := h _ e hk
    exact ⟨List.mem_of_getElem? hk, by omega⟩
  · rintro ⟨hm, hlt⟩
    obtain ⟨_, hk⟩ := h.mem_iff.mp hm
    refine List.mem_of_getElem? (i := e.index - 1 - n) ?_
    rwa [List.getElem?_drop, show n + (e.index - 1 - n) = e.index - 1 by omega]

/-- The indices of a coherent log are 1, 2, 3 and so on. -/
theorem Coherent.map_index {es : List LogEntry} (h : Coherent es) :
    es.map LogEntry.index = List.range' 1 es.length := by
  refine List.ext_getElem (by simp) fun i h₁ h₂ => ?_
  have hlt : i < es.length := by simpa using h₁
  rw [List.getElem_map, List.getElem_range', h i _ (List.getElem?_eq_getElem hlt)]
  omega

end MyK8s.Raft
