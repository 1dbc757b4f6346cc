import MyK8s.Lib.Runs

/-!
# The work queue

`src/controller/workqueue.rs`: keys that wait for a worker, without duplicates. A key that is added
while a worker has it is handed out once more when the worker is done.

`workQueue_law`: what is ready, what a worker can be handed, and that no add is lost.
-/

namespace MyK8s.Controller

/-- `Inner`: the keys that are ready, in order, those that need processing, and those that a worker
has. -/
structure WorkQueue where
  queue : List String
  dirty : Finset String
  processing : Finset String

namespace WorkQueue

def new : WorkQueue := ⟨[], ∅, ∅⟩

def add (q : WorkQueue) (key : String) : WorkQueue :=
  if key ∈ q.dirty then q
  else
    let q := { q with dirty := insert key q.dirty }
    if key ∈ q.processing then q else { q with queue := q.queue ++ [key] }

def tryGet (q : WorkQueue) : Option String × WorkQueue :=
  match q.queue with
  | [] => (none, q)
  | key :: queue =>
    (some key, { queue, dirty := q.dirty.erase key, processing := insert key q.processing })

def done (q : WorkQueue) (key : String) : WorkQueue :=
  let q := { q with processing := q.processing.erase key }
  if key ∈ q.dirty then { q with queue := q.queue ++ [key] } else q

end WorkQueue

/-! ## Histories -/

/-- A call on the queue. -/
inductive QueueAct
  | add (key : String)
  | tryGet
  | done (key : String)
  deriving DecidableEq

namespace WorkQueue

def step (q : WorkQueue) : QueueAct → WorkQueue
  | .add key => q.add key
  | .tryGet => q.tryGet.2
  | .done key => q.done key

/-- The queue after the calls. -/
def after (acts : List QueueAct) : WorkQueue := acts.foldl step new

/-- The next `try_get` hands out the key. -/
def Hands (past : List QueueAct) (key : String) : Prop := (after past).tryGet.1 = some key

instance (past : List QueueAct) (key : String) : Decidable (Hands past key) :=
  inferInstanceAs (Decidable (_ = _))

/-- A worker has been handed the key and is not done with it. -/
def Held (past : List QueueAct) (key : String) : Prop :=
  ∃ p mid, past = p ++ .tryGet :: mid ∧ Hands p key ∧ .done key ∉ mid

theorem after_concat (past : List QueueAct) (act : QueueAct) :
    after (past ++ [act]) = (after past).step act := List.foldl_concat ..

/-! ## What a call does -/

variable {q : WorkQueue} {key k : String} {past : List QueueAct}

theorem tryGet_eq_some : q.tryGet.1 = some key ↔ ∃ queue, q.queue = key :: queue := by
  unfold tryGet
  cases q.queue <;> simp

theorem mem_dirty_add : k ∈ (q.add key).dirty ↔ k = key ∨ k ∈ q.dirty := by
  unfold add
  split
  · rename_i h
    constructor
    · exact .inr
    · rintro (rfl | hk)
      · exact h
      · exact hk
  · dsimp only
    split <;> exact Finset.mem_insert

@[simp] theorem processing_add : (q.add key).processing = q.processing := by
  unfold add
  split
  · rfl
  · dsimp only
    split <;> rfl

@[simp] theorem dirty_done : (q.done key).dirty = q.dirty := by
  unfold done
  dsimp only
  split <;> rfl

@[simp] theorem processing_done : (q.done key).processing = q.processing.erase key := by
  unfold done
  dsimp only
  split <;> rfl

theorem mem_dirty_tryGet :
    k ∈ q.tryGet.2.dirty ↔ k ∈ q.dirty ∧ q.tryGet.1 ≠ some k := by
  unfold tryGet
  cases q.queue with
  | nil => simp
  | cons key queue =>
    simp only [Finset.mem_erase, ne_eq, Option.some.injEq]
    rw [eq_comm, and_comm]

theorem mem_processing_tryGet :
    k ∈ q.tryGet.2.processing ↔ k ∈ q.processing ∨ q.tryGet.1 = some k := by
  unfold tryGet
  cases q.queue with
  | nil => simp
  | cons key queue =>
    simp only [Finset.mem_insert, Option.some.injEq]
    rw [eq_comm, or_comm]

/-- A key becomes dirty by an add, and clean when it is handed out. -/
theorem mem_dirty_step {act : QueueAct} : k ∈ (q.step act).dirty ↔
    act = .add k ∨ k ∈ q.dirty ∧ ¬ (act = .tryGet ∧ q.tryGet.1 = some k) := by
  cases act with
  | add key =>
    simp only [step, mem_dirty_add, QueueAct.add.injEq, reduceCtorEq, false_and, not_false_eq_true,
      and_true]
    rw [eq_comm]
  | tryGet => simp [step, mem_dirty_tryGet]
  | done key => simp [step]

/-! ## The keys that are ready -/

/-- The ready queue holds the keys that are dirty and that no worker has, each once. -/
structure Ready (q : WorkQueue) : Prop where
  nodup : q.queue.Nodup
  mem_iff : ∀ k, k ∈ q.queue ↔ k ∈ q.dirty ∧ k ∉ q.processing

theorem ready_new : new.Ready := ⟨List.nodup_nil, fun k => by simp [new]⟩

theorem Ready.add (h : q.Ready) : (q.add key).Ready := by
  unfold WorkQueue.add
  by_cases hd : key ∈ q.dirty
  · rwa [if_pos hd]
  · rw [if_neg hd]
    dsimp only
    by_cases hp : key ∈ q.processing
    · -- it waits for the worker that has it
      rw [if_pos hp]
      refine ⟨h.nodup, fun k => ?_⟩
      rw [h.mem_iff k, Finset.mem_insert]
      constructor
      · exact fun hk => ⟨.inr hk.1, hk.2⟩
      · rintro ⟨rfl | hk, hnp⟩
        · exact absurd hp hnp
        · exact ⟨hk, hnp⟩
    · rw [if_neg hp]
      have hnew : key ∉ q.queue := fun hk => hd ((h.mem_iff key).mp hk).1
      refine ⟨?_, fun k => ?_⟩
      · rw [← List.concat_eq_append]
        exact h.nodup.concat hnew
      · rw [List.mem_append, List.mem_singleton, h.mem_iff k, Finset.mem_insert]
        constructor
        · rintro (⟨hk, hnp⟩ | rfl)
          · exact ⟨.inr hk, hnp⟩
          · exact ⟨.inl rfl, hp⟩
        · rintro ⟨rfl | hk, hnp⟩
          · exact .inr rfl
          · exact .inl ⟨hk, hnp⟩

theorem Ready.tryGet (h : q.Ready) : q.tryGet.2.Ready := by
  unfold WorkQueue.tryGet
  cases hq : q.queue with
  | nil => exact h
  | cons key queue =>
    have hnodup := h.nodup
    have hmem := h.mem_iff
    rw [hq] at hnodup hmem
    have hkey : key ∉ queue := (List.nodup_cons.mp hnodup).1
    refine ⟨(List.nodup_cons.mp hnodup).2, fun k => ?_⟩
    show k ∈ queue ↔ k ∈ q.dirty.erase key ∧ k ∉ insert key q.processing
    rw [Finset.mem_erase, Finset.mem_insert]
    constructor
    · intro hk
      have hne : k ≠ key := fun heq => hkey (heq ▸ hk)
      obtain ⟨hd, hp⟩ := (hmem k).mp (List.mem_cons_of_mem key hk)
      exact ⟨⟨hne, hd⟩, by simp [hne, hp]⟩
    · rintro ⟨⟨hne, hd⟩, hp⟩
      have hk := (hmem k).mpr ⟨hd, fun hin => hp (.inr hin)⟩
      exact (List.mem_cons.mp hk).resolve_left hne

theorem Ready.done (h : q.Ready) (hkey : key ∈ q.processing) : (q.done key).Ready := by
  have hnew : key ∉ q.queue := fun hk => ((h.mem_iff key).mp hk).2 hkey
  unfold WorkQueue.done
  dsimp only
  by_cases hd : key ∈ q.dirty
  · rw [if_pos hd]
    refine ⟨?_, fun k => ?_⟩
    · rw [← List.concat_eq_append]
      exact h.nodup.concat hnew
    · show k ∈ q.queue ++ [key] ↔ k ∈ q.dirty ∧ k ∉ q.processing.erase key
      rw [List.mem_append, List.mem_singleton, h.mem_iff k, Finset.mem_erase]
      by_cases hk : k = key
      · simp [hk, hd]
      · simp [hk]
  · rw [if_neg hd]
    refine ⟨h.nodup, fun k => ?_⟩
    show k ∈ q.queue ↔ k ∈ q.dirty ∧ k ∉ q.processing.erase key
    rw [h.mem_iff k, Finset.mem_erase]
    by_cases hk : k = key
    · simp [hk, hd]
    · simp [hk]

/-! ## The keys that workers have -/

theorem held_concat {act : QueueAct} : Held (past ++ [act]) k ↔
    act = .tryGet ∧ Hands past k ∨ Held past k ∧ act ≠ .done k := by
  constructor
  · rintro ⟨p, mid, heq, hp, hmid⟩
    rcases List.eq_nil_or_concat mid with rfl | ⟨mid, last, rfl⟩
    · obtain ⟨rfl, hact⟩ := List.append_inj' heq rfl
      obtain rfl := List.singleton_inj.mp hact
      exact .inl ⟨rfl, hp⟩
    · rw [List.concat_eq_append] at heq hmid
      rw [← List.cons_append, ← List.append_assoc] at heq
      obtain ⟨rfl, hact⟩ := List.append_inj' heq rfl
      obtain rfl := List.singleton_inj.mp hact
      rw [List.mem_append, not_or, List.mem_singleton] at hmid
      exact .inr ⟨⟨p, mid, rfl, hp, hmid.1⟩, fun hact => hmid.2 hact.symm⟩
  · rintro (⟨rfl, hp⟩ | ⟨⟨p, mid, rfl, hp, hmid⟩, hact⟩)
    · exact ⟨past, [], rfl, hp, List.not_mem_nil⟩
    · refine ⟨p, mid ++ [act], by simp, hp, ?_⟩
      rw [List.mem_append, not_or, List.mem_singleton]
      exact ⟨hmid, fun h => hact h.symm⟩

/-- The set `processing` is what the workers have. -/
theorem mem_processing_iff : k ∈ (after past).processing ↔ Held past k := by
  induction past using List.reverseRecOn with
  | nil =>
    refine iff_of_false (by simp [after, new]) ?_
    rintro ⟨p, mid, heq, -⟩
    simp at heq
  | append_singleton past act ih =>
    rw [after_concat, held_concat, ← ih]
    cases act with
    | add key => simp [step]
    | tryGet =>
      simp only [step, mem_processing_tryGet, Hands, true_and, ne_eq, reduceCtorEq, not_false_eq_true,
        and_true]
      rw [or_comm]
    | done key =>
      simp only [step, processing_done, Finset.mem_erase, reduceCtorEq, false_and, ne_eq,
        QueueAct.done.injEq, false_or]
      rw [and_comm, eq_comm]

/-! ## No add is lost -/

/-- A key that is added is dirty until it is handed out. -/
theorem dirty_or_handed (rest : List QueueAct) (hk : k ∈ (after past).dirty) :
    k ∈ (after (past ++ rest)).dirty ∨ ∃ mid, mid ++ [.tryGet] <+: rest ∧ Hands (past ++ mid) k := by
  induction rest using List.reverseRecOn with
  | nil => exact .inl (by rwa [List.append_nil])
  | append_singleton rest act ih =>
    rcases ih with hd | ⟨mid, hmid, hhands⟩
    · by_cases hact : act = .tryGet ∧ Hands (past ++ rest) k
      · obtain ⟨rfl, hhands⟩ := hact
        exact .inr ⟨rest, List.prefix_rfl, hhands⟩
      · refine .inl ?_
        rw [← List.append_assoc, after_concat]
        exact mem_dirty_step.mpr (.inr ⟨hd, hact⟩)
    · exact .inr ⟨mid, hmid.trans (List.prefix_append rest [act]), hhands⟩

/-- A key that is clean stays so until it is added. -/
theorem added_of_dirty (past : List QueueAct) {rest : List QueueAct} (hk : k ∉ (after past).dirty)
    (hrest : k ∈ (after (past ++ rest)).dirty) : .add k ∈ rest := by
  induction rest using List.reverseRecOn with
  | nil =>
    rw [List.append_nil] at hrest
    exact absurd hrest hk
  | append_singleton rest act ih =>
    rw [← List.append_assoc, after_concat, mem_dirty_step] at hrest
    rcases hrest with rfl | ⟨hd, -⟩
    · simp
    · exact List.mem_append_left [act] (ih hd)

/-! ## The law -/

/-- Only the worker that has a key is done with it. -/
def WellUsed (acts : List QueueAct) : Prop :=
  ∀ past key, past ++ [.done key] <+: acts → Held past key

theorem ready_of_wellUsed {acts : List QueueAct} (h : WellUsed acts) :
    ∀ past, past <+: acts → (after past).Ready := by
  refine Runs.prefix_induction ready_new fun past act hp hready => ?_
  rw [after_concat]
  cases act with
  | add key => exact hready.add
  | tryGet => exact hready.tryGet
  | done key => exact hready.done (mem_processing_iff.mpr (h past key hp))

/-- What the queue promises in a history. -/
structure Law (acts : List QueueAct) : Prop where
  ready : ∀ past, past <+: acts → (after past).Ready
  /-- What is being processed is what the workers have. -/
  processing : ∀ past key, past <+: acts → (key ∈ (after past).processing ↔ Held past key)
  /-- No key is handed out while a worker has it. -/
  exclusive : ∀ past key, past ++ [.tryGet] <+: acts → Hands past key → ¬ Held past key
  /-- A key that is added is handed out before the queue is idle. -/
  kept : ∀ past key rest, past ++ .add key :: rest <+: acts →
    (after (past ++ .add key :: rest)).queue = [] →
    (after (past ++ .add key :: rest)).processing = ∅ →
    ∃ mid, mid ++ [.tryGet] <+: rest ∧ Hands (past ++ .add key :: mid) key
  /-- A key that is handed out has been added, and after it was handed out the last time. -/
  added : ∀ past key, past ++ [.tryGet] <+: acts → Hands past key → .add key ∈ past
  once : ∀ past key mid, past ++ .tryGet :: mid ++ [.tryGet] <+: acts → Hands past key →
    Hands (past ++ .tryGet :: mid) key → .add key ∈ mid

theorem Ready.of_hands (h : (after past).Ready) (hhands : Hands past key) :
    key ∈ (after past).dirty ∧ key ∉ (after past).processing := by
  obtain ⟨queue, hq⟩ := tryGet_eq_some.mp hhands
  refine (h.mem_iff key).mp ?_
  rw [hq]
  exact List.mem_cons_self

end WorkQueue

open WorkQueue

/-- **The work queue.** In every history in which only the worker that has a key is done with it. -/
theorem workQueue_law (acts : List QueueAct) (h : WellUsed acts) : Law acts where
  ready := ready_of_wellUsed h
  processing _ _ _ := mem_processing_iff
  exclusive past key hp hhands hheld :=
    ((ready_of_wellUsed h past (Runs.prefix_of_concat hp)).of_hands hhands).2
      (mem_processing_iff.mpr hheld)
  kept past key rest hp hqueue hprocessing := by
    have hsplit : past ++ .add key :: rest = (past ++ [.add key]) ++ rest := by simp
    have hadded : key ∈ (after (past ++ [.add key])).dirty := by
      rw [after_concat]
      exact mem_dirty_step.mpr (.inl rfl)
    rcases dirty_or_handed rest hadded with hd | ⟨mid, hmid, hhands⟩
    · -- a dirty key is ready or a worker has it
      rw [← hsplit] at hd
      have hready := (ready_of_wellUsed h _ hp).mem_iff key
      rw [hqueue, hprocessing] at hready
      exact absurd (hready.mpr ⟨hd, Finset.notMem_empty key⟩) List.not_mem_nil
    · refine ⟨mid, hmid, ?_⟩
      simpa using hhands
  added past key hp hhands := by
    have hd := ((ready_of_wellUsed h past (Runs.prefix_of_concat hp)).of_hands hhands).1
    exact added_of_dirty [] (by simp [after, new]) hd
  once past key mid hp hhands hagain := by
    have hsplit : past ++ .tryGet :: mid = (past ++ [.tryGet]) ++ mid := by simp
    have hclean : key ∉ (after (past ++ [.tryGet])).dirty := by
      rw [after_concat, mem_dirty_step]
      simp [show (after past).tryGet.1 = some key from hhands]
    have hd := ((ready_of_wellUsed h _ (Runs.prefix_of_concat hp)).of_hands hagain).1
    rw [hsplit] at hd
    exact added_of_dirty _ hclean hd

/-- A key is added again while a worker has it. -/
def readded : List QueueAct :=
  [.add "a", .tryGet, .add "a", .add "a", .done "a", .tryGet, .done "a"]

theorem workQueue_law_readded : Law readded := by
  refine workQueue_law readded fun past key hp => ?_
  have hpast := List.prefix_iff_eq_take.mp (Runs.prefix_of_concat hp)
  have hlast : readded[past.length]? = some (.done key) := by
    obtain ⟨rest, hrest⟩ := hp
    rw [← hrest]
    simp
  have hlen := hp.length_le
  rw [List.length_append] at hlen
  have hcases : past.length = 4 ∧ key = "a" ∨ past.length = 6 ∧ key = "a" := by
    generalize past.length = n at hlast hlen
    have hn : n < 7 := hlen
    interval_cases n <;> simp [readded] at hlast
    all_goals
      subst hlast
      simp
  rcases hcases with ⟨hn, rfl⟩ | ⟨hn, rfl⟩
  · rw [hpast, hn]
    exact ⟨[.add "a"], [.add "a", .add "a"], rfl, by decide, by decide⟩
  · rw [hpast, hn]
    exact ⟨[.add "a", .tryGet, .add "a", .add "a", .done "a"], [], rfl, by decide, by decide⟩

end MyK8s.Controller
