import MyK8s.Lib.Runs

/-!
# Processes over a shared store

A process reads a store and writes to it, one access at a time, and other processes come in between.
What it reads need not be the last state: a replica that serves reads may lag behind the writes. A
write can be refused, or answered with an error while it is still under way.

`Proc.wp` says of a process what each of its writes is given to know: all that it has read before.
`System.invariant` is the rule for what all states have in common.
-/

namespace Process

universe u

/-- A process, by its next access to the store. -/
inductive Proc (σ W : Type u) (R : W → Type u) (α : Type u) : Type u
  | ret (a : α)
  | read (next : σ → Proc σ W R α)
  | write (w : W) (next : R w → Proc σ W R α)

namespace Proc

variable {σ W : Type u} {R : W → Type u} {α β : Type u}

def bind : Proc σ W R α → (α → Proc σ W R β) → Proc σ W R β
  | .ret a, f => f a
  | .read next, f => .read fun s => (next s).bind f
  | .write w next, f => .write w fun r => (next r).bind f

instance : Monad (Proc σ W R) where
  pure := .ret
  bind := .bind

/-- The state, as the process is shown it. -/
def get : Proc σ W R σ := .read .ret

/-- A write, with its answer. -/
def put (w : W) : Proc σ W R (R w) := .write w .ret

/-! ## What a process knows when it writes -/

/-- Every write of the process has `P`, which may depend on the states that it has read until then
(the last one first), and what it returns has `Q`. -/
def wp (P : List σ → W → Prop) (Q : List σ → α → Prop) : Proc σ W R α → List σ → Prop
  | .ret a, seen => Q seen a
  | .read next, seen => ∀ s, wp P Q (next s) (s :: seen)
  | .write w next, seen => P seen w ∧ ∀ r, wp P Q (next r) seen

variable {P P' : List σ → W → Prop} {Q Q' : List σ → α → Prop} {seen : List σ}

@[simp] theorem wp_pure {a : α} : wp P Q (pure a : Proc σ W R α) seen ↔ Q seen a := Iff.rfl

@[simp] theorem wp_get {Q : List σ → σ → Prop} :
    wp P Q (get : Proc σ W R σ) seen ↔ ∀ s, Q (s :: seen) s := Iff.rfl

@[simp] theorem wp_put {w : W} {Q : List σ → R w → Prop} :
    wp P Q (put w : Proc σ W R (R w)) seen ↔ P seen w ∧ ∀ r, Q seen r := Iff.rfl

@[simp] theorem wp_bind {x : Proc σ W R α} {f : α → Proc σ W R β} {Q : List σ → β → Prop} :
    wp P Q (x >>= f) seen ↔ wp P (fun seen a => wp P Q (f a) seen) x seen := by
  change wp P Q (x.bind f) seen ↔ _
  induction x generalizing seen with
  | ret a => rfl
  | read next ih => exact forall_congr' fun s => ih s
  | write w next ih => exact and_congr_right fun _ => forall_congr' fun r => ih r

theorem wp_mono {x : Proc σ W R α} (hP : ∀ seen w, P seen w → P' seen w)
    (hQ : ∀ seen a, Q seen a → Q' seen a) (h : wp P Q x seen) : wp P' Q' x seen := by
  induction x generalizing seen with
  | ret a => exact hQ seen a h
  | read next ih => exact fun s => ih s (h s)
  | write w next ih => exact ⟨hP seen w h.1, fun r => ih r (h.2 r)⟩

/-- A process does not forget what it has read. -/
theorem wp_seen {x : Proc σ W R α} (h : wp P Q x seen) :
    wp P (fun seen' a => seen ⊆ seen' ∧ Q seen' a) x seen := by
  induction x generalizing seen with
  | ret a => exact ⟨List.Subset.refl seen, h⟩
  | read next ih =>
    intro s
    refine wp_mono (fun _ _ h => h) (fun seen' a hread => ⟨?_, hread.2⟩) (ih s (h s))
    exact List.Subset.trans (List.subset_cons_self s seen) hread.1
  | write w next ih => exact ⟨h.1, fun r => ih r (h.2 r)⟩

/-! ## Processes that can fail -/

/-- As `wp`, for a process that ends early when it fails: `Q` is for what it returns if it does not. -/
def writes {ε : Type u} (P : List σ → W → Prop) (Q : List σ → α → Prop)
    (x : ExceptT ε (Proc σ W R) α) (seen : List σ) : Prop :=
  wp P (fun seen r => ∀ a, r = .ok a → Q seen a) x.run seen

section Failing

variable {ε : Type u} {x : ExceptT ε (Proc σ W R) α}

@[simp] theorem writes_pure {a : α} :
    writes P Q (pure a : ExceptT ε (Proc σ W R) α) seen ↔ Q seen a := by
  simp [writes]

@[simp] theorem writes_throw {e : ε} :
    writes P Q (throw e : ExceptT ε (Proc σ W R) α) seen := by
  simp [writes]

@[simp] theorem writes_bind {f : α → ExceptT ε (Proc σ W R) β} {Q : List σ → β → Prop} :
    writes P Q (x >>= f) seen ↔ writes P (fun seen a => writes P Q (f a) seen) x seen := by
  unfold writes
  rw [ExceptT.run_bind, wp_bind]
  constructor
  · refine wp_mono (fun _ _ h => h) fun seen r h => ?_
    rintro a rfl
    exact h
  · refine wp_mono (fun _ _ h => h) fun seen r h => ?_
    cases r with
    | ok a => exact h a rfl
    | error e => exact fun a ha => by cases ha

theorem writes_mono (hQ : ∀ seen a, Q seen a → Q' seen a) (h : writes P Q x seen) :
    writes P Q' x seen :=
  wp_mono (fun _ _ h => h) (fun seen _ h a ha => hQ seen a (h a ha)) h

end Failing

/-! ## A process on its own -/

section Alone

variable {ε : Type u} {exec : (w : W) → σ → R w × σ}

/-- What the process returns and leaves when nobody else comes in between. -/
def alone (exec : (w : W) → σ → R w × σ) : Proc σ W R α → σ → α × σ
  | .ret a, s => (a, s)
  | .read next, s => alone exec (next s) s
  | .write w next, s => alone exec (next (exec w s).1) (exec w s).2

@[simp] theorem alone_pure (a : α) (s : σ) :
    alone exec (pure a : Proc σ W R α) s = (a, s) := rfl

@[simp] theorem alone_get (s : σ) : alone exec (get : Proc σ W R σ) s = (s, s) := rfl

@[simp] theorem alone_put (w : W) (s : σ) : alone exec (put w) s = exec w s := rfl

@[simp] theorem alone_bind (x : Proc σ W R α) (f : α → Proc σ W R β) (s : σ) :
    alone exec (x >>= f) s = alone exec (f (alone exec x s).1) (alone exec x s).2 := by
  change alone exec (x.bind f) s = _
  induction x generalizing s with
  | ret a => rfl
  | read next ih => exact ih s s
  | write w next ih => exact ih _ _

/-- The writes of the process when nobody else comes in between. -/
def written (exec : (w : W) → σ → R w × σ) : Proc σ W R α → σ → List W
  | .ret _, _ => []
  | .read next, s => written exec (next s) s
  | .write w next, s => w :: written exec (next (exec w s).1) (exec w s).2

@[simp] theorem written_bind (x : Proc σ W R α) (f : α → Proc σ W R β) (s : σ) :
    written exec (x >>= f) s =
      written exec x s ++ written exec (f (alone exec x s).1) (alone exec x s).2 := by
  change written exec (x.bind f) s = _
  induction x generalizing s with
  | ret a => rfl
  | read next ih => exact ih s s
  | write w next ih => exact congrArg (w :: ·) (ih _ _)

/-- A failure ends the process. -/
theorem alone_run_bind (x : ExceptT ε (Proc σ W R) α) (f : α → ExceptT ε (Proc σ W R) β) (s : σ) :
    alone exec (x >>= f).run s =
      match alone exec x.run s with
      | (.ok a, s') => alone exec (f a).run s'
      | (.error e, s') => (.error e, s') := by
  rw [ExceptT.run_bind, alone_bind]
  cases alone exec x.run s with
  | mk r s' => cases r <;> rfl

/-- As `alone`, where the reads are served by a replica: each shows the store of some writes ago. The store
is the one now with those before it, and each read has its lag, which is none when they run out. -/
def lagging (exec : (w : W) → σ → R w × σ) : Proc σ W R α → List ℕ → σ × List σ → α × (σ × List σ)
  | .ret a, _, s => (a, s)
  | .read next, lags, s =>
    lagging exec (next ((s.1 :: s.2)[lags.headD 0]?.getD s.1)) lags.tail s
  | .write w next, lags, s => lagging exec (next (exec w s.1).1) lags ((exec w s.1).2, s.1 :: s.2)

/-- Where no read lags, the replica makes no difference. -/
theorem lagging_of_current {x : Proc σ W R α} {lags : List ℕ} {s : σ × List σ} (h : ∀ lag ∈ lags, lag = 0) :
    ((x.lagging exec lags s).1, (x.lagging exec lags s).2.1) = alone exec x s.1 := by
  induction x generalizing lags s with
  | ret a => rfl
  | read next ih =>
    have hhead : lags.headD 0 = 0 := by
      cases lags with
      | nil => rfl
      | cons lag lags => exact h lag List.mem_cons_self
    have htail : ∀ lag ∈ lags.tail, lag = 0 := fun lag hlag => h lag (List.mem_of_mem_tail hlag)
    rw [lagging, hhead]
    exact ih s.1 htail
  | write w next ih => exact ih _ h

end Alone

end Proc

/-! ## Many processes -/

/-- A process that has been started, with the states that it has read, the last one first. -/
structure Running (σ W : Type u) (R : W → Type u) where
  seen : List σ
  proc : Proc σ W R PUnit

section

variable {σ W : Type u} {R : W → Type u} {P : List σ → W → Prop} {r : Running σ W R}

/-- What the process has read is among the states, and `P` holds of the writes that it has ahead. -/
structure Running.Sound (P : List σ → W → Prop) (states : List σ) (r : Running σ W R) : Prop where
  seen : r.seen ⊆ states
  wp : r.proc.wp P (fun _ _ => True) r.seen

theorem Running.Sound.mono {states states' : List σ} (h : r.Sound P states)
    (hsub : states ⊆ states') : r.Sound P states' :=
  ⟨List.Subset.trans h.seen hsub, h.wp⟩

end

/-- The store, all states that it had before, and the processes. -/
structure System (σ W : Type u) (R : W → Type u) where
  now : σ
  past : List σ
  procs : List (Running σ W R)

/-- What happens next: a process is started; one reads the state of some time ago; one writes; or its
write is answered with an error `e`, and is lost or stays under way without it. -/
inductive Act (ι ε : Type u)
  | start (p : ι)
  | read (i lag : ℕ)
  | write (i : ℕ)
  | fail (i : ℕ) (e : ε) (underWay : Bool)

namespace System

variable {σ W ι ε : Type u} {R : W → Type u}

def init (s : σ) : System σ W R := ⟨s, [], []⟩

/-- All states that the store has had. -/
def states (s : System σ W R) : List σ := s.now :: s.past

section Step

variable (code : ι → Proc σ W R PUnit) (exec : (w : W) → σ → R w × σ) (refuse : ε → (w : W) → R w)

def step (s : System σ W R) : Act ι ε → System σ W R
  | .start p => { s with procs := s.procs ++ [⟨[], code p⟩] }
  | .read i lag =>
    match s.procs[i]? with
    | some ⟨seen, .read next⟩ =>
      let shown := s.states[lag]?.getD s.now
      { s with procs := s.procs.set i ⟨shown :: seen, next shown⟩ }
    | _ => s
  | .write i =>
    match s.procs[i]? with
    | some ⟨seen, .write w next⟩ =>
      let (r, now) := exec w s.now
      ⟨now, s.states, s.procs.set i ⟨seen, next r⟩⟩
    | _ => s
  | .fail i e underWay =>
    match s.procs[i]? with
    | some ⟨seen, .write w next⟩ =>
      let left := if underWay then [⟨seen, .write w fun _ => .ret ⟨⟩⟩] else []
      { s with procs := s.procs.set i ⟨seen, next (refuse e w)⟩ ++ left }
    | _ => s

def run (s : System σ W R) (acts : List (Act ι ε)) : System σ W R :=
  acts.foldl (step code exec refuse) s

end Step

/-- The act carries out a write, of a process that has read `seen`. -/
def Writes (s : System σ W R) (act : Act ι ε) (seen : List σ) (w : W) : Prop :=
  ∃ i next, act = .write i ∧ s.procs[i]? = some ⟨seen, .write w next⟩

section Rules

variable {code : ι → Proc σ W R PUnit} {exec : (w : W) → σ → R w × σ}
  {refuse : ε → (w : W) → R w} {s : System σ W R} {act : Act ι ε}

/-- **What an act can do**: it leaves the store alone, or it carries out a write. -/
theorem step_cases (code : ι → Proc σ W R PUnit) (exec : (w : W) → σ → R w × σ)
    (refuse : ε → (w : W) → R w) (s : System σ W R) (act : Act ι ε) :
    (s.step code exec refuse act).states = s.states ∨
      ∃ seen w, s.Writes act seen w ∧ (s.step code exec refuse act).now = (exec w s.now).2 ∧
        (s.step code exec refuse act).past = s.states := by
  cases act with
  | start p => exact .inl rfl
  | read i lag =>
    left
    simp only [step]
    split <;> rfl
  | write i =>
    simp only [step]
    split
    · rename_i seen w next h
      exact .inr ⟨seen, w, ⟨i, next, rfl, h⟩, rfl, rfl⟩
    · exact .inl rfl
  | fail i e underWay =>
    left
    simp only [step]
    split <;> rfl

theorem Writes.now_step {seen : List σ} {w : W} (h : s.Writes act seen w) :
    (s.step code exec refuse act).now = (exec w s.now).2 := by
  obtain ⟨i, next, rfl, hi⟩ := h
  simp only [step, hi]

theorem Writes.unique {seen seen' : List σ} {w w' : W} (h : s.Writes act seen w)
    (h' : s.Writes act seen' w') : seen = seen' ∧ w = w' := by
  obtain ⟨i, next, rfl, hi⟩ := h
  obtain ⟨i', next', heq, hi'⟩ := h'
  cases heq
  cases Option.some.inj (hi.symm.trans hi')
  exact ⟨rfl, rfl⟩

variable {P : List σ → W → Prop}

/-- All processes are sound. -/
def Sound (P : List σ → W → Prop) (s : System σ W R) : Prop := ∀ r ∈ s.procs, r.Sound P s.states

theorem sound_init (x : σ) : Sound P (init x : System σ W R) := by
  intro r hr
  cases hr

theorem Sound.set (h : Sound P s) {states : List σ} (hsub : s.states ⊆ states) {i : ℕ}
    {r' : Running σ W R} (hr' : r'.Sound P states) : ∀ r ∈ s.procs.set i r', r.Sound P states := by
  intro r hr
  rcases List.mem_or_eq_of_mem_set hr with hr | rfl
  · exact (h r hr).mono hsub
  · exact hr'

theorem Sound.step (h : Sound P s)
    (hstart : ∀ p, act = .start p → (code p).wp P (fun _ _ => True) []) :
    Sound P (s.step code exec refuse act) := by
  cases act with
  | start p =>
    intro r hr
    rcases List.mem_append.mp hr with hr | hr
    · exact h r hr
    · obtain rfl := List.mem_singleton.mp hr
      exact ⟨List.nil_subset _, hstart p rfl⟩
  | read i lag =>
    simp only [System.step]
    split
    · rename_i seen next hi
      have hr := h _ (List.mem_of_getElem? hi)
      refine h.set (List.Subset.refl _) ⟨List.cons_subset.mpr ⟨?_, hr.seen⟩, hr.wp _⟩
      cases hlag : s.states[lag]? with
      | none => exact List.mem_cons_self
      | some x => exact List.mem_of_getElem? hlag
    · exact h
  | write i =>
    simp only [System.step]
    split
    · rename_i seen w next hi
      have hr := h _ (List.mem_of_getElem? hi)
      have hsub : s.states ⊆ (exec w s.now).2 :: s.states := List.subset_cons_self _ _
      exact h.set hsub ⟨List.Subset.trans hr.seen hsub, hr.wp.2 _⟩
    · exact h
  | fail i e underWay =>
    simp only [System.step]
    split
    · rename_i seen w next hi
      have hr := h _ (List.mem_of_getElem? hi)
      have hnext : Running.Sound P s.states ⟨seen, next (refuse e w)⟩ := ⟨hr.seen, hr.wp.2 _⟩
      intro r hmem
      rcases List.mem_append.mp hmem with hmem | hmem
      · exact h.set (List.Subset.refl _) hnext r hmem
      · -- what is left under way is the write, with nobody to hear of it
        split at hmem
        · obtain rfl := List.mem_singleton.mp hmem
          exact ⟨hr.seen, hr.wp.1, fun _ => trivial⟩
        · cases hmem
    · exact h

theorem Sound.run (h : Sound P s) {acts : List (Act ι ε)}
    (hstart : ∀ p, .start p ∈ acts → (code p).wp P (fun _ _ => True) []) :
    Sound P (s.run code exec refuse acts) := by
  induction acts generalizing s with
  | nil => exact h
  | cons act acts ih =>
    refine ih (h.step fun p hp => hstart p ?_) fun p hp => hstart p (List.mem_cons_of_mem _ hp)
    rw [hp]
    exact List.mem_cons_self

/-- What a sound system writes. -/
theorem Sound.writes (h : Sound P s) {seen : List σ} {w : W} (hw : s.Writes act seen w) :
    seen ⊆ s.states ∧ P seen w := by
  obtain ⟨i, next, -, hi⟩ := hw
  have hr := h _ (List.mem_of_getElem? hi)
  exact ⟨hr.seen, hr.wp.1⟩

/-- **Invariants of the history.** What holds of the first state alone, and is kept when a process
writes on the last state what it is given to know by states of the history, holds of every history. -/
theorem history {J : List σ → Prop} {x : σ} (hx : J [x])
    (hexec : ∀ w now past seen, seen ⊆ now :: past → P seen w → J (now :: past) →
      J ((exec w now).2 :: now :: past)) {acts : List (Act ι ε)}
    (hstart : ∀ p, .start p ∈ acts → (code p).wp P (fun _ _ => True) []) :
    J ((init x).run code exec refuse acts).states := by
  have hall : ∀ past, past <+: acts → J ((init x).run code exec refuse past).states := by
    refine Runs.prefix_induction hx fun past act hp hJ => ?_
    have hsound : Sound P ((init x).run code exec refuse past) :=
      (sound_init x).run fun p hmem => hstart p ((Runs.prefix_of_concat hp).subset hmem)
    unfold run at hJ hsound ⊢
    rw [List.foldl_concat]
    rcases step_cases code exec refuse (past.foldl (step code exec refuse) (init x)) act with
      h | ⟨seen, w, hw, hnow, hpast⟩
    · rwa [h]
    · unfold states
      rw [hnow, hpast]
      obtain ⟨hseen, hok⟩ := hsound.writes hw
      exact hexec w _ _ seen hseen hok hJ
  exact hall acts List.prefix_rfl

/-- **Invariants.** If the store starts with `J`, and each process that has read states with `J`
writes what keeps `J`, then all states of a run have `J`. -/
theorem invariant {J : σ → Prop} {Ok : W → Prop} {x : σ} (hx : J x)
    (hexec : ∀ w s, Ok w → J s → J (exec w s).2) {acts : List (Act ι ε)}
    (hstart : ∀ p, .start p ∈ acts →
      (code p).wp (fun seen w => (∀ s ∈ seen, J s) → Ok w) (fun _ _ => True) []) :
    ∀ s ∈ ((init x).run code exec refuse acts).states, J s := by
  have hfirst : ∀ s ∈ [x], J s := by
    intro s hs
    obtain rfl := List.mem_singleton.mp hs
    exact hx
  have hnext : ∀ w now past seen, seen ⊆ now :: past → ((∀ s ∈ seen, J s) → Ok w) →
      (∀ s ∈ now :: past, J s) → ∀ s ∈ (exec w now).2 :: now :: past, J s := by
    intro w now past seen hseen hok hJ
    refine List.forall_mem_cons.mpr ⟨?_, hJ⟩
    exact hexec w now (hok fun s hs => hJ s (hseen hs)) (hJ now List.mem_cons_self)
  exact history (J := fun states => ∀ s ∈ states, J s) hfirst hnext hstart

/-- One more act in front, which starts nothing. -/
theorem exists_run_cons {Q : System σ W R → Prop} {s' : System σ W R} {act : Act ι ε}
    (hstep : s.step code exec refuse act = s') (hact : ∀ q, act ≠ .start q)
    (h : ∃ acts : List (Act ι ε), (∀ q, .start q ∉ acts) ∧ Q (s'.run code exec refuse acts)) :
    ∃ acts : List (Act ι ε), (∀ q, .start q ∉ acts) ∧ Q (s.run code exec refuse acts) := by
  obtain ⟨acts, hstart, hrun⟩ := h
  refine ⟨act :: acts, fun q hq => ?_, ?_⟩
  · rcases List.mem_cons.mp hq with hq | hq
    · exact hact q hq.symm
    · exact hstart q hq
  · unfold run at hrun ⊢
    rwa [List.foldl_cons, hstep]

/-- A process that has been started can run to its end with reads that lag. -/
theorem exists_run_lagging (p : Proc σ W R PUnit) (lags : List ℕ) {s : System σ W R} {i : ℕ} {seen : List σ}
    (hi : s.procs[i]? = some ⟨seen, p⟩) : ∃ acts : List (Act ι ε), (∀ q, .start q ∉ acts) ∧
      ((s.run code exec refuse acts).now, (s.run code exec refuse acts).past) =
        (p.lagging exec lags (s.now, s.past)).2 := by
  induction p generalizing s seen lags with
  | ret a => exact ⟨[], fun q => List.not_mem_nil, rfl⟩
  | read next ih =>
    have hlt := (List.getElem?_eq_some_iff.mp hi).1
    let shown := s.states[lags.headD 0]?.getD s.now
    let s' : System σ W R := { s with procs := s.procs.set i ⟨shown :: seen, next shown⟩ }
    have hstep : s.step code exec refuse (.read i (lags.headD 0) : Act ι ε) = s' := by
      simp only [System.step, hi]
      rfl
    exact exists_run_cons (Q := fun r => (r.now, r.past) = _) hstep (fun q hq => by cases hq)
      (ih shown lags.tail (s := s') (List.getElem?_set_self hlt))
  | write w next ih =>
    have hlt := (List.getElem?_eq_some_iff.mp hi).1
    let s' : System σ W R :=
      ⟨(exec w s.now).2, s.states, s.procs.set i ⟨seen, next (exec w s.now).1⟩⟩
    have hstep : s.step code exec refuse (.write i : Act ι ε) = s' := by
      simp only [System.step, hi]
      rfl
    exact exists_run_cons (Q := fun r => (r.now, r.past) = _) hstep (fun q hq => by cases hq)
      (ih _ lags (s := s') (List.getElem?_set_self hlt))

/-- A process that has been started can run to its end alone. -/
theorem exists_run_alone (p : Proc σ W R PUnit) {s : System σ W R} {i : ℕ} {seen : List σ}
    (hi : s.procs[i]? = some ⟨seen, p⟩) : ∃ acts : List (Act ι ε), (∀ q, .start q ∉ acts) ∧
      (s.run code exec refuse acts).now = (p.alone exec s.now).2 := by
  obtain ⟨acts, hstart, hrun⟩ : ∃ acts : List (Act ι ε), (∀ q, .start q ∉ acts) ∧
      ((s.run code exec refuse acts).now, (s.run code exec refuse acts).past) =
        (p.lagging exec [] (s.now, s.past)).2 := exists_run_lagging p [] hi
  have hcurrent := @Proc.lagging_of_current σ W R PUnit exec p [] (s.now, s.past)
    (fun lag hlag => absurd hlag List.not_mem_nil)
  refine ⟨acts, hstart, (congrArg Prod.fst hrun).trans ?_⟩
  exact congrArg Prod.snd hcurrent

/-- Requests that are served one after the other are one of the runs. -/
theorem exists_run_sequence (s : System σ W R) (qs : List ι) :
    ∃ acts : List (Act ι ε), (∀ q, .start q ∈ acts → q ∈ qs) ∧
      (s.run code exec refuse acts).now =
        qs.foldl (fun x q => ((code q).alone exec x).2) s.now := by
  induction qs generalizing s with
  | nil => exact ⟨[], fun q hq => absurd hq List.not_mem_nil, rfl⟩
  | cons q qs ih =>
    let s' : System σ W R := { s with procs := s.procs ++ [⟨[], code q⟩] }
    have hi : s'.procs[s.procs.length]? = some ⟨[], code q⟩ := by simp [s']
    obtain ⟨acts, hstart, hrun⟩ :=
      @exists_run_alone σ W ι ε R code exec refuse (code q) s' s.procs.length [] hi
    obtain ⟨rest, hrest, hruns⟩ := ih (s'.run code exec refuse acts)
    refine ⟨.start q :: acts ++ rest, fun q' hq' => ?_, ?_⟩
    · rcases List.mem_append.mp hq' with hq' | hq'
      · rcases List.mem_cons.mp hq' with hq' | hq'
        · cases hq'
          exact List.mem_cons_self
        · exact absurd hq' (hstart q')
      · exact List.mem_cons_of_mem _ (hrest q' hq')
    · have hsplit : s.run code exec refuse (.start q :: acts ++ rest) =
          (s'.run code exec refuse acts).run code exec refuse rest := List.foldl_append
      rw [hsplit, hruns, hrun]
      rfl

end Rules

end System

end Process
