import MyK8s.Controller.Manager
import MyK8s.KubeProxy.Hooks

/-!
# kube-proxy as a process

`run` of `src/kube_proxy.rs`: the base chains are set up, and then two informers and a resync add one key to a work
queue, at which a worker syncs. A call of `iptables` may fail at any time, kube-proxy may be started anew, and other
programs change their own chains.

In every run, either the plan for what the server lists is laid, or a sync is owed, under way, or missed
(`plan_pending`).
-/

namespace MyK8s.KubeProxy

open ApiServer
open Chains
open Controller
open Process (Proc)

/-! ## The process -/

inductive Feed
  | services
  | endpoints
  deriving DecidableEq

def Feed.kind : Feed → Kind
  | services => .service
  | endpoints => .endpoints

/-- `SYNC_KEY`. -/
def syncKey : String := "sync"

/-- The informers and the resync, which add one key whatever the event. The worker is kube-proxy's own. -/
def informing : Tasks Feed where
  kind := Feed.kind
  keys _ _ _ := [syncKey]
  asks _ := false
  resync _ := [syncKey]
  reconcile _ _ := pure ()

/-- What matters to kube-proxy of the objects: the lists that it plans for. -/
def listing : Purpose where
  outdated _ _ := False
  rely _ db db' := lists db' = lists db
  ignored _ _ _ := False
  shared := False

inductive Stage
  | setUp
  | sync
  deriving DecidableEq

abbrev SyncJob := Proc World Argv CallReply (Except SyncError Unit)

/-- The objects at the server with the informers and the queue, the nat table, and what kube-proxy is about to do
with it. -/
structure Proxy where
  manager : Manager informing
  net : Netfilter
  job : Option (Stage × SyncJob)

/-- What happens next. -/
inductive ProxyAct
  /-- Somebody else writes to the server. -/
  | write (w : Write)
  /-- Other programs change the nat table, but for kube-proxy's chains. -/
  | tamper (net : Netfilter)
  | connect (i : Feed)
  | poll (i : Feed)
  | disconnect (i : Feed)
  | handle (i : Feed)
  | resync
  | fire (n : ℕ)
  | get
  /-- The server is read, or `iptables` is called. -/
  | access
  /-- A call fails, carried out or not. -/
  | fail (e : CallError) (done : Bool)
  | unreachable (e : ApiError)
  | finish
  /-- kube-proxy is started anew. -/
  | crash

/-- The table as other programs make it. -/
def Netfilter.tampered (n n' : Netfilter) : Netfilter where
  table c := if Ours c then n.table c else n'.table c
  postrouting := n'.postrouting

namespace Proxy

def start (db : Db) (net : Netfilter) : Proxy := ⟨Manager.start db, net, some (.setUp, Script.ensureBaseChains.run)⟩

def world (p : Proxy) : World := ⟨p.manager.db, p.net⟩

/-- The tasks are spawned when the base chains have been set up. -/
def startingUp (p : Proxy) : Bool :=
  match p.job with
  | some (.setUp, _) => true
  | _ => false

def inform (p : Proxy) (act : ManagerAct Feed) : Proxy :=
  if p.startingUp then p else { p with manager := p.manager.step act }

/-- What the worker does when `sync` has returned. The error is logged. -/
def synced (p : Proxy) (r : Except SyncError Unit) : Proxy :=
  let outcome := r.mapError fun _ => ClientError.bail "iptables sync failed; retrying after backoff"
  { p with manager := p.manager.finish syncKey outcome, job := none }

def step (shortHash : String → String) (p : Proxy) : ProxyAct → Proxy
  | .write w => { p with manager := p.manager.step (.write w) }
  | .tamper net => { p with net := p.net.tampered net }
  | .connect i => p.inform (.connect i)
  | .poll i => p.inform (.poll i)
  | .disconnect i => p.inform (.disconnect i)
  | .handle i => p.inform (.handle i true)
  | .resync => p.inform .resync
  | .fire n => p.inform (.fire n)
  | .get =>
    match p.job, p.manager.queue.tryGet with
    | none, (some _, queue) =>
      { p with manager := { p.manager with queue := queue }, job := some (.sync, (Script.sync shortHash).run) }
    | _, _ => p
  | .access =>
    match p.job with
    | some (stage, .read next) => { p with job := some (stage, next p.world) }
    | some (stage, .write argv next) =>
      { p with net := (p.world.exec argv).2.net, job := some (stage, next (p.world.exec argv).1) }
    | _ => p
  | .fail e done =>
    match p.job with
    | some (stage, .write argv next) =>
      { p with
        net := if done then (p.world.exec argv).2.net else p.net
        job := some (stage, next (.error e)) }
    | _ => p
  | .unreachable e =>
    match p.job with
    | some (stage, .read _) => { p with job := some (stage, .ret (.error (.list e))) }
    | _ => p
  | .finish =>
    match p.job with
    | some (.setUp, .ret _) => { p with job := none }
    | some (.sync, .ret r) => p.synced r
    | _ => p
  | .crash => start p.manager.db p.net

/-- A sync is due: the key is in the queue or waits for the end of a delay, or an informer is to get an event. -/
def Owes (p : Proxy) : Prop := p.manager.Owes syncKey

def Syncing (p : Proxy) : Prop := ∃ job, p.job = some (.sync, job)

/-- The act makes kube-proxy miss that the lists may have changed: a write that changes them is in no live stream; a
stream ends before its reader has got an event; or kube-proxy is started anew. -/
def Misses (p : Proxy) : ProxyAct → Prop
  | .write w => p.manager.Misses listing syncKey (.write w)
  | .disconnect i => p.manager.Misses listing syncKey (.disconnect i)
  | .crash => p.Owes ∨ p.Syncing
  | _ => False

/-- As a machine of the library. -/
def machine (shortHash : String → String) : Levels.Machine Proxy ProxyAct Unit :=
  ⟨step shortHash, fun p _ => p.Owes, fun p act _ => p.Misses act⟩

def run (shortHash : String → String) (p : Proxy) (acts : List ProxyAct) : Proxy := acts.foldl (step shortHash) p

theorem run_concat (shortHash : String → String) (p : Proxy) (acts : List ProxyAct) (act : ProxyAct) :
    p.run shortHash (acts ++ [act]) = (p.run shortHash acts).step shortHash act := List.foldl_concat ..

/-- The plan was not laid at the start or something has been missed, and no sync has been due since. -/
def Missed (shortHash : String → String) (p : Proxy) (acts : List ProxyAct) : Prop :=
  (machine shortHash).Missed (fun _ => ¬ Laid shortHash p.net.table (lists p.manager.db)) p acts ()

/-! ## What an act can do -/

/-- The plan for what the server lists is what a sync is for. -/
def scheme (shortHash : String → String) : Levels.Scheme World Argv Unit CallReply CallError where
  outdated _ w := ¬ Laid shortHash w.net.table (lists w.db)
  rely _ := Untouched
  setting := calls

/-- The worker with its sync. -/
def syncing (p : Proxy) : Option (Unit × SyncJob) :=
  match p.job with
  | some (.sync, job) => some ((), job)
  | _ => none

/-- As a state of the library. -/
def view (shortHash : String → String) (p : Proxy) (missed : Unit → Prop) :
    Levels.State World Argv Unit CallReply SyncError :=
  (machine shortHash).view world syncing p missed

/-- The calls that are to come are kube-proxy's own, and its marks only mark. -/
structure Sound (p : Proxy) : Prop where
  db : WellFormed p.manager.db
  marked : Marked p.net.table
  calls : ∀ stage job, p.job = some (stage, job) → ∃ seen,
    Proc.wp (fun _ argv => Makes argv ∧ (stage = .setUp → Spares argv)) (fun _ _ => True) job seen

section Steps

variable {shortHash : String → String} {p p' : Proxy} {act : ProxyAct} {missed : Unit → Prop} {job : SyncJob}

theorem syncing_eq_some : p.syncing = some ((), job) ↔ p.job = some (.sync, job) := by
  unfold syncing
  split
  · rename_i job' hjob
    rw [hjob]
    simp
  · rename_i hno
    constructor
    · intro h
      cases h
    · exact fun h => absurd h (hno job)

/-- A sync that is not pending after the act. -/
theorem not_pending {u : Unit}
    (hu : u ∉ (p'.view shortHash fun k => (machine shortHash).misses p act k ∨ missed k).pending) :
    ¬ p'.Owes ∧ ¬ p.Misses act ∧ ¬ missed u := by
  obtain ⟨howes, hmissed⟩ := not_or.mp hu
  obtain ⟨hmisses, hmissed⟩ := not_or.mp hmissed
  exact ⟨howes, hmisses, hmissed⟩

/-- The worker does nothing. -/
theorem view_other (hwork : p'.syncing = p.syncing)
    (hworld : ¬ p'.Owes → ¬ p.Misses act → Untouched p.world p'.world ∧ ¬ p.Owes) :
    (scheme shortHash).Step (p.view shortHash missed)
      (p'.view shortHash fun k => (machine shortHash).misses p act k ∨ missed k) := by
  refine .other hwork fun u hu => ?_
  obtain ⟨howes, hmisses, hmissed⟩ := not_pending hu
  obtain ⟨huntouched, hold⟩ := hworld howes hmisses
  exact ⟨not_or.mpr ⟨hold, hmissed⟩, huntouched⟩

/-- The informers go on, or the queue, and lose nothing that is not missed. -/
theorem view_inform {mact : ManagerAct Feed} (hdb : (p.manager.step mact).db = p.manager.db)
    (howes : p.Owes → (p.manager.step mact).Owes syncKey ∨ p.Misses act) :
    (scheme shortHash).Step (p.view shortHash missed)
      ((p.inform mact).view shortHash fun k => (machine shortHash).misses p act k ∨ missed k) := by
  unfold inform
  split
  · exact view_other rfl fun hno _ => ⟨refl p.world, hno⟩
  · refine view_other rfl fun hno hmisses => ⟨?_, fun hold => (howes hold).elim hno hmisses⟩
    exact ⟨congrArg lists hdb, fun _ _ => rfl⟩

/-- Nothing happens. -/
theorem view_idle (hsame : p' = p) : (scheme shortHash).Step (p.view shortHash missed)
    (p'.view shortHash fun k => (machine shortHash).misses p act k ∨ missed k) := by
  subst hsame
  exact view_other rfl fun hno _ => ⟨refl _, hno⟩

/-- What is being done goes on: the base chains are set up, which does not touch what is laid, or a sync. -/
theorem view_job {stage : Stage} {job job' : SyncJob} (hjob : p.job = some (stage, job))
    (hp' : p' = { p with net := p'.net, job := some (stage, job') })
    (hsetUp : stage = .setUp → Untouched p.world p'.world)
    (hsync : (scheme shortHash).Settles () job p.world → (scheme shortHash).Settles () job' p'.world) :
    (scheme shortHash).Step (p.view shortHash missed)
      (p'.view shortHash fun k => (machine shortHash).misses p act k ∨ missed k) := by
  have hmanager : p'.manager = p.manager := by rw [hp']
  have hjob' : p'.job = some (stage, job') := by rw [hp']
  have howes : p'.Owes ↔ p.Owes := by
    unfold Owes
    rw [hmanager]
  cases stage with
  | setUp =>
    refine view_other ?_ fun hno _ => ⟨hsetUp rfl, fun hold => hno (howes.mpr hold)⟩
    unfold syncing
    rw [hjob, hjob']
  | sync =>
    refine .work () job job' (syncing_eq_some.mpr hjob) (syncing_eq_some.mpr hjob') (fun _ => hsync) fun u hu => ?_
    obtain ⟨hno, -, hmissed⟩ := not_pending hu
    exact ⟨not_or.mpr ⟨fun hold => hno (howes.mpr hold), hmissed⟩, fun hne => absurd rfl hne⟩

theorem untouched_refl (w : World) : Untouched w w := refl w

theorem untouched_tampered (p : Proxy) (net : Netfilter) :
    Untouched p.world ⟨p.manager.db, p.net.tampered net⟩ := by
  refine ⟨rfl, fun c hc => ?_⟩
  show ((p.net.tampered net).table c).getD [] = _
  unfold Netfilter.tampered
  simp only [if_pos hc.1]
  rfl

theorem untouched_exec {argv : Argv} (h : Spares argv) :
    Untouched p.world ⟨p.manager.db, (p.world.exec argv).2.net⟩ := ⟨rfl, fun c hc => h p.world c hc⟩

/-- A call, as the worker goes on after it. -/
theorem world_exec (p : Proxy) (argv : Argv) : (⟨p.manager.db, (p.world.exec argv).2.net⟩ : World) =
    (p.world.exec argv).2 := by
  unfold World.exec
  split <;> rfl

theorem view_access (hp : p.Sound) : (scheme shortHash).Step (p.view shortHash missed)
    ((p.step shortHash .access).view shortHash fun k => (machine shortHash).misses p .access k ∨ missed k) := by
  cases hjob : p.job with
  | none => exact view_idle (by simp only [step, hjob])
  | some staged =>
    obtain ⟨stage, job⟩ := staged
    cases job with
    | ret r => exact view_idle (by simp only [step, hjob])
    | read next =>
      have hstep : p.step shortHash .access = { p with job := some (stage, next p.world) } := by
        simp only [step, hjob]
      rw [hstep]
      exact view_job hjob rfl (fun _ => refl p.world) fun hsettles => hsettles p.world (untouched_refl p.world)
    | write argv next =>
      obtain ⟨seen, hwp⟩ := hp.calls stage _ hjob
      have hstep : p.step shortHash .access =
          { p with net := (p.world.exec argv).2.net, job := some (stage, next (p.world.exec argv).1) } := by
        simp only [step, hjob]
      rw [hstep]
      refine view_job hjob rfl (fun hsetUp => untouched_exec (hwp.1.2 hsetUp)) fun hsettles => ?_
      show (scheme shortHash).Settles () _ ⟨p.manager.db, (p.world.exec argv).2.net⟩
      rw [world_exec]
      exact (hsettles p.world (untouched_refl p.world)).1 fun hno => hno

theorem view_fail (hp : p.Sound) (e : CallError) (done : Bool) :
    (scheme shortHash).Step (p.view shortHash missed) ((p.step shortHash (.fail e done)).view shortHash
      fun k => (machine shortHash).misses p (.fail e done) k ∨ missed k) := by
  cases hjob : p.job with
  | none => exact view_idle (by simp only [step, hjob])
  | some staged =>
    obtain ⟨stage, job⟩ := staged
    cases job with
    | ret r => exact view_idle (by simp only [step, hjob])
    | read next => exact view_idle (by simp only [step, hjob])
    | write argv next =>
      obtain ⟨seen, hwp⟩ := hp.calls stage _ hjob
      have hstep : p.step shortHash (.fail e done) =
          { p with
            net := if done then (p.world.exec argv).2.net else p.net
            job := some (stage, next (.error e)) } := by
        simp only [step, hjob]
      rw [hstep]
      cases done with
      | true =>
        refine view_job hjob rfl (fun hsetUp => untouched_exec (hwp.1.2 hsetUp)) fun hsettles => ?_
        show (scheme shortHash).Settles () _ ⟨p.manager.db, (p.world.exec argv).2.net⟩
        rw [world_exec]
        exact ((hsettles p.world (untouched_refl p.world)).2 e).2 fun hno => hno
      | false =>
        exact view_job hjob rfl (fun _ => refl p.world) fun hsettles =>
          ((hsettles p.world (untouched_refl p.world)).2 e).1 fun hno => hno

theorem view_get : (scheme shortHash).Step (p.view shortHash missed)
    ((p.step shortHash .get).view shortHash fun k => (machine shortHash).misses p .get k ∨ missed k) := by
  cases hjob : p.job with
  | some staged => exact view_idle (by simp only [step, hjob])
  | none =>
    cases hget : p.manager.queue.tryGet with
    | mk o queue =>
      cases o with
      | none => exact view_idle (by simp only [step, hjob, hget])
      | some key =>
        have hstep : p.step shortHash .get = { p with
            manager := { p.manager with queue := queue }, job := some (.sync, (Script.sync shortHash).run) } := by
          simp only [step, hjob, hget]
        rw [hstep]
        have hidle : p.syncing = none := by
          unfold syncing
          rw [hjob]
        refine .take () (Script.sync shortHash).run hidle rfl rfl ?_ fun u _ hne => absurd rfl hne
        exact Proc.under_mono (fun w r hr a ha => not_not_intro (hr a ha)) (establishes_sync shortHash p.world)

theorem view_finish : (scheme shortHash).Step (p.view shortHash missed)
    ((p.step shortHash .finish).view shortHash fun k => (machine shortHash).misses p .finish k ∨ missed k) := by
  cases hjob : p.job with
  | none => exact view_idle (by simp only [step, hjob])
  | some staged =>
    obtain ⟨stage, job⟩ := staged
    cases job with
    | read next =>
      refine view_idle ?_
      cases stage <;> simp only [step, hjob]
    | write argv next =>
      refine view_idle ?_
      cases stage <;> simp only [step, hjob]
    | ret r =>
      cases stage with
      | setUp =>
        have hstep : p.step shortHash .finish = { p with job := none } := by simp only [step, hjob]
        rw [hstep]
        refine view_other ?_ fun hno _ => ⟨refl p.world, hno⟩
        unfold syncing
        rw [hjob]
      | sync =>
        have hstep : p.step shortHash .finish = p.synced r := by simp only [step, hjob]
        rw [hstep]
        obtain ⟨-, hdb⟩ := p.manager.finish_frame syncKey
          (r.mapError fun _ => ClientError.bail "iptables sync failed; retrying after backoff")
        refine .finish () r (syncing_eq_some.mpr hjob) rfl (congrArg (World.mk · p.net) hdb) ?_ fun u hu => ?_
        · rintro e rfl
          refine .inl (.inr (.inl ⟨backoffFor (p.manager.limiter.failure syncKey).1, ?_⟩))
          exact List.mem_append_right _ List.mem_cons_self
        · obtain ⟨howes, -, hmissed⟩ := not_pending hu
          exact not_or.mpr ⟨fun hold => howes (Manager.Owes.finish hold), hmissed⟩

theorem view_crash : (scheme shortHash).Step (p.view shortHash missed)
    ((p.step shortHash .crash).view shortHash fun k => (machine shortHash).misses p .crash k ∨ missed k) := by
  refine .crash rfl rfl (fun u job hjob => ?_) fun u hu => ?_
  · exact .inr (.inl (.inr ⟨job, syncing_eq_some.mp hjob⟩))
  · obtain ⟨-, hmisses, hmissed⟩ := not_pending hu
    exact not_or.mpr ⟨fun hold => hmisses (.inl hold), hmissed⟩

theorem view_write (w : Write) : (scheme shortHash).Step (p.view shortHash missed)
    ((p.step shortHash (.write w)).view shortHash fun k => (machine shortHash).misses p (.write w) k ∨ missed k) := by
  refine view_other rfl fun howes hmisses => ?_
  obtain ⟨hold, hrely⟩ := @Manager.keeps_write _ _ listing p.manager syncKey _ w (fun _ _ _ h => h) howes hmisses
  exact ⟨⟨hrely, fun _ _ => rfl⟩, hold⟩

/-- **What one act does** is a step of the library. -/
theorem view_step (hp : p.Sound) (act : ProxyAct) : (scheme shortHash).Step (p.view shortHash missed)
    ((p.step shortHash act).view shortHash fun k => (machine shortHash).misses p act k ∨ missed k) := by
  cases act with
  | write w => exact view_write w
  | tamper net => exact view_other rfl fun hno _ => ⟨untouched_tampered p net, hno⟩
  | connect i =>
    refine view_inform ?_ fun hold => .inl (Manager.owes_connect i hold)
    simp only [Manager.step]
    split <;> rfl
  | poll i => exact view_inform rfl fun hold => .inl (Manager.owes_poll i hold)
  | disconnect i => exact view_inform rfl fun hold => Manager.owes_disconnect (P := listing) i hold
  | handle i =>
    refine view_inform ?_ fun hold => ?_
    · simp only [Manager.step]
      split <;> rfl
    · rcases Manager.owes_handle (P := listing) hold with howes | ⟨hasks, -⟩
      · exact .inl howes
      · cases hasks
  | resync => exact view_inform rfl fun hold => .inl (Manager.owes_resync hold)
  | fire n =>
    refine view_inform ?_ fun hold => .inl (Manager.owes_fire n hold)
    simp only [Manager.step]
    split <;> rfl
  | get => exact view_get
  | access => exact view_access hp
  | fail e done => exact view_fail hp e done
  | unreachable e =>
    cases hjob : p.job with
    | none => exact view_idle (by simp only [step, hjob])
    | some staged =>
      obtain ⟨stage, job⟩ := staged
      cases job with
      | ret r => exact view_idle (by simp only [step, hjob])
      | write argv next => exact view_idle (by simp only [step, hjob])
      | read next =>
        have hstep : p.step shortHash (.unreachable e) = { p with job := some (stage, .ret (.error (.list e))) } := by
          simp only [step, hjob]
        rw [hstep]
        refine view_job hjob rfl (fun _ => refl p.world) fun _ => ?_
        rintro w - a ⟨⟩
  | finish => exact view_finish
  | crash => exact view_crash

/-! ## What is kept -/

theorem Marked.grown {n n' : Netfilter} (h : Marked n.table) (hgrown : Grown n n') : Marked n'.table := by
  intro r hr
  obtain ⟨k, hk⟩ := hgrown.masq
  rw [hk] at hr
  rcases List.mem_append.mp hr with hr | hr
  · exact h r hr
  · rw [(List.mem_replicate.mp hr).2]
    exact ⟨rfl, rfl⟩

theorem sound_start {db : Db} {net : Netfilter} (hdb : WellFormed db) (hmarked : Marked net.table) :
    (start db net).Sound := by
  refine ⟨hdb, hmarked, fun stage job hjob => ?_⟩
  cases Option.some.inj hjob
  refine ⟨[], Proc.wp_mono (fun _ argv h => ?_) (fun _ _ _ => trivial) writes_ensureBaseChains⟩
  exact ⟨h.1, fun _ => h.2⟩

/-- Nothing is done but by the informers and the queue. -/
theorem Sound.congr (hp : p.Sound) (hdb : WellFormed p'.manager.db) (hnet : p'.net = p.net)
    (hjob : p'.job = p.job ∨ p'.job = none) : p'.Sound := by
  refine ⟨hdb, hnet ▸ hp.marked, fun stage job h => ?_⟩
  rcases hjob with hjob | hjob
  · exact hp.calls stage job (hjob ▸ h)
  · rw [hjob] at h
    cases h

theorem Sound.inform (hp : p.Sound) {mact : ManagerAct Feed} (hdb : (p.manager.step mact).db = p.manager.db) :
    (p.inform mact).Sound := by
  unfold Proxy.inform
  split
  · exact hp
  · exact hp.congr (by rw [hdb]; exact hp.db) rfl (.inl rfl)

/-- What is being done goes on. -/
theorem Sound.goesOn (hp : p.Sound) {stage : Stage} (seen : List World) (hdb : p'.manager.db = p.manager.db)
    (hgrown : Grown p.net p'.net) (hjob : p'.job = some (stage, job))
    (hwp : Proc.wp (fun _ argv => Makes argv ∧ (stage = .setUp → Spares argv)) (fun _ _ => True) job seen) :
    p'.Sound := by
  refine ⟨hdb ▸ hp.db, Marked.grown hp.marked hgrown, fun stage' job' h => ?_⟩
  cases Option.some.inj (hjob.symm.trans h)
  exact ⟨seen, hwp⟩

/-- **kube-proxy leaves the rest alone**, and stays sound. -/
theorem Sound.step (hp : p.Sound) (act : ProxyAct) :
    (p.step shortHash act).Sound ∧ ((∀ net, act ≠ .tamper net) → Grown p.net (p.step shortHash act).net) := by
  have hsame : ∀ {p' : Proxy}, p'.Sound → p'.net = p.net → p'.Sound ∧ ((∀ net, act ≠ .tamper net) →
      Grown p.net p'.net) := fun hp' hnet => ⟨hp', fun _ => hnet ▸ Grown.refl _⟩
  have hnet : ∀ mact, (p.inform mact).net = p.net := by
    intro mact
    unfold Proxy.inform
    split <;> rfl
  cases act with
  | write w => exact hsame (hp.congr (hp.db.write w) rfl (.inl rfl)) rfl
  | tamper net =>
    refine ⟨⟨hp.db, fun r hr => hp.marked r ?_, hp.calls⟩, fun hno => absurd rfl (hno net)⟩
    have hrules : (p.net.tampered net).table.rules kubeMarkMasq = p.net.table.rules kubeMarkMasq := by
      unfold Netfilter.tampered Table.rules
      simp only [if_pos ours_masq]
    exact hrules ▸ hr
  | connect i =>
    refine hsame (hp.inform ?_) (hnet _)
    simp only [Manager.step]
    split <;> rfl
  | poll i => exact hsame (hp.inform rfl) (hnet _)
  | disconnect i => exact hsame (hp.inform rfl) (hnet _)
  | handle i =>
    refine hsame (hp.inform ?_) (hnet _)
    simp only [Manager.step]
    split <;> rfl
  | resync => exact hsame (hp.inform rfl) (hnet _)
  | fire n =>
    refine hsame (hp.inform ?_) (hnet _)
    simp only [Manager.step]
    split <;> rfl
  | get =>
    simp only [Proxy.step]
    split
    · refine hsame (hp.goesOn [] rfl (Grown.refl _) rfl ?_) rfl
      refine Proc.wp_mono (fun _ argv h => ?_) (fun _ _ _ => trivial) (writes_sync shortHash)
      exact ⟨h, fun hno => by cases hno⟩
    · exact hsame hp rfl
  | access =>
    simp only [Proxy.step]
    split
    · rename_i stage next hjob
      obtain ⟨seen, hwp⟩ := hp.calls stage _ hjob
      exact hsame (hp.goesOn _ rfl (Grown.refl _) rfl (hwp p.world)) rfl
    · rename_i stage argv next hjob
      obtain ⟨seen, hwp⟩ := hp.calls stage _ hjob
      have hgrown := hwp.1.1.grown p.world
      exact ⟨hp.goesOn _ rfl hgrown rfl (hwp.2 _), fun _ => hgrown⟩
    · exact hsame hp rfl
  | fail e done =>
    simp only [Proxy.step]
    split
    · rename_i stage argv next hjob
      obtain ⟨seen, hwp⟩ := hp.calls stage _ hjob
      have hgrown : Grown p.net (if done then (p.world.exec argv).2.net else p.net) := by
        split
        · exact hwp.1.1.grown p.world
        · exact Grown.refl _
      exact ⟨hp.goesOn _ rfl hgrown rfl (hwp.2 _), fun _ => hgrown⟩
    · exact hsame hp rfl
  | unreachable e =>
    simp only [Proxy.step]
    split
    · exact hsame (hp.goesOn [] rfl (Grown.refl _) rfl trivial) rfl
    · exact hsame hp rfl
  | finish =>
    simp only [Proxy.step]
    split
    · exact hsame (hp.congr hp.db rfl (.inr rfl)) rfl
    · rename_i r _
      refine hsame (hp.congr ?_ rfl (.inr rfl)) rfl
      have hdb := (p.manager.finish_frame syncKey
        (r.mapError fun _ => ClientError.bail "iptables sync failed; retrying after backoff")).2
      show WellFormed (p.manager.finish syncKey _).db
      rw [hdb]
      exact hp.db
    · exact hsame hp rfl
  | crash => exact hsame (sound_start hp.db hp.marked) rfl

end Steps

/-! ## Runs -/

section Runs

variable {shortHash : String → String} {db : Db} {net : Netfilter}

/-- Along every run. -/
theorem inv_run (hdb : WellFormed db) (hmarked : Marked net.table) (acts : List ProxyAct) :
    ((start db net).run shortHash acts).Sound ∧
      (scheme shortHash).Inv (((start db net).run shortHash acts).view shortHash
        fun _ => (start db net).Missed shortHash acts) := by
  have hpre : ∀ k, IsPreorder World ((scheme shortHash).rely k) :=
    fun _ => inferInstanceAs (IsPreorder World Untouched)
  refine @Levels.Machine.inv_run _ _ _ _ _ _ _ _ (machine shortHash) (scheme shortHash) Sound world syncing
    (start db net) hpre (fun p act hp => (hp.step act).1) (fun p act missed hp => view_step hp act) ?_
    (sound_start hdb hmarked) rfl ?_ acts
  · exact fun _ w w' hw hout hlaid => hout (Laid.untouched hlaid hw)
  · exact fun _ => Manager.not_owes_start db

/-- A plan that is not laid is due, under way, or missed. -/
theorem laid_cases (hdb : WellFormed db) (hmarked : Marked net.table) (acts : List ProxyAct) :
    Laid shortHash ((start db net).run shortHash acts).net.table
        (lists ((start db net).run shortHash acts).manager.db) ∨
      ((start db net).run shortHash acts).Owes ∨ ((start db net).run shortHash acts).Syncing ∨
      (start db net).Missed shortHash acts := by
  by_cases hout : Laid shortHash ((start db net).run shortHash acts).net.table
      (lists ((start db net).run shortHash acts).manager.db)
  · exact .inl hout
  rcases (inv_run hdb hmarked acts).2.pending_or_working (k := ()) hout with (howes | hmissed) | ⟨job, hjob⟩
  · exact .inr (.inl howes)
  · exact .inr (.inr (.inr hmissed))
  · exact .inr (.inr (.inl ⟨job, syncing_eq_some.mp hjob⟩))

/-! ## Live streams -/

section Live

variable {p : Proxy} {act : ProxyAct}

theorem inform_cases {P : Manager informing → Prop} {mact : ManagerAct Feed} (h : P p.manager)
    (hstep : P (p.manager.step mact)) : P (p.inform mact).manager := by
  unfold inform
  split
  · exact h
  · exact hstep

theorem upToCounter_step (h : p.manager.UpToCounter) (act : ProxyAct) :
    (p.step shortHash act).manager.UpToCounter := by
  cases act with
  | write w => exact h.step (.write w)
  | tamper net => exact h
  | connect i => exact inform_cases h (h.step _)
  | poll i => exact inform_cases h (h.step _)
  | disconnect i => exact inform_cases h (h.step _)
  | handle i => exact inform_cases h (h.step _)
  | resync => exact inform_cases h (h.step _)
  | fire n => exact inform_cases h (h.step _)
  | get =>
    simp only [step]
    split
    · exact h.congr rfl rfl
    · exact h
  | access =>
    simp only [step]
    split <;> exact h
  | fail e done =>
    simp only [step]
    split <;> exact h
  | unreachable e =>
    simp only [step]
    split <;> exact h
  | finish =>
    simp only [step]
    split
    · exact h
    · rename_i r _
      cases r <;> exact h.congr rfl rfl
    · exact h
  | crash =>
    intro i s rv hs
    cases hs

theorem upToCounter_run (acts : List ProxyAct) : ((start db net).run shortHash acts).manager.UpToCounter := by
  induction acts using List.reverseRecOn with
  | nil =>
    intro i s rv hs
    cases hs
  | append_singleton acts act ih =>
    rw [run_concat]
    exact upToCounter_step ih act

/-- **A live stream misses nothing**: a write that changes the lists is heard. -/
theorem not_misses_write (hwf : WellFormed p.manager.db) (hcounter : p.manager.UpToCounter)
    (hlive : p.manager.Live) (hmax : currentRv p.manager.db < u64Max) (w : Write) : ¬ p.Misses (.write w) := by
  rintro ⟨hrely, hsilent⟩
  have hquiet : ∀ i : Feed, ∀ name,
      stored i.kind (w.step p.manager.db) name = stored i.kind p.manager.db name := by
    intro i
    rcases w.cases hwf i.kind with ⟨-, hsame⟩ | ⟨event, hevent, -⟩
    · exact hsame
    · obtain ⟨s, rv, hs, hphase⟩ := hlive i
      have hmem : event ∈ w.events i.kind p.manager.db := hevent ▸ List.mem_cons_self
      exact absurd List.mem_cons_self (hsilent i s hs event hmem (hcounter.hears hwf hmax hs hphase hmem))
  refine hrely (Prod.ext ?_ ?_)
  · exact hwf.listed_eq (hwf.write w) (hquiet .services)
  · exact hwf.listed_eq (hwf.write w) (hquiet .endpoints)

/-- kube-proxy goes on, no stream ends, and what changes the lists is heard by live streams. -/
def Calm (p : Proxy) : ProxyAct → Prop
  | .write w => lists (w.step p.manager.db) = lists p.manager.db ∨
    p.manager.Live ∧ currentRv p.manager.db < u64Max
  | .disconnect _ => False
  | .crash => False
  | _ => True

theorem Calm.not_misses (h : Calm p act) (hwf : WellFormed p.manager.db) (hcounter : p.manager.UpToCounter) :
    ¬ p.Misses act := by
  cases act with
  | write w =>
    rcases h with hsame | ⟨hlive, hmax⟩
    · exact fun hmisses => hmisses.1 hsame
    · exact not_misses_write hwf hcounter hlive hmax w
  | disconnect i => exact absurd h not_false
  | crash => exact absurd h not_false
  | _ => exact not_false

end Live

end Runs

end Proxy

/-! ## What packets find -/

/-- Services have addresses of their own, and chains have names of their own. -/
structure Apart (shortHash : String → String) (objs : List Service × List Endpoints) : Prop where
  vips : objs.1.Pairwise fun s s' => ∀ v, vip s = some v → vip s' ≠ some v
  chains : Set.InjOn (chainName shortHash) {k | k ∈ chainKeys objs.1 objs.2}

/-- A packet for a service with endpoints goes to each of them with the same chance, and all others go on. -/
def Balanced (t : NatTable) (objs : List Service × List Endpoints) : Prop := ∀ (packet : Packet) (depth : ℕ),
  (∀ svc ∈ objs.1, Routed objs.2 svc packet →
    walk Match.holds packet t (depth + 4) kubeServices = shares (addrsOf objs.2 svc)) ∧
  ((∀ svc ∈ objs.1, ¬ Routed objs.2 svc packet) →
    walk Match.holds packet t (depth + 4) kubeServices = [(1, none)])

theorem Laid.balanced {shortHash : String → String} {t : NatTable} {objs : List Service × List Endpoints}
    (h : Laid shortHash t objs) (hmarked : Marked t) (hapart : Apart shortHash objs) : Balanced t objs :=
  fun _ depth => h.walk hmarked hapart.vips hapart.chains depth

/-- **No change is forgotten.** In every run of kube-proxy, with calls that fail, restarts, and others that write to
the server and to their own chains at any time: packets find what the server lists, or a sync is due, under way, or
missed and not due since. -/
theorem packets_pending (shortHash : String → String) {db : Db} {net : Netfilter} (hdb : WellFormed db)
    (hmarked : Marked net.table) (acts : List ProxyAct)
    (hapart : Apart shortHash (lists ((Proxy.start db net).run shortHash acts).manager.db)) :
    Balanced ((Proxy.start db net).run shortHash acts).net.table
        (lists ((Proxy.start db net).run shortHash acts).manager.db) ∨
      ((Proxy.start db net).run shortHash acts).Owes ∨ ((Proxy.start db net).run shortHash acts).Syncing ∨
      (Proxy.start db net).Missed shortHash acts := by
  have hsound : ((Proxy.start db net).run shortHash acts).Sound := (Proxy.inv_run hdb hmarked acts).1
  exact (Proxy.laid_cases hdb hmarked acts).imp_left fun hlaid => hlaid.balanced hsound.marked hapart

theorem apart_of_single {shortHash : String → String} {objs : List Service × List Endpoints}
    (hone : objs.1.length = 1) (hall : ∀ k ∈ chainKeys objs.1 objs.2, ∀ k' ∈ chainKeys objs.1 objs.2,
      chainName shortHash k = chainName shortHash k' → k = k') : Apart shortHash objs := by
  refine ⟨?_, fun k hk k' hk' heq => hall k hk k' hk' heq⟩
  obtain ⟨svc, hsvc⟩ := List.length_eq_one_iff.mp hone
  rw [hsvc]
  exact List.pairwise_singleton _ _

/-- A service with three endpoints. -/
def webDb : Db := dbAfter
  [(⟨.service, .createPrestamped webService⟩, .none), (⟨.endpoints, .createPrestamped webEndpoints⟩, .none)]

theorem wellFormed_webDb : WellFormed webDb := by
  refine WellFormed.empty.foldl fun call hcall => ?_
  simp only [List.mem_cons, List.not_mem_nil, or_false] at hcall
  rcases hcall with rfl | rfl <;> trivial

/-- The built-in chains, without rules. -/
def freshNet : Netfilter := ⟨fun c => if c = "PREROUTING" ∨ c = "OUTPUT" then some [] else none, []⟩

theorem marked_freshNet : Marked freshNet.table := by
  intro r hr
  have hnone : freshNet.table.rules kubeMarkMasq = [] := by decide
  rw [hnone] at hr
  cases hr

/-- The base chains are set up, and the first resync is due. -/
def starting : List ProxyAct := List.replicate 9 .access ++ [.finish, .resync]

/-- The eighth call of the sync fails, and the sync waits for its delay. -/
def interrupted : List ProxyAct :=
  starting ++ .get :: List.replicate 7 .access ++ [.fail .status false, .finish]

theorem packets_pending_web :
    (Balanced ((Proxy.start webDb freshNet).run webHash interrupted).net.table
        (lists ((Proxy.start webDb freshNet).run webHash interrupted).manager.db) ∨
      ((Proxy.start webDb freshNet).run webHash interrupted).Owes ∨
      ((Proxy.start webDb freshNet).run webHash interrupted).Syncing ∨
      (Proxy.start webDb freshNet).Missed webHash interrupted) ∧
    ((Proxy.start webDb freshNet).run webHash interrupted).manager.timers = [(syncKey, 500)] ∧
    (((Proxy.start webDb freshNet).run webHash interrupted).net.table kubeServices).isSome = true :=
  ⟨packets_pending webHash wellFormed_webDb marked_freshNet interrupted
    (apart_of_single (by decide +kernel) (by decide +kernel)), by decide +kernel, by decide +kernel⟩

/-- **Packets are served.** Once a sync is due, and from then on kube-proxy goes on and no stream ends: when no sync
is due or under way any more, packets find what the server lists. -/
theorem packets_settle (shortHash : String → String) {db : Db} {net : Netfilter} (hdb : WellFormed db)
    (hmarked : Marked net.table) {past rest : List ProxyAct}
    (hdue : ((Proxy.start db net).run shortHash past).Owes)
    (hcalm : ∀ mid act, mid ++ [act] <+: rest → Proxy.Calm ((Proxy.start db net).run shortHash (past ++ mid)) act)
    (howes : ¬ ((Proxy.start db net).run shortHash (past ++ rest)).Owes)
    (hsyncing : ¬ ((Proxy.start db net).run shortHash (past ++ rest)).Syncing)
    (hapart : Apart shortHash (lists ((Proxy.start db net).run shortHash (past ++ rest)).manager.db)) :
    Balanced ((Proxy.start db net).run shortHash (past ++ rest)).net.table
      (lists ((Proxy.start db net).run shortHash (past ++ rest)).manager.db) := by
  have hsound : ∀ acts, ((Proxy.start db net).run shortHash acts).Sound :=
    fun acts => (Proxy.inv_run hdb hmarked acts).1
  rcases @Proxy.laid_cases shortHash db net hdb hmarked (past ++ rest) with hlaid | hno | hno | hmissed
  · exact hlaid.balanced (hsound _).marked hapart
  · exact absurd hno howes
  · exact absurd hno hsyncing
  · rcases Levels.Machine.missed_append hmissed with hno | ⟨mid, act, hmid, hmisses⟩
    · exact absurd hdue hno
    · exact absurd hmisses ((hcalm mid act hmid).not_misses (hsound _).db (Proxy.upToCounter_run _))

/-- One call fails, and the sync comes again after its delay. -/
def retrying : List ProxyAct :=
  .get :: List.replicate 7 .access ++ [.fail .status false, .finish, .fire 0, .get] ++
    List.replicate 21 .access ++ [.finish]

theorem packets_settle_web :
    Balanced ((Proxy.start webDb freshNet).run webHash (starting ++ retrying)).net.table
      (lists ((Proxy.start webDb freshNet).run webHash (starting ++ retrying)).manager.db) := by
  refine packets_settle webHash wellFormed_webDb marked_freshNet (.inl (by decide +kernel)) ?_ ?_ ?_
    (apart_of_single (by decide +kernel) (by decide +kernel))
  · intro mid act hmid
    have hact : act ∈ retrying := hmid.subset (by simp)
    have hcalm : ∀ act ∈ retrying, act = .get ∨ act = .access ∨ act = .fail .status false ∨ act = .finish ∨
        act = .fire 0 := by
      intro act hact
      simp only [retrying, List.cons_append, List.mem_cons, List.mem_append, List.mem_replicate,
        List.not_mem_nil, or_false] at hact
      tauto
    rcases hcalm act hact with rfl | rfl | rfl | rfl | rfl <;> trivial
  · rintro (hdirty | ⟨delay, htimer⟩ | ⟨i, s, hs, -⟩)
    · revert hdirty
      decide +kernel
    · have hnone : ((Proxy.start webDb freshNet).run webHash (starting ++ retrying)).manager.timers = [] := by
        decide +kernel
      rw [hnone] at htimer
      cases htimer
    · have hnone : (((Proxy.start webDb freshNet).run webHash (starting ++ retrying)).manager.feeds i).isNone := by
        cases i <;> decide +kernel
      rw [hs] at hnone
      cases hnone
  · rintro ⟨job, hjob⟩
    have hidle : ((Proxy.start webDb freshNet).run webHash (starting ++ retrying)).job.isNone = true := by
      decide +kernel
    rw [hjob] at hidle
    cases hidle

end MyK8s.KubeProxy
