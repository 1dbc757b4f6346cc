import MyK8s.ApiServer.Alone
import MyK8s.ApiServer.Listing
import MyK8s.ApiServer.Versions
import MyK8s.Kubelet.Trackers

/-!
# Where statuses land

One kubelet and an API server that others write to. The statuses of a liveness tick are pushed one after the
other, request by request, and anything may happen on the server in between. The first attempt of a push goes
under the version of the cached object, which is the one that the status was computed from. After a conflict
the kubelet asks for the object of the name and writes to whatever it gets. `statuses_land`: a status lands
on the pod that it was computed from, and on one of the node, as long as each such answer is that pod, and
still on the node.
-/

namespace MyK8s.Kubelet

open Fallible
open ApiServer (Db ApiError Write WatchEvent WatchEventType Chronicle WellFormed stored listed currentRv)

/-! ## Requests of the kubelet -/

/-- `map_envelope`, from the status and the reason that the server answers with. -/
def clientError : ApiError → ClientError
  | .notFound _ => .notFound
  | .alreadyExists _ => .alreadyExists
  | .conflict current provided => .conflict s!"conflict: current rv {current}, provided {provided}"
  | .badRequest msg => .http 400 s!"bad request: {msg}"
  | .internal msg => .http 500 s!"internal: {msg}"
  | .redirect url => .other s!"redirect to {url}"

/-- `get_pod`, for a name that the URL carries as it is. -/
def getPod (name : PodName) (db : Db) : Except ClientError (Option Pod) :=
  match ((ApiServer.Handlers.get .pod name).alone db).1 with
  | .ok (pod : Pod) => .ok (some pod)
  | .error (.notFound _) => .ok none
  | .error e => .error (clientError e)

/-- `replace_pod_status`, for a name that the URL carries as it is. -/
def replacePodStatus (name : PodName) (status : PodStatus) (rv : String) (db : Db) :
    Except ClientError Pod × Db :=
  let (answer, db') := (ApiServer.Handlers.replacePodStatus name (some rv) status).alone db
  (answer.mapError clientError, db')

/-! ## The system -/

/-- A status that is to be pushed, with the object that it was computed from. -/
structure Push where
  name : PodName
  status : PodStatus
  pod : Pod

/-- How far the push has come, with the text of the conflict and what has been fetched after it. -/
inductive Stage
  | first
  | refetch (conflict : String)
  | retry (conflict : String) (latest : Pod)

/-- The server, and the kubelet with the pushes that are left of its last tick. -/
structure Reporting (ρ : Type) where
  now : Db
  past : List Db
  kubelet : Reconciler ρ
  pushes : List Push
  stage : Stage
  /-- The writes of the kubelet that have taken effect, with the objects that they have met. -/
  landed : List (Push × Pod)

/-- What becomes of a request. It may get lost, and its answer may, and the kubelet sees an error then. -/
inductive Fate
  | answered
  | lost (e : ClientError) (carriedOut : Bool)

/-- What happens next. The server may answer a read from a store of some time ago. -/
inductive ReportAct
  | other (w : Write)
  | watch (type : WatchEventType) (name : PodName) (lag : ℕ)
  | resync (desired : PodMap) (names : List PodName) (lag : ℕ)
  | tick (names : List PodName)
  /-- The next request of the push under way. -/
  | push (lag : ℕ) (fate : Fate)

namespace Reporting

variable {ρ : Type} (host : Host ρ) (node : String)

/-- The store of some time ago. -/
def storeAt (s : Reporting ρ) (lag : ℕ) : Db := (s.now :: s.past)[lag]?.getD s.now

def start (db : Db) (kubelet : Reconciler ρ) : Reporting ρ := ⟨db, [], kubelet, [], .first, []⟩

/-- The push is over. -/
def finish (s : Reporting ρ) (push : Push) (answers : PushAnswers) : Reporting ρ :=
  { s with
    kubelet := left (Reconciler.pushStatus push.name push.status answers s.kubelet)
    pushes := s.pushes.tail
    stage := .first }

/-- The object that the write of a status meets, if it takes effect. -/
def met (s : Reporting ρ) (push : Push) (rv : String) : Option Pod :=
  match (replacePodStatus push.name push.status rv s.now).1 with
  | .ok _ => stored .pod s.now push.name
  | .error _ => none

/-- The server, once it has handled the write. -/
def carriedOut (s : Reporting ρ) (push : Push) (rv : String) : Reporting ρ :=
  { s with
    now := (replacePodStatus push.name push.status rv s.now).2
    past := s.now :: s.past
    landed := s.landed ++ (s.met push rv).toList.map fun pod => (push, pod) }

/-- A status is written under the version. -/
def put (s : Reporting ρ) (push : Push) (rv : String) : Fate → Except ClientError Pod × Reporting ρ
  | .answered => ((replacePodStatus push.name push.status rv s.now).1, s.carriedOut push rv)
  | .lost e true => (.error e, s.carriedOut push rv)
  | .lost e false => (.error e, s)

/-- An answer that is not waited for. -/
def unasked : ClientError := .other ""

/-- The next request of `push_status`. -/
def request (s : Reporting ρ) (push : Push) (lag : ℕ) (fate : Fate) : Reporting ρ :=
  match s.stage with
  | .first =>
    match (s.kubelet.cache push.name).bind fun pod => pod.metadata.resourceVersion with
    | none => s.finish push ⟨.error unasked, .error unasked, .error unasked⟩
    | some rv =>
      let (replaced, s) := s.put push rv fate
      match replaced with
      | .error (.conflict conflict) => { s with stage := .refetch conflict }
      | _ => s.finish push ⟨replaced, .error unasked, .error unasked⟩
  | .refetch conflict =>
    let latest := match fate with
      | .answered => getPod push.name (s.storeAt lag)
      | .lost e _ => .error e
    match latest with
    | .ok (some pod) =>
      if pod.metadata.resourceVersion.isSome then { s with stage := .retry conflict pod }
      else s.finish push ⟨.error (.conflict conflict), latest, .error unasked⟩
    | _ => s.finish push ⟨.error (.conflict conflict), latest, .error unasked⟩
  | .retry conflict latest =>
    let (retried, s) := s.put push (latest.metadata.resourceVersion.getD "") fate
    s.finish push ⟨.error (.conflict conflict), .ok (some latest), retried⟩

/-- The arms of the loop of the kubelet run to their end, so nothing but others' writes comes between the
requests of a push, and between the pushes of a tick. -/
def step (s : Reporting ρ) : ReportAct → Reporting ρ
  | .other w => { s with now := w.step s.now, past := s.now :: s.past }
  | .watch type name lag =>
    match s.pushes, stored .pod (s.storeAt lag) name with
    | [], some (pod : Pod) =>
      if pod.spec.nodeName = some node then
        { s with kubelet := Reconciler.applyWatchEvent host ⟨type, pod⟩ s.kubelet }
      else s
    | _, _ => s
  | .resync desired names lag =>
    match s.pushes with
    | [] =>
      if desired.pods.Perm ((listed .pod (s.storeAt lag) : List Pod).filter
          fun pod => pod.spec.nodeName = some node) then
        { s with kubelet := Reconciler.resync host desired names s.kubelet }
      else s
    | _ => s
  | .tick names =>
    match s.pushes with
    | [] =>
      let (dirty, kubelet) := Reconciler.tickLiveness host names s.kubelet
      { s with
        kubelet := kubelet
        pushes := dirty.filterMap fun (name, status) =>
          (s.kubelet.cache name).map fun pod => ⟨name, status, pod⟩
        stage := .first }
    | _ => s
  | .push lag fate =>
    match s.pushes with
    | [] => s
    | push :: _ => s.request push lag fate

def run (s : Reporting ρ) (acts : List ReportAct) : Reporting ρ := acts.foldl (step host node) s

/-! ## What is seen of the server -/

variable {host : Host ρ} {node : String} {s s' : Reporting ρ} {push : Push} {fate : Fate} {lag : ℕ} {rv : String}

/-- The object has been stored under the name, with the node. -/
def Seen (node : String) (s : Reporting ρ) (name : PodName) (pod : Pod) : Prop :=
  ∃ db ∈ s.now :: s.past, stored .pod db name = some pod ∧ pod.spec.nodeName = some node

theorem storeAt_mem (s : Reporting ρ) (lag : ℕ) : s.storeAt lag ∈ s.now :: s.past := by
  unfold storeAt
  cases h : (s.now :: s.past)[lag]? with
  | none => exact List.mem_cons_self
  | some db => exact List.mem_of_getElem? h

/-- A write of a status, as the store sees it. -/
def statusWrite (name : PodName) (status : PodStatus) (rv : String) : Write :=
  ⟨⟨.pod, (ApiServer.ApiOp.replaceStatus name rv status : ApiServer.ApiOp .pod).storeOp⟩,
    fun obj => congrArg ObjectMeta.name (ApiServer.Kind.getMeta_setStatus .pod status obj)⟩

theorem replacePodStatus_snd (name : PodName) (status : PodStatus) (rv : String) (db : Db) :
    (replacePodStatus name status rv db).2 = (statusWrite name status rv).step db := rfl

/-- A write that succeeds has met an object with the version, and has kept all but its status. -/
theorem replacePodStatus_ok {name : PodName} {status : PodStatus} {db : Db} {updated : Pod}
    (hwf : WellFormed db) (h : (replacePodStatus name status rv db).1 = .ok updated) :
    ∃ base : Pod, stored .pod db name = some base ∧ base.metadata.resourceVersion = some rv ∧
      updated.metadata.uid = base.metadata.uid ∧ updated.spec = base.spec ∧
      stored .pod (replacePodStatus name status rv db).2 name = some updated := by
  have hmapped : (ApiServer.ApiCall.exec ⟨.pod, .replaceStatus name rv status⟩ db).1.mapError clientError =
    .ok updated := h
  have hexec : ApiServer.ApiCall.exec ⟨.pod, .replaceStatus name rv status⟩ db =
      (.ok updated, (replacePodStatus name status rv db).2) := by
    refine Prod.ext ?_ rfl
    cases hanswer : (ApiServer.ApiCall.exec ⟨.pod, .replaceStatus name rv status⟩ db).1 with
    | ok obj =>
      rw [hanswer] at hmapped
      cases hmapped
      rfl
    | error e =>
      rw [hanswer] at hmapped
      cases hmapped
  obtain ⟨base, hstarts, heq, hdb⟩ := ApiServer.ApiCall.startsFrom_of_exec hexec
  have hbase : stored .pod db name = some base := ApiServer.stored_eq_some_iff.mpr hstarts.1
  refine ⟨base, hbase, ?_, ?_, ?_, ?_⟩
  · exact (hwf.resourceVersion_eq hbase).trans hstarts.2.symm
  · rw [heq]
    rfl
  · rw [heq]
    rfl
  · rw [hdb, heq]
    exact (hstarts.stored_step name).trans (if_pos rfl)

theorem getPod_ok {name : PodName} {db : Db} {pod : Pod} (hwf : WellFormed db)
    (h : getPod name db = .ok (some pod)) : stored .pod db name = some pod := by
  have hget := congrArg Prod.fst (ApiServer.Handlers.alone_get hwf .pod name)
  unfold getPod at h
  rw [hget] at h
  cases hstored : stored .pod db name with
  | none =>
    rw [hstored] at h
    cases h
  | some obj =>
    rw [hstored] at h
    cases h
    rfl

/-- What the write has met is the pod that the status was computed from, and on the node. -/
def Lands (node : String) (l : Push × Pod) : Prop :=
  l.2.metadata.uid = l.1.pod.metadata.uid ∧ l.2.spec.nodeName = some node

instance (node : String) (l : Push × Pod) : Decidable (Lands node l) := inferInstanceAs (Decidable (_ ∧ _))

/-- The server has gone on, and the kubelet is where it was. -/
structure Later (s s' : Reporting ρ) : Prop where
  chronicle : Chronicle .pod s'.now s'.past
  states : ∀ db ∈ s.now :: s.past, db ∈ s'.now :: s'.past
  kubelet : s'.kubelet = s.kubelet
  pushes : s'.pushes = s.pushes
  stage : s'.stage = s.stage

theorem Later.refl (h : Chronicle .pod s.now s.past) : Later s s := ⟨h, fun _ hdb => hdb, rfl, rfl, rfl⟩

theorem Later.write (h : Chronicle .pod s.now s.past) (w : Write)
    (hlt : currentRv (w.step s.now) < ApiServer.u64Max) {landed : List (Push × Pod)} :
    Later s { s with now := w.step s.now, past := s.now :: s.past, landed := landed } :=
  ⟨h.write w hlt, fun _ hdb => List.mem_cons_of_mem _ hdb, rfl, rfl, rfl⟩

theorem Seen.later {name : PodName} {pod : Pod} (h : Seen node s name pod) (hs : Later s s') :
    Seen node s' name pod := by
  obtain ⟨db, hdb, hstored⟩ := h
  exact ⟨db, hs.states db hdb, hstored⟩

/-- **A write of a status**, under the version of an object of the pod that has been seen on the node. It
lands there, if it lands. -/
theorem carriedOut_spec (h : Chronicle .pod s.now s.past) {copy : Pod} (hseen : Seen node s push.name copy)
    (hrv : copy.metadata.resourceVersion = some rv) (huid : copy.metadata.uid = push.pod.metadata.uid)
    (hlt : currentRv (s.carriedOut push rv).now < ApiServer.u64Max) :
    Later s (s.carriedOut push rv) ∧ (∀ l ∈ (s.carriedOut push rv).landed, l ∈ s.landed ∨ Lands node l) ∧
      ∀ updated, (replacePodStatus push.name push.status rv s.now).1 = .ok updated →
        Seen node (s.carriedOut push rv) push.name updated ∧ updated.metadata.uid = push.pod.metadata.uid := by
  obtain ⟨db, hdb, hcopy, hnode⟩ := hseen
  have hnow : s.now ∈ s.now :: s.past := List.mem_cons_self
  have hok : ∀ updated, (replacePodStatus push.name push.status rv s.now).1 = .ok updated →
      stored .pod s.now push.name = some copy ∧ updated.metadata.uid = push.pod.metadata.uid ∧
        updated.spec.nodeName = some node ∧
        stored .pod (replacePodStatus push.name push.status rv s.now).2 push.name = some updated := by
    intro updated hupdated
    obtain ⟨base, hstored, hversion, huid', hspec, hleft⟩ :=
      replacePodStatus_ok (h.wellFormed s.now hnow) hupdated
    -- what has the version is the copy
    obtain rfl : base = copy :=
      h.agree s.now hnow db hdb push.name base copy hstored hcopy (hversion.trans hrv.symm)
    exact ⟨hstored, huid'.trans huid, by rw [hspec, hnode], hleft⟩
  refine ⟨.write h (statusWrite push.name push.status rv) hlt, fun l hl => ?_, fun updated hupdated => ?_⟩
  · rcases List.mem_append.mp hl with hold | hnew
    · exact .inl hold
    · right
      obtain ⟨pod, hpod, rfl⟩ := List.mem_map.mp hnew
      rw [Option.mem_toList, met] at hpod
      split at hpod
      · rename_i updated hupdated
        obtain rfl : copy = pod := Option.some.inj ((hok updated hupdated).1.symm.trans hpod)
        exact ⟨huid, hnode⟩
      · cases hpod
  · obtain ⟨-, huid', hnode', hleft⟩ := hok updated hupdated
    exact ⟨⟨_, List.mem_cons_self, hleft, hnode'⟩, huid'⟩

/-- The same, whatever becomes of the answer. -/
theorem put_spec (h : Chronicle .pod s.now s.past) {copy : Pod} (hseen : Seen node s push.name copy)
    (hrv : copy.metadata.resourceVersion = some rv) (huid : copy.metadata.uid = push.pod.metadata.uid)
    (hlt : currentRv (s.put push rv fate).2.now < ApiServer.u64Max) :
    Later s (s.put push rv fate).2 ∧
      (∀ l ∈ (s.put push rv fate).2.landed, l ∈ s.landed ∨ Lands node l) ∧
      ∀ updated, (s.put push rv fate).1 = .ok updated → Seen node (s.put push rv fate).2 push.name updated ∧
        updated.metadata.uid = push.pod.metadata.uid := by
  have hlost : ∀ (e : ClientError) (updated : Pod), (.error e : Except ClientError Pod) ≠ .ok updated :=
    fun e updated heq => by cases heq
  cases fate with
  | answered => exact carriedOut_spec h hseen hrv huid hlt
  | lost e carriedOut =>
    cases carriedOut with
    | true =>
      obtain ⟨hlater, hlanded, -⟩ := carriedOut_spec h hseen hrv huid hlt
      exact ⟨hlater, hlanded, fun updated hupdated => absurd hupdated (hlost e updated)⟩
    | false => exact ⟨.refl h, fun l hl => .inl hl, fun updated hupdated => absurd hupdated (hlost e updated)⟩

/-! ## The tick -/

/-- A turn of the tick is not about the cache. -/
theorem cache_tickPod (host : Host ρ) (name : PodName) (k : Reconciler ρ) :
    (Reconciler.tickPod host name k).2.cache = k.cache := by
  unfold Reconciler.tickPod
  cases k.cache name with
  | none => rfl
  | some pod =>
    have hchecked := (Reconciler.reconcileLiveness_samePods host name pod k).2
    have hreported := (Reconciler.computePodStatus_sameBooks host pod
      (left (Reconciler.reconcileLiveness host name pod k))).cache
    dsimp only
    cases hstatus : Reconciler.computePodStatus host pod (left (Reconciler.reconcileLiveness host name pod k)) with
    | ok | error =>
      rw [hstatus] at hreported
      exact hreported.trans hchecked

theorem cache_tickLiveness (host : Host ρ) (names : List PodName) (k : Reconciler ρ) :
    (Reconciler.tickLiveness host names k).2.cache = k.cache :=
  Runs.foldl_keeps (fun st : List (PodName × PodStatus) × Reconciler ρ => st.2.cache)
    (fun st name => cache_tickPod host name st.2) names ([], k)

/-! ## Invariant -/

/-- What the kubelet keeps has been on the server, and each push is about the pod that it was computed from. -/
structure Faithful (node : String) (s : Reporting ρ) : Prop where
  chronicle : Chronicle .pod s.now s.past
  cached : ∀ name pod, s.kubelet.cache name = some pod → Seen node s name pod
  same : ∀ push ∈ s.pushes, ∀ pod, s.kubelet.cache push.name = some pod →
    pod.metadata.uid = push.pod.metadata.uid
  alike : ∀ push ∈ s.pushes, ∀ other ∈ s.pushes, other.name = push.name →
    other.pod.metadata.uid = push.pod.metadata.uid
  retry : ∀ push conflict latest, push ∈ s.pushes.head? → s.stage = .retry conflict latest →
    Seen node s push.name latest ∧ latest.metadata.uid = push.pod.metadata.uid
  landed : ∀ l ∈ s.landed, Lands node l

namespace Faithful

variable {rest : List Push} {answers : PushAnswers}

/-- Only the server has gone on. -/
theorem later (h : Faithful node s) (hs : Later s s') (hlanded : ∀ l ∈ s'.landed, l ∈ s.landed ∨ Lands node l) :
    Faithful node s' where
  chronicle := hs.chronicle
  cached name pod hpod := (h.cached name pod (by rwa [← hs.kubelet])).later hs
  same := by
    rw [hs.pushes, hs.kubelet]
    exact h.same
  alike := by
    rw [hs.pushes]
    exact h.alike
  retry := by
    rw [hs.pushes, hs.stage]
    intro push conflict latest hpush hstage
    obtain ⟨hseen, huid⟩ := h.retry push conflict latest hpush hstage
    exact ⟨hseen.later hs, huid⟩
  landed l hl := (hlanded l hl).elim (h.landed l) id

/-- The push goes on, but not to a second write yet. -/
theorem refetch (h : Faithful node s) (conflict : String) : Faithful node { s with stage := .refetch conflict } :=
  ⟨h.chronicle, h.cached, h.same, h.alike, fun _ _ _ _ hstage => (nomatch hstage), h.landed⟩

/-- The push ends, with answers about the pod. -/
theorem finish (h : Faithful node s) (hpushes : s.pushes = push :: rest)
    (hbrings : ∀ name pod, (KubeletStep.push push.name push.status answers).Brings name pod →
      Seen node s name pod ∧ pod.metadata.uid = push.pod.metadata.uid) :
    Faithful node (s.finish push answers) := by
  have hpush : push ∈ s.pushes := hpushes ▸ List.mem_cons_self
  have hcache := (Reconciler.pushStatus_pushed push.name push.status answers s.kubelet).gained
  have hleft : (s.finish push answers).pushes ⊆ s.pushes := fun other hother => List.mem_of_mem_tail hother
  constructor
  case chronicle => exact h.chronicle
  case cached =>
    exact fun name pod hpod => (hcache name pod hpod).elim (h.cached name pod) fun hnew => (hbrings name pod hnew).1
  case same =>
    intro other hother pod hpod
    rcases hcache other.name pod hpod with hold | hnew
    · exact h.same other (hleft hother) pod hold
    · have hname : other.name = push.name := hnew.1
      exact (hbrings other.name pod hnew).2.trans (h.alike other (hleft hother) push hpush hname.symm)
  case alike => exact fun first hfirst other hother => h.alike first (hleft hfirst) other (hleft hother)
  case retry => exact fun _ _ _ _ hstage => nomatch hstage
  case landed => exact h.landed

/-- The first write of a push goes under the version of the object in the cache. -/
theorem request_first (h : Faithful node s) (hpushes : s.pushes = push :: rest) (hstage : s.stage = .first)
    (hlt : currentRv (s.request push lag fate).now < ApiServer.u64Max) :
    Faithful node (s.request push lag fate) := by
  have hpush : push ∈ s.pushes := hpushes ▸ List.mem_cons_self
  unfold Reporting.request at hlt ⊢
  rw [hstage] at hlt ⊢
  dsimp only at hlt ⊢
  cases hrv : (s.kubelet.cache push.name).bind fun pod => pod.metadata.resourceVersion with
  | none => exact h.finish hpushes (by rintro name pod ⟨-, hno | ⟨⟨_, hno⟩, -⟩⟩ <;> cases hno)
  | some rv =>
    rw [hrv] at hlt
    obtain ⟨copy, hcopy, hversion⟩ := Option.bind_eq_some_iff.mp hrv
    dsimp only at hlt ⊢
    have hlt' : currentRv (s.put push rv fate).2.now < ApiServer.u64Max := by
      split at hlt <;> exact hlt
    obtain ⟨hlater, hlanded, hok⟩ := put_spec h.chronicle (h.cached push.name copy hcopy) hversion
      (h.same push hpush copy hcopy) hlt'
    have hput : Faithful node (s.put push rv fate).2 := h.later hlater hlanded
    split
    · exact hput.refetch _
    · rename_i hno
      refine hput.finish (hlater.pushes.trans hpushes) ?_
      rintro name pod ⟨rfl, hupdated | ⟨⟨message, hconflict⟩, -⟩⟩
      · exact hok pod hupdated
      · exact absurd hconflict (hno message)

/-- After a conflict the object is asked for by its name. -/
theorem request_refetch (h : Faithful node s) (hpushes : s.pushes = push :: rest) {conflict : String}
    (hstage : s.stage = .refetch conflict)
    (hsame : ∀ latest, stored .pod (s.storeAt lag) push.name = some latest → Lands node (push, latest)) :
    Faithful node (s.request push lag fate) := by
  unfold Reporting.request
  rw [hstage]
  dsimp only
  split
  · rename_i latest hlatest
    have hget : getPod push.name (s.storeAt lag) = .ok (some latest) := by
      cases fate with
      | answered => exact hlatest
      | lost => cases hlatest
    have hwf := h.chronicle.wellFormed (s.storeAt lag) (s.storeAt_mem lag)
    have hstored := getPod_ok hwf hget
    obtain ⟨huid, hnode⟩ := hsame latest hstored
    split
    · refine ⟨h.chronicle, h.cached, h.same, h.alike, fun other _ _ hother heq => ?_, h.landed⟩
      cases heq
      obtain rfl : push = other := by simpa [hpushes] using hother
      exact ⟨⟨_, s.storeAt_mem lag, hstored, hnode⟩, huid⟩
    · rename_i hnone
      have hversion := hwf.resourceVersion_eq hstored
      exact absurd (Option.isSome_of_eq_some hversion) hnone
  · rename_i hno
    refine h.finish hpushes ?_
    rintro name pod ⟨rfl, hupdated | ⟨-, hlatest | hretried⟩⟩
    · cases hupdated
    · exact absurd hlatest (hno pod)
    · cases hretried

/-- The second write goes under the version of the answer. -/
theorem request_retry (h : Faithful node s) (hpushes : s.pushes = push :: rest) {conflict : String} {latest : Pod}
    (hstage : s.stage = .retry conflict latest)
    (hlt : currentRv (s.request push lag fate).now < ApiServer.u64Max) :
    Faithful node (s.request push lag fate) := by
  unfold Reporting.request at hlt ⊢
  rw [hstage] at hlt ⊢
  dsimp only at hlt ⊢
  obtain ⟨hseen, huid⟩ := h.retry push conflict latest (by simp [hpushes]) hstage
  have hversion : latest.metadata.resourceVersion = some (latest.metadata.resourceVersion.getD "") := by
    obtain ⟨db, hdb, hstored, -⟩ := hseen
    have hsome := (h.chronicle.wellFormed db hdb).resourceVersion_eq hstored
    exact hsome ▸ rfl
  obtain ⟨hlater, hlanded, hok⟩ := put_spec h.chronicle hseen hversion huid hlt
  refine (h.later hlater hlanded).finish (hlater.pushes.trans hpushes) ?_
  rintro name pod ⟨rfl, hupdated | ⟨-, hlatest | hretried⟩⟩
  · cases hupdated
  · obtain rfl : latest = pod := Option.some.inj (Except.ok.inj hlatest)
    exact ⟨hseen.later hlater, huid⟩
  · exact hok pod hretried

/-- **A request** of the push under way. -/
theorem request (h : Faithful node s) (hpushes : s.pushes = push :: rest)
    (hsame : ∀ conflict latest, s.stage = .refetch conflict →
      stored .pod (s.storeAt lag) push.name = some latest → Lands node (push, latest))
    (hlt : currentRv (s.request push lag fate).now < ApiServer.u64Max) :
    Faithful node (s.request push lag fate) := by
  cases hstage : s.stage with
  | first => exact h.request_first hpushes hstage hlt
  | refetch conflict => exact h.request_refetch hpushes hstage fun latest => hsame conflict latest hstage
  | retry conflict latest => exact h.request_retry hpushes hstage hlt

theorem watch (h : Faithful node s) {db : Db} (hdb : db ∈ s.now :: s.past) {name : PodName} {pod : Pod}
    (hstored : stored .pod db name = some pod) (hnode : pod.spec.nodeName = some node) (hidle : s.pushes = [])
    (type : WatchEventType) :
    Faithful node { s with kubelet := Reconciler.applyWatchEvent host ⟨type, pod⟩ s.kubelet } := by
  have hcache := Reconciler.cache_watch host ⟨type, pod⟩ s.kubelet
  have hname : pod.metadata.name = name := ((h.chronicle.wellFormed db hdb).stored_eq_some.mp hstored).1
  constructor
  case chronicle => exact h.chronicle
  case cached =>
    intro other copy hcopy
    rw [hcache] at hcopy
    rcases eq_or_ne other pod.metadata.name with rfl | hne
    · rw [Function.update_self] at hcopy
      have hvalue : copy = pod := by
        unfold WatchEvent.value at hcopy
        split at hcopy
        · cases hcopy
        · exact (Option.some.inj hcopy).symm
      rw [hvalue]
      exact ⟨db, hdb, by rw [hname, hstored], hnode⟩
    · rw [Function.update_of_ne hne] at hcopy
      exact h.cached other copy hcopy
  case same => simp [hidle]
  case alike => exact h.alike
  case retry => exact h.retry
  case landed => exact h.landed

theorem resync (h : Faithful node s) {db : Db} (hdb : db ∈ s.now :: s.past) {desired : PodMap}
    (hlist : desired.pods.Perm ((listed .pod db : List Pod).filter fun pod => pod.spec.nodeName = some node))
    (hidle : s.pushes = []) (names : List PodName) :
    Faithful node { s with kubelet := Reconciler.resync host desired names s.kubelet } := by
  constructor
  case chronicle => exact h.chronicle
  case cached =>
    intro name pod hpod
    have hget : desired.get name = some pod :=
      (congrFun (Reconciler.cache_resync host desired names s.kubelet) name).symm.trans hpod
    obtain rfl := PodMap.get_eq_some hget
    have hmem : pod ∈ desired.pods := List.mem_of_find?_eq_some hget
    obtain ⟨hlisted, hnode⟩ := List.mem_filter.mp (hlist.mem_iff.mp hmem)
    exact ⟨db, hdb, (h.chronicle.wellFormed db hdb).mem_listed.mp hlisted, of_decide_eq_true hnode⟩
  case same => simp [hidle]
  case alike => exact h.alike
  case retry => exact h.retry
  case landed => exact h.landed

/-- The statuses of a tick are those of what is in the cache. -/
theorem tick (h : Faithful node s) (dirty : List (PodName × PodStatus)) {kubelet : Reconciler ρ}
    (hcache : kubelet.cache = s.kubelet.cache) :
    Faithful node { s with
      kubelet := kubelet
      pushes := dirty.filterMap fun (name, status) => (s.kubelet.cache name).map fun pod => ⟨name, status, pod⟩
      stage := .first } := by
  have hfrom : ∀ push ∈ dirty.filterMap fun (name, status) =>
      (s.kubelet.cache name).map fun pod => (⟨name, status, pod⟩ : Push),
        s.kubelet.cache push.name = some push.pod := by
    intro push hpush
    obtain ⟨⟨name, status⟩, -, hmap⟩ := List.mem_filterMap.mp hpush
    obtain ⟨pod, hpod, rfl⟩ := Option.map_eq_some_iff.mp hmap
    exact hpod
  constructor
  case chronicle => exact h.chronicle
  case cached => exact fun name pod hpod => h.cached name pod (hcache ▸ hpod)
  case same =>
    intro push hpush pod hpod
    have hold : s.kubelet.cache push.name = some pod := hcache ▸ hpod
    exact congrArg (fun pod : Pod => pod.metadata.uid) (Option.some.inj (hold.symm.trans (hfrom push hpush)))
  case alike =>
    intro push hpush other hother hname
    have hpod := hfrom other hother
    rw [hname, hfrom push hpush] at hpod
    exact congrArg (fun pod : Pod => pod.metadata.uid) (Option.some.inj hpod).symm
  case retry => exact fun _ _ _ _ hstage => nomatch hstage
  case landed => exact h.landed

end Faithful

/-! ## Runs -/

/-- What the server answers with, where the kubelet asks for the object of a push again. -/
def refetched (s : Reporting ρ) : ReportAct → Option (Push × Pod)
  | .push lag _ =>
    match s.stage, s.pushes with
    | .refetch _, push :: _ => (stored .pod (s.storeAt lag) push.name).map fun (pod : Pod) => (push, pod)
    | _, _ => none
  | _ => none

/-- The answer is the pod that the status was computed from, on the node. -/
def RefetchesSame (node : String) (s : Reporting ρ) (act : ReportAct) : Prop :=
  ∀ l ∈ s.refetched act, Lands node l

instance (node : String) (s : Reporting ρ) (act : ReportAct) : Decidable (RefetchesSame node s act) :=
  inferInstanceAs (Decidable (∀ l ∈ s.refetched act, Lands node l))

theorem now_put (s : Reporting ρ) (push : Push) (rv : String) (fate : Fate) :
    (s.put push rv fate).2.now = s.now ∨ ∃ w : Write, (s.put push rv fate).2.now = w.step s.now := by
  cases fate with
  | answered => exact .inr ⟨statusWrite push.name push.status rv, replacePodStatus_snd ..⟩
  | lost e carriedOut =>
    cases carriedOut with
    | true => exact .inr ⟨statusWrite push.name push.status rv, replacePodStatus_snd ..⟩
    | false => exact .inl rfl

theorem now_request (s : Reporting ρ) (push : Push) (lag : ℕ) (fate : Fate) :
    (s.request push lag fate).now = s.now ∨ ∃ w : Write, (s.request push lag fate).now = w.step s.now := by
  unfold request
  split
  · split
    · exact .inl rfl
    · dsimp only
      split <;> exact s.now_put push _ fate
  · dsimp only
    split
    · split <;> exact .inl rfl
    · exact .inl rfl
  · exact s.now_put push _ fate

/-- A step writes to the server at most once. -/
theorem now_step (host : Host ρ) (node : String) (s : Reporting ρ) (act : ReportAct) :
    (s.step host node act).now = s.now ∨ ∃ w : Write, (s.step host node act).now = w.step s.now := by
  cases act with
  | other w => exact .inr ⟨w, rfl⟩
  | watch type name lag =>
    unfold step
    dsimp only
    split
    · split <;> exact .inl rfl
    · exact .inl rfl
  | resync desired names lag =>
    unfold step
    dsimp only
    split
    · split <;> exact .inl rfl
    · exact .inl rfl
  | tick names =>
    unfold step
    dsimp only
    split <;> exact .inl rfl
  | push lag fate =>
    unfold step
    dsimp only
    split
    · exact .inl rfl
    · exact s.now_request _ lag fate

theorem currentRv_le_step (host : Host ρ) (node : String) (s : Reporting ρ) (act : ReportAct) :
    currentRv s.now ≤ currentRv (s.step host node act).now := by
  rcases now_step host node s act with hsame | ⟨w, hw⟩
  · rw [hsame]
  · rw [hw]
    exact ApiServer.stores_lawful.count_le _ _

theorem Faithful.step (h : Faithful node s) {act : ReportAct} (hsame : RefetchesSame node s act)
    (hlt : currentRv (s.step host node act).now < ApiServer.u64Max) : Faithful node (s.step host node act) := by
  cases act with
  | other w => exact h.later (.write h.chronicle w hlt) fun l hl => .inl hl
  | watch type name lag =>
    unfold Reporting.step
    dsimp only
    split
    · rename_i pod hidle hstored
      split
      · rename_i hnode
        exact h.watch (s.storeAt_mem lag) hstored hnode hidle type
      · exact h
    · exact h
  | resync desired names lag =>
    unfold Reporting.step
    dsimp only
    split
    · rename_i hidle
      split
      · rename_i hlist
        exact h.resync (s.storeAt_mem lag) hlist hidle names
      · exact h
    · exact h
  | tick names =>
    unfold Reporting.step
    dsimp only
    split
    · exact h.tick _ (cache_tickLiveness host names s.kubelet)
    · exact h
  | push lag fate =>
    unfold Reporting.step at hlt ⊢
    dsimp only at hlt ⊢
    cases hpushes : s.pushes with
    | nil => exact h
    | cons push rest =>
      rw [hpushes] at hlt
      refine h.request hpushes (fun conflict latest hstage hstored => ?_) hlt
      have hanswer : s.refetched (.push lag fate) = some (push, latest) := by
        simp only [refetched, hstage, hpushes, hstored]
        rfl
      exact hsame _ hanswer

theorem Faithful.run (h : Faithful node s) {acts : List ReportAct}
    (hsame : ∀ past act, past ++ [act] <+: acts → RefetchesSame node (s.run host node past) act)
    (hlt : currentRv (s.run host node acts).now < ApiServer.u64Max) : Faithful node (s.run host node acts) := by
  have hle : ∀ past act, (s.run host node (past ++ [act])).now = ((s.run host node past).step host node act).now :=
    fun past act => by rw [Reporting.run, List.foldl_concat]; rfl
  induction acts using List.reverseRecOn with
  | nil => exact h
  | append_singleton past act ih =>
    have hstep := currentRv_le_step host node (s.run host node past) act
    rw [hle] at hlt
    have hpast := ih (fun before next hp => hsame before next (hp.trans (List.prefix_append ..))) (by omega)
    rw [Reporting.run, List.foldl_concat]
    exact hpast.step (hsame past act List.prefix_rfl) hlt

/-- **Statuses land where they were computed.** From a server whose pods on the node the kubelet may have
seen, whatever others write and whatever gets lost: each write of a status that takes effect meets the pod
that the status was computed from, on the node. -/
theorem statuses_land {db : Db} {kubelet : Reconciler ρ} (hdb : WellFormed db)
    (hcached : ∀ name pod, kubelet.cache name = some pod →
      stored .pod db name = some pod ∧ pod.spec.nodeName = some node) {acts : List ReportAct}
    (hsame : ∀ past act, past ++ [act] <+: acts →
      RefetchesSame node ((start db kubelet).run host node past) act)
    (hlt : currentRv ((start db kubelet).run host node acts).now < ApiServer.u64Max) :
    ∀ l ∈ ((start db kubelet).run host node acts).landed, Lands node l := by
  have hstart : Faithful node (start db kubelet) := by
    constructor
    case chronicle => exact .start .pod hdb
    case cached => exact fun name pod hpod => ⟨db, List.mem_cons_self, hcached name pod hpod⟩
    case same => exact fun _ hpush => nomatch hpush
    case alike => exact fun _ hpush => nomatch hpush
    case retry => exact fun _ _ _ hpush => nomatch hpush
    case landed => exact fun _ hl => nomatch hl
  exact (hstart.run hsame hlt).landed

/-- "web", of an incarnation, on a node. -/
def webOn (uid node : String) : Pod :=
  let pod := Reconciler.podNamed "web" none
  { pod with
    metadata := { pod.metadata with uid := some uid }
    spec := { pod.spec with nodeName := some node } }

/-- Created, bound. -/
def comes (uid node : String) : Write :=
  ⟨⟨.pod, (ApiServer.ApiOp.create (webOn uid node) : ApiServer.ApiOp .pod).storeOp⟩, trivial⟩

def goes (rv : String) : Write :=
  ⟨⟨.pod, (ApiServer.ApiOp.delete "web" rv : ApiServer.ApiOp .pod).storeOp⟩, trivial⟩

def edited : Write :=
  ⟨⟨.pod, (ApiServer.ApiOp.replaceSpec "web" (webOn "u1" "a") : ApiServer.ApiOp .pod).storeOp⟩, rfl⟩

/-- Between the tick and its push, "web" is deleted and created again, on another node. -/
def replacedActs : List ReportAct :=
  [.other (comes "u1" "a"), .watch .added "web" 0, .tick ["web"], .other (goes "1"), .other (comes "u2" "b"),
    .push 0 .answered, .push 0 .answered, .push 0 .answered]

theorem status_lands_elsewhere :
    (((start ∅ Reconciler.bareNode).run mockHost "a" replacedActs).landed.map fun l =>
      (l.1.pod.metadata.uid, l.2.metadata.uid, l.2.spec.nodeName)) = [(some "u1", some "u2", some "b")] ∧
      ¬ ∀ l ∈ ((start ∅ Reconciler.bareNode).run mockHost "a" replacedActs).landed, Lands "a" l := by
  decide +kernel

/-- "web" is edited in between. -/
def editedActs : List ReportAct :=
  [.other (comes "u1" "a"), .watch .added "web" 0, .tick ["web"], .other edited, .push 0 .answered,
    .push 0 .answered, .push 0 .answered]

theorem statuses_land_edited :
    ((start ∅ Reconciler.bareNode).run mockHost "a" editedActs).landed.length = 1 ∧
      ∀ l ∈ ((start ∅ Reconciler.bareNode).run mockHost "a" editedActs).landed, Lands "a" l := by
  refine ⟨by decide +kernel, ?_⟩
  refine statuses_land ApiServer.WellFormed.empty (fun name pod hpod => ?_) ?_ (by decide +kernel)
  · cases hpod
  · exact Runs.forall_concat_prefix_iff.mpr (by decide +kernel)

end Reporting

end MyK8s.Kubelet
