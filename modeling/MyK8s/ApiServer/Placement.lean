import MyK8s.ApiServer.Alone
import MyK8s.ApiServer.Listing
import MyK8s.Lib.Spread

/-!
# Placement

Calls of `schedule`, one after the other and with nobody else writing. Each counts all pods anew, those on
nodes that it cannot use and on nodes that are not there among them, and one pod moves. So no call drives
the loads of the nodes further apart than by one, and never two calls in a row (`schedule_keeps_spread`).

This needs two things of what is between the scheduler and the store: that the URLs carry the name of the
pod as it is, and that what is read is the store as it is now, and not that of a replica that lags behind.
Without them a call can end well with nothing placed, or crowd one node (`spread_not_kept`).
-/

namespace MyK8s.ApiServer

open ResourceMeta (getMeta)
open Spread (spread)
open Process (Proc)

/-! ## Nodes have names -/

/-- A node that is created has a name. -/
def ApiCall.NamesNode (call : ApiCall) : Prop :=
  match call.op with
  | .create obj => call.kind = .node → (getMeta obj).name ≠ ""
  | _ => True

/-- `validate_node` sees to it. -/
theorem Request.writes_createNode {path : WritePath} {stamp : Stamp} {node : Node} {seen : List Db} :
    Proc.writes (fun _ call => call.NamesNode) (fun _ _ => True) (Handlers.createNode path stamp node)
      seen := by
  unfold Handlers.createNode
  refine Proc.writes_bind.mpr (Handler.writes_lift.mpr fun u hvalid => ?_)
  have hname : node.metadata.name ≠ "" := by
    rintro hempty
    rw [Handlers.validateNode, Handlers.validateName, hempty] at hvalid
    cases hvalid
  have hcreate : ∀ seen (node : Node), node.metadata.name ≠ "" →
      Proc.writes (fun _ call => call.NamesNode) (fun _ _ => True) (Handlers.create .node stamp node)
        seen := fun seen node h => Handlers.writes_create fun _ => h
  refine Proc.writes_bind.mpr (writes_gate path (Proc.writes_bind.mpr (Handlers.writes_allocate ?_ ?_ ?_)))
  · exact fun _ => hcreate _ _ hname
  · exact fun _ => hcreate _ _ hname
  · exact fun _ _ _ _ _ => hcreate _ _ hname

theorem Request.wp_namesNode (r : Request) :
    Proc.wp (fun _ call => call.NamesNode) (fun _ _ => True) r.code [] := by
  refine wp_code ?_ ?_ ?_ ?_ ?_ r
  · intro seen path stamp k obj
    by_cases hk : k = .node
    · subst hk
      exact writes_createNode
    · exact writes_createHandler fun _ _ hnode => absurd hnode hk
  · exact fun seen k name obj => writes_replaceHandler fun _ => trivial
  · exact fun seen k name rv status => writes_statusHandler fun _ => trivial
  · exact fun seen k name rv => writes_deleteHandler fun _ => trivial
  · exact fun seen path name nodeName => Handlers.writes_bindPod fun _ _ _ => trivial

/-- No node without a name is ever stored. -/
theorem Api.nodes_named (acts : List ApiAct) :
    ∀ db ∈ (start.run acts).states, stored .node db "" = none := by
  have hexec : ∀ (call : ApiCall) db, call.NamesNode → stored .node db "" = none →
      stored .node (call.exec db).2 "" = none := by
    rintro ⟨k, op⟩ db hnames hnone
    rw [ApiCall.exec_snd, ApiCall.storeCall]
    by_cases hbase : ∃ base, op.storeOp.StartsFrom db base
    · obtain ⟨base, hbase⟩ := hbase
      rw [stored_step_of_ne hbase]
      · exact hnone
      · rintro rfl hname
        cases op with
        | create obj => exact hnames rfl hname
        | _ =>
          -- there is nothing to start from
          have hthere := stored_eq_some_iff.mpr hbase.1
          obtain rfl : _ = "" := hname
          rw [hnone] at hthere
          cases hthere
    · rw [step_of_not_startsFrom hbase]
      exact hnone
  refine Process.System.invariant (J := fun db => stored .node db "" = none) rfl hexec fun r _ => ?_
  exact Proc.wp_mono (fun _ _ h _ => h) (fun _ _ _ => trivial) r.wp_namesNode

namespace Scheduler

/-! ## A call -/

/-- A call of `schedule`, at its time. Its reads are served by replicas that lag, each by some writes. -/
structure Call where
  path : WritePath
  age : String → Option ℤ
  podName : String
  lags : List ℕ

namespace Call

/-- The answer to a call, and the stores after it, from the stores before, the last one apart. -/
def run (routes : Routes) (c : Call) (stores : Db × List Db) : Except ClientError Unit × (Db × List Db) :=
  (scheduleVia routes c.path c.age c.podName).run.lagging ApiCall.exec c.lags stores

/-- The stores after some calls. -/
def after (routes : Routes) (calls : List Call) (stores : Db × List Db) : Db × List Db :=
  calls.foldl (fun stores c => (c.run routes stores).2) stores

theorem after_concat (routes : Routes) (calls : List Call) (c : Call) (stores : Db × List Db) :
    after routes (calls ++ [c]) stores = (c.run routes (after routes calls stores)).2 := List.foldl_concat ..

/-- The URLs carry the name of the pod as it is. -/
structure Routed (routes : Routes) (c : Call) : Prop where
  pod : routes.pod c.podName = .handler c.podName
  binding : routes.binding c.podName = .handler c.podName

/-- All that the call reads is the store as it is. -/
def Current (c : Call) : Prop := ∀ lag ∈ c.lags, lag = 0

/-- The call, routed and current. -/
def runNow (c : Call) (db : Db) : Except ClientError Unit × Db :=
  (schedule c.path c.age c.podName).alone db

/-- Nothing between the scheduler and the store makes a difference then. -/
theorem run_eq {routes : Routes} {c : Call} (hrouted : c.Routed routes) (hcurrent : c.Current)
    (stores : Db × List Db) : ((c.run routes stores).1, (c.run routes stores).2.1) = c.runNow stores.1 := by
  have hplain : scheduleVia routes c.path c.age c.podName = schedule c.path c.age c.podName := by
    unfold schedule scheduleVia
    rw [hrouted.pod, hrouted.binding]
    rfl
  unfold run runNow
  rw [hplain]
  exact Proc.lagging_of_current hcurrent

end Call

/-- How many pods are on each node that can be used. -/
def loads (schedulable : Node → Bool) (db : Db) : List ℕ :=
  ((listed .node db).filter schedulable).map (load (listed .pod db))

/-- The pod is now on a node that can be used. -/
structure Bound (schedulable : Node → Bool) (podName : String) (db : Db) (node : Node) : Prop where
  there : stored .node db node.metadata.name = some node
  schedulable : schedulable node = true
  bound : assignedAt .pod db podName = some node.metadata.name

/-- What a call comes to. It fails for want of a node or of a leader, and has done nothing then. -/
inductive Outcome (schedulable : Node → Bool) (c : Call) (before : Db) : Except ClientError Unit × Db → Prop
  | bound {now : Db} {node : Node} (h : Bound schedulable c.podName now node) :
      Outcome schedulable c before (.ok (), now)
  | noNode (h : (listed .node before).filter schedulable = []) :
      Outcome schedulable c before
        (.error (.bail s!"no Ready node available for pod {c.podName}"), before)
  | noLeader {e : ApiError} (h : c.path.gate.alone before = (.error e, before)) :
      Outcome schedulable c before (.error (.server e), before)

section Bind

variable {db : Db} {path : WritePath} {name nodeName : String} {pod : Pod}

theorem alone_gate (path : WritePath) (db : Db) : ∃ r, path.gate.alone db = (r, db) := by
  cases path with
  | direct => exact ⟨.ok (), rfl⟩
  | raft proposer => exact ⟨proposer.ensureLeader, rfl⟩

/-- The stores differ in where the pod is. -/
structure Moved (name nodeName : String) (db db' : Db) : Prop where
  wellFormed : WellFormed db'
  kinds : ∀ k ≠ Kind.pod, ∀ other, stored k db' other = stored k db other
  pods : ∀ other ≠ name, stored .pod db' other = stored .pod db other
  moved : ∃ pod : Pod, stored .pod db' name = some pod ∧ pod.spec.nodeName = some nodeName

/-- A binding, where the pod is there. -/
theorem alone_bindPod (hwf : WellFormed db) (hname : nodeName ≠ "")
    (hpod : stored .pod db name = some pod) (hgate : path.gate.alone db = (.ok (), db)) :
    ∃ reply db', (Handlers.bindPod path name nodeName).alone db = (.ok reply, db') ∧
      Moved name nodeName db db' := by
  have hmeta : pod.metadata.name = name := (hwf.stored_eq_some.mp hpod).1
  let placed : Pod := { pod with spec := { pod.spec with nodeName := some nodeName } }
  -- the version is the one that has just been read
  have hstarts : (ApiOp.replaceSpec name placed : ApiOp .pod).storeOp.StartsFrom db pod :=
    ⟨stored_eq_some_iff.mp hpod, hwf.resourceVersion_eq hpod⟩
  have hexec := @ApiCall.exec_of_startsFrom .pod (.replaceSpec name placed) db pod hstarts
  have haddressed : (ApiOp.replaceSpec name placed : ApiOp .pod).storeOp.Addressed := hmeta
  refine ⟨((ApiOp.replaceSpec name placed : ApiOp .pod).storeOp.effect db pod).1, _, ?_,
    ApiCall.wellFormed_exec hwf hexec haddressed, fun k hk => hstarts.stored_step_of_ne hk.symm,
    fun other hother => ?_, ?_⟩
  · have hempty : nodeName.isEmpty = false := by simpa using hname
    have hget : (Handlers.get .pod name).alone db = (.ok pod, db) := by
      rw [Handlers.alone_get hwf, hpod]
      rfl
    unfold Handlers.bindPod
    simp only [hempty, Bool.false_eq_true]
    exact (Handler.alone_bind_ok hgate).trans ((Handler.alone_bind_ok hget).trans hexec)
  · exact (hstarts.stored_step other).trans (if_neg hother.symm)
  · refine ⟨_, (hstarts.stored_step name).trans (if_pos rfl), ?_⟩
    exact @assigned_effect .pod (.replaceSpec name placed) db pod

end Bind

section Run

variable {db : Db} {schedulable : Node → Bool} {c : Call} {pod : Pod}

/-- A call for a pod that has no node. -/
theorem alone_schedule (hwf : WellFormed db) (hpod : stored .pod db c.podName = some pod)
    (hunbound : pod.spec.nodeName = none) :
    c.runNow db =
      match ((listed .node db).filter (isSchedulable c.age)).argmin (load (listed .pod db)) with
      | none => (.error (.bail s!"no Ready node available for pod {c.podName}"), db)
      | some (chosen : Node) =>
        (do
          let _ ← Client.request (Handlers.bindPod c.path c.podName chosen.metadata.name)
          return () : Client Unit).alone db := by
  unfold Call.runNow schedule scheduleVia
  simp only [Routes.plain, Client.getVia, Client.requestVia]
  rw [Client.alone_bind_ok (Client.alone_get hwf .pod c.podName), hpod]
  simp only [hunbound, Option.isSome_none, Bool.false_eq_true, if_false]
  refine (Client.alone_bind_ok (Client.alone_list (k := .node) hwf.items_eq)).trans ?_
  cases hnodes : (listed .node db).filter (isSchedulable c.age) with
  | nil => rfl
  | cons node nodes =>
    simp only [List.isEmpty_cons, Bool.false_eq_true, if_false]
    refine (Client.alone_bind_ok (Client.alone_list (k := .pod) hwf.items_eq)).trans ?_
    cases hchosen : (node :: nodes).argmin (load (listed .pod db)) with
    | none => cases List.argmin_eq_none.mp hchosen
    | some chosen => rfl

/-- **One call.** The pod goes to a node with the fewest pods, or nothing happens. -/
theorem run_cases (hwf : WellFormed db) (hnamed : stored .node db "" = none)
    (hpod : stored .pod db c.podName = some pod) (hunbound : pod.spec.nodeName = none)
    (hsched : ∀ node ∈ listed .node db, isSchedulable c.age node = schedulable node) :
    (∃ (node : Node) (db' : Db), c.runNow db = (.ok (), db') ∧
      ((listed .node db).filter schedulable).argmin (load (listed .pod db)) = some node ∧
      Moved c.podName node.metadata.name db db') ∨
    (∃ e, c.runNow db = (.error e, db) ∧ Outcome schedulable c db (.error e, db)) := by
  have hcandidates : (listed .node db).filter (isSchedulable c.age) = (listed .node db).filter schedulable :=
    List.filter_congr hsched
  rw [alone_schedule hwf hpod hunbound, hcandidates]
  cases hchosen : ((listed .node db).filter schedulable).argmin (load (listed .pod db)) with
  | none => exact .inr ⟨_, rfl, .noNode (List.argmin_eq_none.mp hchosen)⟩
  | some node =>
    obtain ⟨r, hgate⟩ := alone_gate c.path db
    have hmem : node ∈ listed .node db := List.mem_of_mem_filter (List.argmin_mem hchosen)
    have hname : node.metadata.name ≠ "" := by
      intro hempty
      have hstored : stored .node db node.metadata.name = some node := hwf.mem_listed.mp hmem
      rw [hempty, hnamed] at hstored
      cases hstored
    cases r with
    | ok u =>
      obtain ⟨reply, db', hbind, hmoved⟩ := alone_bindPod hwf hname hpod hgate
      refine .inl ⟨node, db', ?_, rfl, hmoved⟩
      exact Client.alone_bind_ok (Client.alone_request_eq_ok.mpr hbind)
    | error e =>
      have hbind : (Handlers.bindPod c.path c.podName node.metadata.name).alone db = (.error e, db) := by
        have hempty : node.metadata.name.isEmpty = false := by simpa using hname
        unfold Handlers.bindPod
        simp only [hempty, Bool.false_eq_true]
        exact Handler.alone_bind_error hgate
      refine .inr ⟨.server e, ?_, .noLeader hgate⟩
      refine Client.alone_bind_error ?_
      rw [Client.alone_request, hbind]
      rfl

end Run

section Loads

variable {db db' : Db} {schedulable : Node → Bool} {podName nodeName : String} {pod : Pod}

/-- A pod that moves onto a node is one more there. -/
theorem load_of_moved (hwf : WellFormed db) (hpod : stored .pod db podName = some pod)
    (hunbound : pod.spec.nodeName = none) (hmoved : Moved podName nodeName db db') (node : Node) :
    load (listed .pod db') node =
      load (listed .pod db) node + if node.metadata.name = nodeName then 1 else 0 := by
  obtain ⟨placed, hplaced, hbound⟩ := hmoved.moved
  have hbefore := hwf.items_perm (k := .pod) hwf.items_eq podName
  have hafter := hwf.items_perm_of_agree (k := .pod) hmoved.wellFormed hwf.items_eq
    hmoved.wellFormed.items_eq hmoved.pods
  rw [hpod] at hbefore
  rw [hplaced] at hafter
  let onNode : Pod → Bool := fun p => p.spec.nodeName == some node.metadata.name
  have hcount : ∀ {pods : List Pod} {p : Pod} {rest : List Pod}, pods.Perm ((some p).toList ++ rest) →
      load pods node = (if onNode p then 1 else 0) + rest.countP onNode := by
    intro pods p rest hperm
    rw [load, hperm.countP_eq, Option.toList_some, List.countP_append, List.countP_singleton]
  have hgone : onNode pod = false := by simp [onNode, hunbound]
  have hhere : (onNode placed = true) ↔ node.metadata.name = nodeName := by
    rw [show onNode placed = (placed.spec.nodeName == some node.metadata.name) from rfl, hbound,
      beq_iff_eq, Option.some_inj]
    exact eq_comm
  rw [hcount hbefore, hcount hafter, hgone]
  simp only [hhere, Bool.false_eq_true, if_false]
  omega

theorem Moved.bound (h : Moved podName nodeName db db') (hwf : WellFormed db) {node : Node}
    (hchosen : ((listed .node db).filter schedulable).argmin (load (listed .pod db)) = some node)
    (hname : node.metadata.name = nodeName) : Bound schedulable podName db' node := by
  obtain ⟨hmem, hsched⟩ := List.mem_filter.mp (List.argmin_mem hchosen)
  obtain ⟨placed, hplaced, hbound⟩ := h.moved
  refine ⟨(h.kinds .node (by decide) _).trans (hwf.mem_listed.mp hmem), hsched, ?_⟩
  rw [assignedAt, hplaced, hname]
  exact hbound

/-- **A placement does not spread the loads.** -/
theorem spread_of_moved (hwf : WellFormed db) (hpod : stored .pod db podName = some pod)
    (hunbound : pod.spec.nodeName = none) {node : Node}
    (hchosen : ((listed .node db).filter schedulable).argmin (load (listed .pod db)) = some node)
    (hmoved : Moved podName node.metadata.name db db') :
    spread (loads schedulable db') ≤ max 1 (spread (loads schedulable db)) := by
  have hnodes : (listed .node db').Perm (listed .node db) :=
    hwf.listed_perm hmoved.wellFormed (hmoved.kinds .node (by decide))
  have hperm : (loads schedulable db').Perm
      (((listed .node db).filter schedulable).map (load (listed .pod db'))) :=
    (hnodes.filter schedulable).map _
  have hload := load_of_moved hwf hpod hunbound hmoved
  rw [Spread.spread_eq_of_perm hperm]
  refine Spread.spread_raise_le (c := node) (fun p hp => ?_) (fun p _ => ?_) fun p _ => ?_
  · exact List.le_of_mem_argmin hp hchosen
  · rw [hload]
    omega
  · rw [hload]
    by_cases hsame : p.metadata.name = node.metadata.name
    · -- what counts is the name
      have hp : load (listed .pod db) p = load (listed .pod db) node := by simp only [load, hsame]
      rw [if_pos hsame, hp]
      exact .inr le_rfl
    · rw [if_neg hsame]
      exact .inl le_rfl

end Loads

/-! ## Calls in a row -/

/-- What holds after some calls: no node has been touched, and no pod that none of them was for. -/
structure Kept (schedulable : Node → Bool) (db : Db) (past : List Call) (now : Db) : Prop where
  wellFormed : WellFormed now
  nodes : ∀ name, stored .node now name = stored .node db name
  pods : ∀ name, (∀ c ∈ past, c.podName ≠ name) → stored .pod now name = stored .pod db name
  spread_le : spread (loads schedulable now) ≤ max 1 (spread (loads schedulable db))

section Calls

variable {db now : Db} {schedulable : Node → Bool} {past calls : List Call} {c : Call}

theorem Kept.start (hwf : WellFormed db) : Kept schedulable db [] db :=
  ⟨hwf, fun _ => rfl, fun _ _ => rfl, le_max_right _ _⟩

theorem Kept.step (hdb : WellFormed db) (h : Kept schedulable db past now)
    (hnamed : stored .node db "" = none)
    (hsched : ∀ node ∈ listed .node db, isSchedulable c.age node = schedulable node)
    (hnew : ∀ c' ∈ past, c'.podName ≠ c.podName)
    (hpod : ∃ pod : Pod, stored .pod db c.podName = some pod ∧ pod.spec.nodeName = none) :
    Outcome schedulable c now (c.runNow now) ∧ Kept schedulable db (past ++ [c]) (c.runNow now).2 := by
  obtain ⟨pod, hpod, hunbound⟩ := hpod
  rw [← h.pods c.podName hnew] at hpod
  rw [← h.nodes ""] at hnamed
  have hwf : WellFormed now := h.wellFormed
  have hsched' : ∀ node ∈ listed .node now, isSchedulable c.age node = schedulable node :=
    fun node hnode => hsched node ((hdb.listed_perm hwf h.nodes).mem_iff.mp hnode)
  have hpast : ∀ {name}, (∀ c' ∈ past ++ [c], c'.podName ≠ name) →
      (∀ c' ∈ past, c'.podName ≠ name) ∧ c.podName ≠ name := fun hall =>
    ⟨fun c' hc' => hall c' (List.mem_append_left _ hc'), hall c (List.mem_append_right _ List.mem_cons_self)⟩
  rcases run_cases hwf hnamed hpod hunbound hsched' with
    ⟨node, db', hrun, hchosen, hmoved⟩ | ⟨e, hrun, houtcome⟩
  · rw [hrun]
    refine ⟨.bound (hmoved.bound hwf hchosen rfl), hmoved.wellFormed, fun name => ?_, fun name hall => ?_, ?_⟩
    · exact (hmoved.kinds .node (by decide) name).trans (h.nodes name)
    · exact (hmoved.pods name (hpast hall).2.symm).trans (h.pods name (hpast hall).1)
    · have hone := spread_of_moved hwf hpod hunbound hchosen hmoved
      exact hone.trans (max_le (le_max_left 1 _) h.spread_le)
  · rw [hrun]
    exact ⟨houtcome, hwf, h.nodes, fun name hall => h.pods name (hpast hall).1, h.spread_le⟩

/-- **The spread is kept**, by calls that are routed and current. Each places its pod, or nothing happens. -/
theorem schedule_keeps_spread {routes : Routes} {stores : Db × List Db} (hwf : WellFormed stores.1)
    (hnamed : stored .node stores.1 "" = none)
    (hsched : ∀ c ∈ calls, ∀ node ∈ listed .node stores.1, isSchedulable c.age node = schedulable node)
    (hdistinct : (calls.map Call.podName).Nodup)
    (hunbound : ∀ c ∈ calls, ∃ pod : Pod,
      stored .pod stores.1 c.podName = some pod ∧ pod.spec.nodeName = none)
    (hrouted : ∀ c ∈ calls, c.Routed routes) (hcurrent : ∀ c ∈ calls, c.Current)
    (hp : past ++ [c] <+: calls) :
    Outcome schedulable c (Call.after routes past stores).1
        ((c.run routes (Call.after routes past stores)).1,
          (Call.after routes (past ++ [c]) stores).1) ∧
      spread (loads schedulable (Call.after routes (past ++ [c]) stores).1) ≤
        max 1 (spread (loads schedulable stores.1)) := by
  have hstep : ∀ past c, past ++ [c] <+: calls →
      Kept schedulable stores.1 past (Call.after routes past stores).1 →
      Outcome schedulable c (Call.after routes past stores).1
          ((c.run routes (Call.after routes past stores)).1,
            (Call.after routes (past ++ [c]) stores).1) ∧
        Kept schedulable stores.1 (past ++ [c]) (Call.after routes (past ++ [c]) stores).1 := by
    intro past c hp hkept
    have hc : c ∈ calls := hp.subset (List.mem_append_right past List.mem_cons_self)
    have hnew : ∀ c' ∈ past, c'.podName ≠ c.podName := by
      have hnodup : ((past ++ [c]).map Call.podName).Nodup := hdistinct.sublist (hp.map _).sublist
      rw [List.map_append] at hnodup
      intro c' hc' heq
      exact List.disjoint_of_nodup_append hnodup (List.mem_map_of_mem hc') (heq ▸ List.mem_cons_self)
    obtain ⟨houtcome, hafter⟩ := hkept.step hwf hnamed (hsched c hc) hnew (hunbound c hc)
    rw [Call.after_concat, Call.run_eq (hrouted c hc) (hcurrent c hc)]
    rw [← Call.run_eq (hrouted c hc) (hcurrent c hc)] at hafter
    exact ⟨houtcome, hafter⟩
  have hkept : Kept schedulable stores.1 past (Call.after routes past stores).1 :=
    Runs.prefix_induction (C := fun past => Kept schedulable stores.1 past (Call.after routes past stores).1)
      (.start hwf) (fun past c hp hkept => (hstep past c hp hkept).2) past (Runs.prefix_of_concat hp)
  obtain ⟨houtcome, hafter⟩ := hstep past c hp hkept
  exact ⟨houtcome, hafter.spread_le⟩

end Calls

/-- Two pods are on `a`, one is on a node that is not there, and two wait. -/
def crowded : List ApiAct :=
  readyNodes ++
    [.start (.create .pod .direct sampleStamp (samplePod "x" none (some "a"))), .write 5,
      .start (.create .pod .direct sampleStamp (samplePod "y" none (some "a"))), .write 6,
      .start (.create .pod .direct sampleStamp (samplePod "z" none (some "gone"))), .write 7,
      .start (.create .pod .direct sampleStamp (samplePod "db" none none)), .write 8]

/-- The stores of a run. -/
def stores (acts : List ApiAct) : Db × List Db := ((Api.start.run acts).now, (Api.start.run acts).past)

/-- A path with one name more is none that the router knows. -/
def slashRoutes : Routes where
  pod name := if '/' ∈ name.toList then .notFound else .handler name
  binding name := if '/' ∈ name.toList then .notFound else .handler name

/-- A leader. -/
def leading : WritePath := .raft ⟨1, some 1, fun _ => none⟩

/-- The scheduler counts the pods of the store of some writes ago. -/
def place (podName : String) (lag : ℕ) : Call := ⟨leading, fun _ => some 0, podName, [0, 0, lag, 0]⟩

theorem schedule_keeps_spread_crowded :
    let schedulable := isSchedulable fun _ => some 0
    let before := Call.after slashRoutes [place "web" 0] (stores crowded)
    let after := Call.after slashRoutes [place "web" 0, place "db" 0] (stores crowded)
    Outcome schedulable (place "db" 0) before.1 (((place "db" 0).run slashRoutes before).1, after.1) ∧
      spread (loads schedulable after.1) ≤ max 1 (spread (loads schedulable (stores crowded).1)) ∧
      loads schedulable (stores crowded).1 = [2, 0] ∧ loads schedulable after.1 = [2, 2] := by
  have hwf : WellFormed (stores crowded).1 := Api.wellFormed crowded _ List.mem_cons_self
  have hnamed : stored .node (stores crowded).1 "" = none := Api.nodes_named crowded _ List.mem_cons_self
  have hcalls : ∀ c ∈ [place "web" 0, place "db" 0], c.age = (fun _ => some 0) ∧ c.lags = [0, 0, 0, 0] ∧
      c.Routed slashRoutes ∧
      (stored .pod (stores crowded).1 c.podName).map (fun pod : Pod => pod.spec.nodeName) = some none := by
    intro c hc
    simp only [List.mem_cons, List.not_mem_nil, or_false] at hc
    rcases hc with rfl | rfl
    · exact ⟨rfl, rfl, ⟨rfl, rfl⟩, by decide +kernel⟩
    · exact ⟨rfl, rfl, ⟨rfl, rfl⟩, by decide +kernel⟩
  have hcurrent : ∀ c ∈ [place "web" 0, place "db" 0], c.Current := by
    intro c hc lag hlag
    rw [(hcalls c hc).2.1] at hlag
    simpa using hlag
  have hp : [place "web" 0] ++ [place "db" 0] <+: [place "web" 0, place "db" 0] := List.prefix_rfl
  have hmain := schedule_keeps_spread hwf hnamed (fun c hc node _ => congrArg (isSchedulable · node) (hcalls c hc).1)
    (by decide) (fun c hc => Option.map_eq_some_iff.mp (hcalls c hc).2.2.2)
    (fun c hc => (hcalls c hc).2.2.1) hcurrent hp
  exact ⟨hmain.1, hmain.2, by decide +kernel, by decide +kernel⟩

/-- Four pods wait for two nodes, one of them with a name that is two in a path. -/
def waiting : List ApiAct :=
  readyNodes ++
    [.start (.create .pod .direct sampleStamp (samplePod "db" none none)), .write 5,
      .start (.create .pod .direct sampleStamp (samplePod "x" none none)), .write 6,
      .start (.create .pod .direct sampleStamp (samplePod "a/b" none none)), .write 7]

/-- The call for `a/b` ends well, and the pod still has no node. And where the pods are counted on a replica
that lags, the next three all go to one node. -/
theorem spread_not_kept :
    let schedulable := isSchedulable fun _ => some 0
    let lagged := Call.after slashRoutes [place "web" 0, place "db" 1, place "x" 2] (stores waiting)
    (((place "a/b" 0).run slashRoutes (stores waiting)).1 = .ok () ∧
      (stored .pod (stores waiting).1 "a/b").map (fun pod : Pod => pod.spec.nodeName) = some none ∧
      ∀ node, ¬ Bound schedulable "a/b" (Call.after slashRoutes [place "a/b" 0] (stores waiting)).1 node) ∧
    ¬ spread (loads schedulable lagged.1) ≤ max 1 (spread (loads schedulable (stores waiting).1)) := by
  have hunbound : assignedAt .pod (Call.after slashRoutes [place "a/b" 0] (stores waiting)).1 "a/b" = none := by
    decide +kernel
  refine ⟨⟨?_, by decide +kernel, fun node h => ?_⟩, by decide +kernel⟩
  · have hok : ((place "a/b" 0).run slashRoutes (stores waiting)).1.isOk = true := by decide +kernel
    cases hrun : ((place "a/b" 0).run slashRoutes (stores waiting)).1 with
    | ok u => rfl
    | error e =>
      rw [hrun] at hok
      cases hok
  · have hbound := h.bound
    rw [hunbound] at hbound
    cases hbound

end Scheduler

end MyK8s.ApiServer
