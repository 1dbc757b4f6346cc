import MyK8s.ApiServer.Allocation
import MyK8s.ApiServer.Alone

/-!
# When the numbers run out

The slices of the nodes and the addresses of the services are numbered from 0 to 255, and the next
number is the one after the highest in use. A create is refused for want of a number as soon as 255
is in use, whatever became of the numbers below it (`exhausted_iff`): nodes that come and go use the
range up with two nodes at a time (`churned_exhausts`).
-/

namespace MyK8s.ApiServer

open ResourceMeta (getMeta stampForCreate)
open Process (Proc)

/-! ## The highest number -/

namespace Allocator

variable {k : Kind} {A : Allocator k}

/-- Every object that has a slice has one of the numbers 0 to 255. -/
def InSpace (A : Allocator k) (objs : List k.Obj) : Prop :=
  ∀ obj ∈ objs, ∀ c, assigned k obj = some c → ∃ n ≤ 255, c = A.slice n

/-- The next number is out of range exactly if the last one is in use. -/
theorem Lawful.nextFree_gt_iff (hA : A.Lawful) {objs : List k.Obj} (h : A.InSpace objs) :
    255 < A.nextFree objs ↔ ∃ obj ∈ objs, assigned k obj = some (A.slice 255) := by
  have hmem : ∀ m, m ∈ (objs.filterMap (assigned k)).filterMap A.index →
      m ≤ 255 ∧ ∃ obj ∈ objs, assigned k obj = some (A.slice m) := by
    intro m hm
    obtain ⟨c, hc, hindex⟩ := List.mem_filterMap.mp hm
    obtain ⟨obj, hobj, hassigned⟩ := List.mem_filterMap.mp hc
    obtain ⟨n, hn, rfl⟩ := h obj hobj c hassigned
    rw [hA.index_slice n hn] at hindex
    obtain rfl := Option.some.inj hindex
    exact ⟨hn, obj, hobj, hassigned⟩
  constructor
  · intro hgt
    unfold nextFree at hgt
    cases hmax : ((objs.filterMap (assigned k)).filterMap A.index).max? with
    | none =>
      rw [hmax] at hgt
      cases hgt
    | some m =>
      rw [hmax] at hgt
      obtain ⟨hle, hobj⟩ := hmem m (List.max?_mem hmax)
      obtain rfl : m = 255 := by simp only at hgt; omega
      exact hobj
  · rintro ⟨obj, hobj, hassigned⟩
    exact lt_nextFree hobj hassigned (hA.index_slice 255 le_rfl)

end Allocator

/-! ## Allocating alone -/

namespace Handlers

variable {k : Kind} {A : Allocator k} {db : Db} {obj : k.Obj} {objs : List k.Obj}

/-- An object that is not registered and brings no slice gets the next one, if there is one. -/
theorem alone_allocate (hwf : WellFormed db) (hobj : assigned k obj = none)
    (hnew : stored k db (getMeta obj).name = none)
    (hitems : ResourceStore.items k.Obj db = .ok objs) :
    (allocate A obj).alone db =
      if 255 < A.nextFree objs then (.error (.internal (A.exhausted (A.nextFree objs))), db)
      else (.ok (A.assign obj (A.slice (A.nextFree objs))), db) := by
  unfold allocate
  rw [if_neg (by rw [hobj]; decide), Handler.alone_bind_ok (Handler.alone_get hwf k _), hnew,
    if_neg (by simp), Handler.alone_bind_ok (Handler.alone_list hitems)]
  simp only [gt_iff_lt]
  split <;> rfl

/-- A create with a free number: the object is stored under it, and nothing else changes. -/
theorem alone_allocate_create (hA : A.Lawful) (hwf : WellFormed db) (hobj : assigned k obj = none)
    (hnew : stored k db (getMeta obj).name = none)
    (hname : ∀ c, (getMeta (A.assign obj c)).name = (getMeta obj).name)
    (hitems : ResourceStore.items k.Obj db = .ok objs) (hle : A.nextFree objs ≤ 255)
    (stamp : Stamp) : ∃ created db',
      (allocate A obj >>= create k stamp).alone db = (.ok created, db') ∧ WellFormed db' ∧
        (∀ other, stored k db' other =
          if (getMeta obj).name = other then some created else stored k db other) ∧
        assigned k created = some (A.slice (A.nextFree objs)) := by
  have hallocate := alone_allocate (A := A) hwf hobj hnew hitems
  rw [if_neg (by omega)] at hallocate
  rw [Handler.alone_bind_ok hallocate]
  set fresh := stampForCreate stamp.uid stamp.timestamp (A.assign obj (A.slice (A.nextFree objs)))
  have hfresh : (getMeta fresh).name = (getMeta obj).name := by
    simp [fresh, stampForCreate, hname]
  have hstarts : (ApiOp.create fresh).storeOp.StartsFrom db fresh :=
    ⟨by rw [hfresh]; exact hwf.stored_eq_none.mp hnew, rfl⟩
  have hcreated : assigned k ((ApiOp.create fresh).storeOp.effect db fresh).1 = assigned k fresh :=
    assigned_effect (.create fresh) db fresh
  refine ⟨_, _, ApiCall.exec_of_startsFrom hstarts, ?_, fun other => ?_, ?_⟩
  · exact @WellFormed.step db hwf ⟨k, (ApiOp.create fresh).storeOp⟩ trivial Faults.none
  · refine (hstarts.stored_step other).trans (if_congr ?_ rfl rfl)
    exact ⟨fun heq => hfresh.symm.trans heq, fun heq => hfresh.trans heq⟩
  · rw [hcreated, assigned_stampForCreate, hA.assigned_assign]

/-- **One create**: it is refused for want of a number exactly if the last number is in use. -/
theorem exhausted_alone_iff (hA : A.Lawful) (hwf : WellFormed db) (hobj : assigned k obj = none)
    (hnew : stored k db (getMeta obj).name = none)
    (hname : ∀ c, (getMeta (A.assign obj c)).name = (getMeta obj).name)
    (hspace : ∀ name c, assignedAt k db name = some c → ∃ n ≤ 255, c = A.slice n) (stamp : Stamp) :
    (∃ idx, ((allocate A obj >>= create k stamp).alone db).1 =
      .error (.internal (A.exhausted idx))) ↔
      ∃ name, assignedAt k db name = some (A.slice 255) := by
  obtain ⟨objs, hitems, hmem, -⟩ := hwf.items_ok k
  have hat : ∀ c, (∃ obj ∈ objs, assigned k obj = some c) ↔ ∃ name, assignedAt k db name = some c := by
    intro c
    constructor
    · rintro ⟨o, ho, hc⟩
      refine ⟨(getMeta o).name, ?_⟩
      rw [assignedAt, hwf.stored_eq_some.mpr ⟨rfl, (hmem o).mp ho⟩]
      exact hc
    · rintro ⟨name, hc⟩
      obtain ⟨o, ho, hc⟩ := Option.bind_eq_some_iff.mp hc
      exact ⟨o, (hmem o).mpr (hwf.stored_eq_some.mp ho).2, hc⟩
  have hin : A.InSpace objs := by
    intro o ho c hc
    obtain ⟨name, hname⟩ := (hat c).mp ⟨o, ho, hc⟩
    exact hspace name c hname
  rw [← hat, ← hA.nextFree_gt_iff hin]
  by_cases hgt : 255 < A.nextFree objs
  · have herr := alone_allocate (A := A) hwf hobj hnew hitems
    rw [if_pos hgt] at herr
    rw [Handler.alone_bind_error herr]
    exact iff_of_true ⟨_, rfl⟩ hgt
  · obtain ⟨created, db', hcreate, -⟩ := alone_allocate_create hA hwf hobj hnew hname hitems
      (Nat.not_lt.mp hgt) stamp
    rw [hcreate]
    refine iff_of_false ?_ hgt
    rintro ⟨idx, herr⟩
    cases herr

/-! ### The two handlers, past their checks -/

section Gate

variable {path : WritePath} (hpath : path.gate = pure ()) (stamp : Stamp)

theorem validateName_of_ne {name : String} (h : name ≠ "") : validateName name = .ok () :=
  if_neg (by simpa [String.isEmpty_iff] using h)

include hpath

theorem createNode_eq {node : Node} (h : node.metadata.name ≠ "") :
    createNode path stamp node = (allocate nodeCidrs node >>= create .node stamp) := by
  unfold createNode validateNode
  rw [validateName_of_ne h, hpath]
  rfl

theorem createService_eq {svc : Service} (h : svc.metadata.name ≠ "") :
    createService path stamp svc = (allocate clusterIps svc >>= create .service stamp) := by
  unfold createService validateService
  rw [validateName_of_ne h, hpath]
  rfl

end Gate

end Handlers

/-! ## Runs -/

section Space

/-- What the objects of the kind have been assigned is numbered from 0 to 255. -/
def SpaceKept {k : Kind} (A : Allocator k) (db : Db) : Prop :=
  ∀ name c, assignedAt k db name = some c → ∃ n ≤ 255, c = A.slice n

/-- What a call brings to its kind is numbered so. -/
def ApiCall.InSpace : ApiCall → Prop
  | ⟨.node, .create obj⟩ => ∀ c, assigned .node obj = some c → ∃ n ≤ 255, c = Handlers.nodeCidrs.slice n
  | ⟨.service, .create obj⟩ =>
    ∀ c, assigned .service obj = some c → ∃ n ≤ 255, c = Handlers.clusterIps.slice n
  | ⟨_, .delete _ _⟩ => True
  | _ => False

variable {k : Kind} {A : Allocator k} {db : Db}

theorem SpaceKept.other (h : SpaceKept A db) {call : ApiCall} (hk : call.kind ≠ k) :
    SpaceKept A (call.exec db).2 := by
  obtain ⟨k', op⟩ := call
  rw [ApiCall.exec_snd, ApiCall.storeCall]
  by_cases hbase : ∃ base, op.storeOp.StartsFrom db base
  · obtain ⟨base, hbase⟩ := hbase
    intro name c hc
    unfold assignedAt at hc
    rw [hbase.stored_step_of_ne hk] at hc
    exact h name c hc
  · rwa [step_of_not_startsFrom hbase]

theorem SpaceKept.create (h : SpaceKept A db) {obj : k.Obj}
    (hobj : ∀ c, assigned k obj = some c → ∃ n ≤ 255, c = A.slice n) :
    SpaceKept A (ApiCall.exec ⟨k, .create obj⟩ db).2 := by
  rw [ApiCall.exec_snd, ApiCall.storeCall]
  by_cases hbase : ∃ base, (ApiOp.create obj).storeOp.StartsFrom db base
  · obtain ⟨base, hbase⟩ := hbase
    intro name c hc
    rw [assignedAt_step hbase] at hc
    split at hc
    · refine hobj c ?_
      rw [← hc]
      exact (assigned_effect (.create obj) db base).symm
    · exact h name c hc
  · rwa [step_of_not_startsFrom hbase]

theorem SpaceKept.delete (h : SpaceKept A db) (name rv : String) :
    SpaceKept A (ApiCall.exec ⟨k, .delete name rv⟩ db).2 := by
  rw [ApiCall.exec_snd, ApiCall.storeCall]
  by_cases hbase : ∃ base, (ApiOp.delete name rv : ApiOp k).storeOp.StartsFrom db base
  · obtain ⟨base, hbase⟩ := hbase
    intro name' c hc
    rw [assignedAt_step hbase] at hc
    split at hc
    · cases hc
    · exact h name' c hc
  · rwa [step_of_not_startsFrom hbase]

/-- The numbers of both kinds. -/
def SpacesKept (db : Db) : Prop := SpaceKept Handlers.nodeCidrs db ∧ SpaceKept Handlers.clusterIps db

theorem SpacesKept.exec (h : SpacesKept db) {call : ApiCall} (hcall : call.InSpace) :
    SpacesKept (call.exec db).2 := by
  obtain ⟨k, op⟩ := call
  cases op with
  | create obj =>
    cases k with
    | node => exact ⟨h.1.create hcall, h.2.other (by simp)⟩
    | service => exact ⟨h.1.other (by simp), h.2.create hcall⟩
    | _ => cases hcall
  | delete name rv =>
    cases k with
    | node => exact ⟨h.1.delete name rv, h.2.other (by simp)⟩
    | service => exact ⟨h.1.other (by simp), h.2.delete name rv⟩
    | _ => exact ⟨h.1.other (by simp), h.2.other (by simp)⟩
  | _ => cases k <;> cases hcall

/-- What has been drawn from a list is in the range. -/
theorem Drawn.inSpace {seen : List Db} {obj : k.Obj} (h : Drawn A seen obj) :
    ∀ c, assigned k obj = some c → ∃ n ≤ 255, c = A.slice n := by
  intro c hc
  obtain ⟨listed, checked, rest, objs, -, -, hle, hslice⟩ := h c hc
  exact ⟨_, hle, hslice⟩

theorem Allots.inSpace {seen : List Db} {call : ApiCall} (h : Allots seen call) : call.InSpace := by
  obtain ⟨k, op⟩ := call
  cases op with
  | create obj =>
    cases k with
    | node => exact Drawn.inSpace h
    | service => exact Drawn.inSpace h
    | _ => cases h
  | delete name rv => cases k <;> trivial
  | _ => cases k <;> cases h

theorem spacesKept_run (acts : List ApiAct) (hallocates : ∀ r, .start r ∈ acts → r.Allocates) :
    ∀ db ∈ (Api.start.run acts).states, SpacesKept db := by
  have hempty : SpacesKept ∅ := by
    constructor <;> intro name c hc <;> simp [assignedAt, stored, ResourceStore.get] at hc
  have hexec : ∀ (call : ApiCall) db, call.InSpace → SpacesKept db → SpacesKept (call.exec db).2 :=
    fun _ _ hcall h => h.exec hcall
  refine Process.System.invariant hempty hexec fun r hr => ?_
  exact Proc.wp_mono (fun seen call h _ => h.inSpace) (fun _ _ _ => trivial) (hallocates r hr).wp

end Space

/-! ## Churn -/

section Churn

variable {k : Kind} {A : Allocator k} {db : Db} {name : String} {obj : k.Obj} {n : ℕ}

/-- There is one object of the kind, with this name. -/
structure OnlyOne (k : Kind) (db : Db) (name : String) (obj : k.Obj) : Prop where
  wellFormed : WellFormed db
  only : ∀ other, stored k db other = if name = other then some obj else none

theorem OnlyOne.mem_items (h : OnlyOne k db name obj) {objs : List k.Obj}
    (hitems : ResourceStore.items k.Obj db = .ok objs) (o : k.Obj) : o ∈ objs ↔ o = obj := by
  obtain ⟨objs', hitems', hmem, -⟩ := h.wellFormed.items_ok k
  obtain rfl := Except.ok.inj (hitems.symm.trans hitems')
  rw [hmem]
  constructor
  · intro ho
    have hstored := h.wellFormed.stored_eq_some.mpr ⟨rfl, ho⟩
    rw [h.only] at hstored
    split at hstored
    · exact (Option.some.inj hstored).symm
    · cases hstored
  · rintro rfl
    exact (h.wellFormed.stored_eq_some.mp ((h.only name).trans (if_pos rfl))).2

/-- The number after that of the one object is free. -/
theorem OnlyOne.nextFree (h : OnlyOne k db name obj) (hA : A.Lawful) (hn : n ≤ 255)
    (hobj : assigned k obj = some (A.slice n)) {objs : List k.Obj}
    (hitems : ResourceStore.items k.Obj db = .ok objs) : A.nextFree objs = n + 1 := by
  have hnumbers : ∀ m, m ∈ (objs.filterMap (assigned k)).filterMap A.index ↔ m = n := by
    intro m
    simp only [List.mem_filterMap]
    constructor
    · rintro ⟨c, ⟨o, ho, hc⟩, hm⟩
      obtain rfl := (h.mem_items hitems o).mp ho
      obtain rfl := Option.some.inj (hobj.symm.trans hc)
      rw [hA.index_slice n hn] at hm
      exact (Option.some.inj hm).symm
    · rintro rfl
      exact ⟨_, ⟨obj, (h.mem_items hitems obj).mpr rfl, hobj⟩, hA.index_slice m hn⟩
  have hmax : ((objs.filterMap (assigned k)).filterMap A.index).max? = some n :=
    List.max?_eq_some_iff.mpr ⟨(hnumbers n).mpr rfl, fun m hm => ((hnumbers m).mp hm).le⟩
  unfold Allocator.nextFree
  rw [hmax]

/-- Another object is created and the first one deleted: the new one has the next number. -/
theorem OnlyOne.replaced (h : OnlyOne k db name obj) (hA : A.Lawful) (hn : n < 255)
    (hobj : assigned k obj = some (A.slice n)) {new : k.Obj} (hnew : assigned k new = none)
    (hne : name ≠ (getMeta new).name)
    (hassign : ∀ c, (getMeta (A.assign new c)).name = (getMeta new).name) (stamp : Stamp) :
    ∃ created, OnlyOne k ((Handlers.delete k name (some (version obj))).alone
        ((Handlers.allocate A new >>= Handlers.create k stamp).alone db).2).2
          (getMeta new).name created ∧
        assigned k created = some (A.slice (n + 1)) := by
  obtain ⟨objs, hitems, -⟩ := h.wellFormed.items_ok k
  have hfree : stored k db (getMeta new).name = none := (h.only _).trans (if_neg hne)
  have hnext := h.nextFree hA (by omega) hobj hitems
  obtain ⟨created, mid, hcreate, hwf, hmid, hcreated⟩ :=
    Handlers.alone_allocate_create hA h.wellFormed hnew hfree hassign hitems (by omega) stamp
  rw [hcreate]
  have hdelete : (ApiOp.delete name (version obj) : ApiOp k).storeOp.StartsFrom mid obj := by
    refine ⟨stored_eq_some_iff.mp ?_, rfl⟩
    show stored k mid name = some obj
    rw [hmid, if_neg hne.symm, h.only, if_pos rfl]
  have halone : (Handlers.delete k name (some (version obj))).alone mid =
      (.ok ((ApiOp.delete name (version obj) : ApiOp k).storeOp.effect mid obj).1,
        StoreCall.step mid (⟨k, (ApiOp.delete name (version obj) : ApiOp k).storeOp⟩, Faults.none)) :=
    ApiCall.exec_of_startsFrom hdelete
  rw [halone]
  refine ⟨created, ⟨?_, fun other => ?_⟩, hnext ▸ hcreated⟩
  · exact @WellFormed.step mid hwf ⟨k, (ApiOp.delete name (version obj) : ApiOp k).storeOp⟩ trivial _
  · refine (hdelete.stored_step other).trans ?_
    show (if name = other then none else stored k mid other) = _
    rw [hmid, h.only]
    by_cases hother : name = other
    · rw [if_pos hother, if_neg (hother ▸ hne.symm)]
    · rw [if_neg hother, if_neg hother]

end Churn

/-- A node is created and the one before it is deleted, again and again. -/
def churnNode (n : ℕ) : Request :=
  .create .node .direct sampleStamp (sampleNode (toString n))

theorem serve_churnNode (db : Db) (n : ℕ) : serve db (churnNode n) =
    ((Handlers.allocate Handlers.nodeCidrs (sampleNode (toString n)) >>=
      Handlers.create .node sampleStamp).alone db).2 := by
  have hname : (sampleNode (toString n)).metadata.name ≠ "" := by simp [sampleNode]
  have hdirect : WritePath.direct.gate = pure () := rfl
  rw [← Handlers.createNode_eq hdirect sampleStamp hname]
  unfold serve churnNode Request.code
  rw [Proc.alone_bind]
  rfl

/-- **Churn.** Every number is reached with two nodes at a time. -/
theorem churned (n : ℕ) (hn : n ≤ 255) : ∃ (rs : List Request) (node : Node),
    (∀ r ∈ rs, r.Allocates) ∧ OnlyOne .node (rs.foldl serve ∅) (toString n) node ∧
      assigned .node node = some (Handlers.nodeCidrs.slice n) := by
  induction n with
  | zero =>
    obtain ⟨created, db', hcreate, hwf, honly, hassigned⟩ :=
      @Handlers.alone_allocate_create .node _ ∅ (sampleNode (toString 0)) []
        nodeCidrs_lawful WellFormed.empty rfl rfl (fun _ => rfl) rfl (by decide) sampleStamp
    refine ⟨[churnNode 0], created, fun r hr => ?_, ⟨?_, fun other => ?_⟩, hassigned⟩
    · obtain rfl := List.mem_singleton.mp hr
      exact ⟨.inl rfl, rfl⟩
    · rw [List.foldl_cons, List.foldl_nil, serve_churnNode, hcreate]
      exact hwf
    · rw [List.foldl_cons, List.foldl_nil, serve_churnNode, hcreate]
      exact honly other
  | succ n ih =>
    obtain ⟨rs, node, hrs, honly, hassigned⟩ := ih (by omega)
    have hfresh : assigned .node (sampleNode (toString (n + 1))) = none := rfl
    obtain ⟨created, hcreated, hnext⟩ := honly.replaced nodeCidrs_lawful hn hassigned hfresh
      (fun heq => absurd (Decimal.toString_injective heq) (by omega)) (fun _ => rfl) sampleStamp
    refine ⟨rs ++ [churnNode (n + 1), .delete .node (toString n) (some (version node))], created,
      fun r hr => ?_, ?_, hnext⟩
    · rcases List.mem_append.mp hr with hr | hr
      · exact hrs r hr
      · simp only [List.mem_cons, List.not_mem_nil, or_false] at hr
        obtain rfl | rfl := hr
        · exact ⟨.inl rfl, rfl⟩
        · trivial
    · rw [List.foldl_append, List.foldl_cons, List.foldl_cons, List.foldl_nil, serve_churnNode]
      exact hcreated

/-! ## Exhaustion -/

/-- **Exhaustion.** In every run of creates that bring no slice of their own and of deletes, a create of
a new name is refused for want of a number if and only if a live object has the number 255, whatever
other numbers are free. -/
theorem exhausted_iff (acts : List ApiAct) (hallocates : ∀ r, .start r ∈ acts → r.Allocates)
    (path : WritePath) (hpath : path.gate = pure ()) (stamp : Stamp) :
    (∀ node : Node, node.metadata.name ≠ "" → node.spec.podCIDR = none →
      stored .node (Api.start.run acts).now node.metadata.name = none →
      ((∃ idx, ((Handlers.createNode path stamp node).alone (Api.start.run acts).now).1 =
          .error (.internal (Handlers.nodeCidrs.exhausted idx))) ↔
        ∃ name, assignedAt .node (Api.start.run acts).now name =
          some (Handlers.nodeCidrs.slice 255))) ∧
    ∀ svc : Service, svc.metadata.name ≠ "" → svc.spec.clusterIP = none →
      stored .service (Api.start.run acts).now svc.metadata.name = none →
      ((∃ idx, ((Handlers.createService path stamp svc).alone (Api.start.run acts).now).1 =
          .error (.internal (Handlers.clusterIps.exhausted idx))) ↔
        ∃ name, assignedAt .service (Api.start.run acts).now name =
          some (Handlers.clusterIps.slice 255)) := by
  have hwf := Api.wellFormed acts _ List.mem_cons_self
  have hspace := spacesKept_run acts hallocates _ List.mem_cons_self
  constructor
  · intro node hname hcidr hnew
    rw [Handlers.createNode_eq hpath stamp hname]
    exact Handlers.exhausted_alone_iff nodeCidrs_lawful hwf hcidr hnew (fun _ => rfl) hspace.1 stamp
  · intro svc hname hip hnew
    rw [Handlers.createService_eq hpath stamp hname]
    exact Handlers.exhausted_alone_iff clusterIps_lawful hwf hip hnew (fun _ => rfl) hspace.2 stamp

theorem exhausted_churned : ∃ acts : List ApiAct, (∀ r, .start r ∈ acts → r.Allocates) ∧
    ∃ idx, ((Handlers.createNode .direct sampleStamp (sampleNode "late")).alone
      (Api.start.run acts).now).1 = .error (.internal (Handlers.nodeCidrs.exhausted idx)) := by
  obtain ⟨rs, node, hrs, honly, hassigned⟩ := churned 255 le_rfl
  obtain ⟨acts, hstart, hnow⟩ := serve_eq_run rs
  have hallocates : ∀ r, .start r ∈ acts → r.Allocates := fun r hr => hrs r (hstart r hr)
  refine ⟨acts, hallocates, ?_⟩
  refine ((exhausted_iff acts hallocates .direct rfl sampleStamp).1 (sampleNode "late")
    (by decide) rfl ?_).mpr ⟨toString 255, ?_⟩
  · rw [hnow]
    exact (honly.only _).trans (if_neg (by decide))
  · unfold assignedAt
    rw [hnow, honly.only, if_pos rfl]
    exact hassigned

/-- After 256 creates and 255 deletes one node is left, and no other can be created. -/
theorem churned_exhausts : ∃ rs : List Request, (∀ r ∈ rs, r.Allocates) ∧
    (∃ idx, ((Handlers.createNode .direct sampleStamp (sampleNode "late")).alone
      (rs.foldl serve ∅)).1 = .error (.internal (Handlers.nodeCidrs.exhausted idx))) ∧
    ∀ n ≤ 254, ∀ name, assignedAt .node (rs.foldl serve ∅) name ≠
      some (Handlers.nodeCidrs.slice n) := by
  obtain ⟨rs, node, hrs, honly, hassigned⟩ := churned 255 le_rfl
  have hat : ∀ name c, assignedAt .node (rs.foldl serve ∅) name = some c →
      c = Handlers.nodeCidrs.slice 255 := by
    intro name c hc
    unfold assignedAt at hc
    rw [honly.only] at hc
    split at hc
    · exact Option.some.inj (hc.symm.trans hassigned)
    · cases hc
  refine ⟨rs, hrs, ?_, fun n hn name hname => ?_⟩
  · rw [Handlers.createNode_eq rfl sampleStamp (by decide)]
    refine (Handlers.exhausted_alone_iff nodeCidrs_lawful honly.wellFormed rfl
      ((honly.only _).trans (if_neg (by decide))) (fun _ => rfl)
      (fun name c hc => ⟨255, le_rfl, hat name c hc⟩) sampleStamp).mpr ⟨toString 255, ?_⟩
    unfold assignedAt
    rw [honly.only, if_pos rfl]
    exact hassigned
  · have hslice := congrArg Handlers.nodeCidrs.index (hat name _ hname)
    rw [nodeCidrs_lawful.index_slice n (by omega), nodeCidrs_lawful.index_slice 255 le_rfl] at hslice
    have := Option.some.inj hslice
    omega

end MyK8s.ApiServer
