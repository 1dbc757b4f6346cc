import MyK8s.ApiServer.Assignments

/-!
# The slices of nodes and the addresses of services

A node that is created without a slice gets the one after the last that the list shows, and so does a
service with its address. The list is read first, and the create writes later: it checks the name and
nothing else.

`slices_distinct`: no two nodes have one slice and no two services one address, if the list of every create
that takes effect still shows all that are there.
-/

namespace MyK8s.ApiServer

open ResourceMeta (getMeta stampForCreate)
open Process (Proc)

/-! ## Slices and their numbers -/

namespace Allocator

variable {k : Kind} (A : Allocator k)

/-- A slice that is handed out is read as its number, and is what the object then has. -/
structure Lawful : Prop where
  index_slice : ∀ n ≤ 255, A.index (A.slice n) = some n
  assigned_assign : ∀ obj c, assigned k (A.assign obj c) = some c

variable {A}

/-- The next slice has a number beyond all that the objects have. -/
theorem lt_nextFree {objs : List k.Obj} {obj : k.Obj} {c : String} {n : ℕ} (hobj : obj ∈ objs)
    (hc : assigned k obj = some c) (hn : A.index c = some n) : n < A.nextFree objs := by
  have hmem : n ∈ (objs.filterMap (assigned k)).filterMap A.index :=
    List.mem_filterMap.mpr ⟨c, List.mem_filterMap.mpr ⟨obj, hobj, hc⟩, hn⟩
  unfold nextFree
  cases hmax : ((objs.filterMap (assigned k)).filterMap A.index).max? with
  | none =>
    rw [List.max?_eq_none_iff] at hmax
    rw [hmax] at hmem
    cases hmem
  | some m =>
    have hle : n ≤ m := (List.max?_le_iff hmax).mp le_rfl n hmem
    simp only
    omega

/-- The next slice is none that the objects have. -/
theorem Lawful.slice_nextFree_ne (hA : A.Lawful) {objs : List k.Obj} {obj : k.Obj}
    (hobj : obj ∈ objs) (hle : A.nextFree objs ≤ 255) :
    assigned k obj ≠ some (A.slice (A.nextFree objs)) := fun hc =>
  lt_irrefl _ (lt_nextFree hobj hc (hA.index_slice _ hle))

end Allocator

/-- A number has no dots. -/
theorem toList_toString_ne_dot (n : ℕ) : ∀ d ∈ (toString n).toList, d ≠ '.' := by
  rintro d hd rfl
  rw [Decimal.toList_toString] at hd
  have hdigit := List.all_eq_true.mp (Decimal.all_isDigit_toDigits n) '.' hd
  exact absurd hdigit (by decide)

theorem nodeCidrs_lawful : Handlers.nodeCidrs.Lawful where
  index_slice n hn := by
    have hparse : parseU64 (toString n) = some n :=
      Decimal.parse_toString (hn.trans (by decide))
    have hsplit : splitOnce '.' (toString n ++ ".0/24") = some (toString n, "0/24") :=
      splitOnce_append (toList_toString_ne_dot n) "0/24".toList
    have hassoc : "10.244" ++ "." ++ toString n ++ ".0/24" =
        ("10.244" ++ ".") ++ (toString n ++ ".0/24") := String.append_assoc
    change (stripPrefix ("10.244" ++ ".") ("10.244" ++ "." ++ toString n ++ ".0/24")).bind
      (fun rest => (splitOnce '.' rest).bind fun split => parseU64 split.1) = some n
    rw [hassoc, stripPrefix_append, Option.bind_some, hsplit]
    exact hparse
  assigned_assign _ _ := rfl

theorem clusterIps_lawful : Handlers.clusterIps.Lawful where
  index_slice n hn := by
    have hparse : parseU64 (toString n) = some n :=
      Decimal.parse_toString (hn.trans (by decide))
    change (stripPrefix ("10.96.0" ++ ".") ("10.96.0" ++ "." ++ toString n)).bind parseU64 = some n
    rw [stripPrefix_append]
    exact hparse
  assigned_assign _ _ := rfl

/-! ## What a create brings -/

section Drawn

variable {k : Kind} {A : Allocator k} {seen : List Db} {obj : k.Obj}

/-- What the object has been assigned, if anything, is next in the list that was read last. -/
def Drawn (A : Allocator k) (seen : List Db) (obj : k.Obj) : Prop :=
  ∀ c, assigned k obj = some c → ∃ listed checked rest objs, seen = listed :: checked :: rest ∧
    ResourceStore.items k.Obj listed = .ok objs ∧ A.nextFree objs ≤ 255 ∧
      c = A.slice (A.nextFree objs)

theorem assigned_stampForCreate (uid timestamp : String) (obj : k.Obj) :
    assigned k (stampForCreate uid timestamp obj) = assigned k obj := by
  cases k <;> rfl

theorem writes_allocate_create (hA : A.Lawful) {P : List Db → ApiCall → Prop} {stamp : Stamp}
    (hobj : assigned k obj = none) (hP : ∀ seen obj, Drawn A seen obj → P seen ⟨k, .create obj⟩) :
    Proc.writes P (fun _ _ => True) (Handlers.allocate A obj >>= Handlers.create k stamp) seen := by
  have hcreate : ∀ seen obj, Drawn A seen obj →
      Proc.writes P (fun _ _ => True) (Handlers.create k stamp obj) seen := by
    intro seen obj hdrawn
    refine Handlers.writes_create (hP _ _ fun c hc => hdrawn c ?_)
    rwa [assigned_stampForCreate] at hc
  have hnone : ∀ seen, Drawn A seen obj := by
    intro seen c hc
    rw [hobj] at hc
    cases hc
  refine Proc.writes_bind.mpr (Handlers.writes_allocate ?_ ?_ ?_)
  · exact fun _ => hcreate _ _ (hnone _)
  · exact fun _ => hcreate _ _ (hnone _)
  · intro db listed objs hobjs hle
    refine hcreate _ _ fun c hc => ⟨listed, db, seen, objs, rfl, hobjs, hle, ?_⟩
    rw [hA.assigned_assign] at hc
    exact (Option.some.inj hc).symm

end Drawn

/-! ## The requests -/

/-- A create of a node without a slice or a service without an address, or a delete. -/
def Request.Allocates : Request → Prop
  | .create k _ _ obj => (k = .node ∨ k = .service) ∧ assigned k obj = none
  | .delete _ _ _ => True
  | _ => False

/-- What such requests write. -/
def Allots (seen : List Db) (call : ApiCall) : Prop :=
  match call with
  | ⟨.node, .create obj⟩ => Drawn Handlers.nodeCidrs seen obj
  | ⟨.service, .create obj⟩ => Drawn Handlers.clusterIps seen obj
  | ⟨_, .delete _ _⟩ => True
  | _ => False

theorem Request.Allocates.wp {r : Request} (h : r.Allocates) :
    Proc.wp Allots (fun _ _ => True) r.code [] := by
  cases r with
  | create k path stamp obj =>
    obtain ⟨rfl | rfl, hobj⟩ := h
    · refine wp_discard (Proc.writes_bind.mpr (Handler.writes_lift.mpr fun _ _ => ?_))
      refine Proc.writes_bind.mpr (writes_gate path ?_)
      exact writes_allocate_create nodeCidrs_lawful hobj fun _ _ hdrawn => hdrawn
    · refine wp_discard (Proc.writes_bind.mpr (Handler.writes_lift.mpr fun _ _ => ?_))
      refine Proc.writes_bind.mpr (writes_gate path ?_)
      exact writes_allocate_create clusterIps_lawful hobj fun _ _ hdrawn => hdrawn
  | delete k name rv =>
    refine wp_discard (writes_deleteHandler fun rv => ?_)
    cases k <;> exact trivial
  | _ => cases h

/-! ## Distinct slices -/

/-- No two objects of the kind have been assigned the same. -/
def DistinctSlices (k : Kind) (db : Db) : Prop :=
  ∀ name name' c, assignedAt k db name = some c → assignedAt k db name' = some c → name = name'

/-- If the call creates an object, its list has shown all that have now what the object brings. -/
def ApiCall.Shown (seen : List Db) (db : Db) (call : ApiCall) : Prop :=
  match call.op with
  | .create obj => stored call.kind db (getMeta obj).name = none → ∀ c name,
    assigned call.kind obj = some c → assignedAt call.kind db name = some c →
      ∀ listed, seen.head? = some listed → assignedAt call.kind listed name = some c
  | _ => True

/-- If the call creates an object after a check and a list, the list shows what all that are there now have
been assigned. -/
def ApiCall.Current (seen : List Db) (db : Db) (call : ApiCall) : Prop :=
  match call.op, seen with
  | .create obj, listed :: _ :: _ => stored call.kind db (getMeta obj).name = none →
      ∀ other ∈ (ResourceStore.items call.kind.Obj db).toOption.getD [], ∀ c ∈ assigned call.kind other,
        assignedAt call.kind listed (getMeta other).name = some c
  | _, _ => True

instance (seen : List Db) (db : Db) : (call : ApiCall) → Decidable (call.Current seen db)
  | ⟨k, .create obj⟩ =>
    match seen with
    | listed :: _ :: _ => inferInstanceAs (Decidable (stored k db (getMeta obj).name = none →
        ∀ other ∈ (ResourceStore.items k.Obj db).toOption.getD [], ∀ c ∈ assigned k other,
          assignedAt k listed (getMeta other).name = some c))
    | [_] => .isTrue trivial
    | [] => .isTrue trivial
  | ⟨_, .replaceSpec _ _⟩ => .isTrue trivial
  | ⟨_, .replaceStatus _ _ _⟩ => .isTrue trivial
  | ⟨_, .delete _ _⟩ => .isTrue trivial

section Step

variable {k : Kind} {db : Db}

/-- A list that shows all that are there shows those that have what the create brings. -/
theorem ApiCall.Current.shown {A : Allocator k} {seen : List Db} {obj : k.Obj}
    (h : ApiCall.Current seen db ⟨k, .create obj⟩) (hwf : WellFormed db) (hdrawn : Drawn A seen obj) :
    ApiCall.Shown seen db ⟨k, .create obj⟩ := by
  intro hfree c name hc hname listed hhead
  obtain ⟨listed', checked, rest, objs, rfl, -, -, -⟩ := hdrawn c hc
  obtain rfl := Option.some.inj hhead
  obtain ⟨other, hother, hslice⟩ := Option.bind_eq_some_iff.mp hname
  obtain ⟨hother_name, hcell⟩ := hwf.stored_eq_some.mp hother
  obtain ⟨all, hall, hmem, -⟩ := hwf.items_ok k
  have hin : other ∈ (ResourceStore.items k.Obj db).toOption.getD [] := by
    rw [hall]
    exact (hmem other).mpr hcell
  have hshown := h hfree other hin c hslice
  rwa [hother_name] at hshown

theorem assignedAt_step {op : ApiOp k} {base : k.Obj} (h : op.storeOp.StartsFrom db base)
    (name : String) :
    assignedAt k (StoreCall.step db (⟨k, op.storeOp⟩, Faults.none)) name =
      if op.storeOp.name = name then
        (WatchEvent.value ⟨op.storeOp.eventType, (op.storeOp.effect db base).1⟩).bind (assigned k)
      else assignedAt k db name := by
  unfold assignedAt
  rw [h.stored_step]
  split <;> rfl

/-- A call on another kind. -/
theorem DistinctSlices.other (h : DistinctSlices k db) {call : ApiCall} (hk : call.kind ≠ k) :
    DistinctSlices k (call.exec db).2 := by
  obtain ⟨k', op⟩ := call
  rw [ApiCall.exec_snd, ApiCall.storeCall]
  by_cases hbase : ∃ base, op.storeOp.StartsFrom db base
  · obtain ⟨base, hbase⟩ := hbase
    have hsame : ∀ name, assignedAt k (StoreCall.step db (⟨k', op.storeOp⟩, Faults.none)) name =
        assignedAt k db name := by
      intro name
      unfold assignedAt
      rw [hbase.stored_step_of_ne hk]
    intro name name' c hc hc'
    rw [hsame] at hc hc'
    exact h name name' c hc hc'
  · rwa [step_of_not_startsFrom hbase]

theorem DistinctSlices.delete (h : DistinctSlices k db) (name rv : String) :
    DistinctSlices k (ApiCall.exec ⟨k, .delete name rv⟩ db).2 := by
  rw [ApiCall.exec_snd, ApiCall.storeCall]
  by_cases hbase : ∃ base, (ApiOp.delete name rv : ApiOp k).storeOp.StartsFrom db base
  · obtain ⟨base, hbase⟩ := hbase
    have hold : ∀ n c, assignedAt k
        (StoreCall.step db (⟨k, (ApiOp.delete name rv : ApiOp k).storeOp⟩, Faults.none)) n = some c →
        assignedAt k db n = some c := by
      intro n c hc
      rw [assignedAt_step hbase] at hc
      split at hc
      · cases hc
      · exact hc
    exact fun n n' c hc hc' => h n n' c (hold n c hc) (hold n' c hc')
  · rwa [step_of_not_startsFrom hbase]

/-- What the list has shown does not have the slice that comes next. -/
theorem Drawn.not_shown {A : Allocator k} {seen : List Db} {obj : k.Obj} (hdrawn : Drawn A seen obj)
    (hA : A.Lawful) (hseen : ∀ db ∈ seen, WellFormed db) {c name : String}
    (hc : assigned k obj = some c) :
    ¬ ∀ listed, seen.head? = some listed → assignedAt k listed name = some c := by
  intro hshown
  obtain ⟨listed, checked, rest, objs, rfl, hobjs, hle, rfl⟩ := hdrawn c hc
  obtain ⟨other, hother, hslice⟩ := Option.bind_eq_some_iff.mp (hshown listed rfl)
  have hwf := hseen listed List.mem_cons_self
  obtain ⟨objs', hobjs', hmem, -⟩ := hwf.items_ok k
  obtain rfl := Except.ok.inj (hobjs.symm.trans hobjs')
  exact hA.slice_nextFree_ne ((hmem other).mpr (hwf.stored_eq_some.mp hother).2) hle hslice

/-- **A create** keeps slices distinct if and only if its list was complete in what matters. -/
theorem DistinctSlices.create_iff (h : DistinctSlices k db) (hwf : WellFormed db)
    {A : Allocator k} (hA : A.Lawful) {seen : List Db} (hseen : ∀ db ∈ seen, WellFormed db)
    {obj : k.Obj} (hdrawn : Drawn A seen obj) :
    DistinctSlices k (ApiCall.exec ⟨k, .create obj⟩ db).2 ↔
      ApiCall.Shown seen db ⟨k, .create obj⟩ := by
  rw [ApiCall.exec_snd, ApiCall.storeCall]
  by_cases hcell : db[key k.Obj (getMeta obj).name]? = none
  · have hbase : (ApiOp.create obj).storeOp.StartsFrom db obj := ⟨hcell, rfl⟩
    have hfree : stored k db (getMeta obj).name = none := stored_of_getElem?_none hcell
    have hnone : assignedAt k db (getMeta obj).name = none := by
      unfold assignedAt
      rw [hfree]
      rfl
    -- the new object is the one under its name
    have hget : ∀ name, assignedAt k
        (StoreCall.step db (⟨k, (ApiOp.create obj).storeOp⟩, Faults.none)) name =
        if (getMeta obj).name = name then assigned k obj else assignedAt k db name := by
      intro name
      refine (assignedAt_step hbase name).trans ?_
      exact if_congr Iff.rfl (assigned_effect (.create obj) db obj) rfl
    constructor
    · intro hdistinct _ c name hc hname
      have hne : (getMeta obj).name ≠ name := by
        rintro rfl
        rw [hnone] at hname
        cases hname
      refine absurd (hdistinct (getMeta obj).name name c ?_ ?_) hne
      · rwa [hget, if_pos rfl]
      · rwa [hget, if_neg hne]
    · intro hshown
      have hnew : ∀ c name, assigned k obj = some c → assignedAt k db name ≠ some c := by
        intro c name hc hname
        exact hdrawn.not_shown hA hseen hc (hshown hfree c name hc hname)
      intro name name' c hc hc'
      rw [hget] at hc hc'
      split at hc
      · split at hc'
        · rename_i hn hn'
          exact hn.symm.trans hn'
        · exact absurd hc' (hnew c name' hc)
      · split at hc'
        · exact absurd hc (hnew c name hc')
        · exact h name name' c hc hc'
  · have hbase : ¬ ∃ base, (ApiOp.create obj).storeOp.StartsFrom db base := by
      rintro ⟨base, hstarts⟩
      exact hcell hstarts.1
    rw [step_of_not_startsFrom hbase]
    refine iff_of_true h fun hfree => ?_
    exact absurd (hwf.stored_eq_none.mp hfree) hcell

end Step

/-! ## Runs -/

namespace Api

/-- No two nodes have one slice, and no two services one address. -/
def Distinct (s : Api) : Prop := DistinctSlices .node s.now ∧ DistinctSlices .service s.now

/-- If the act carries out a create, its list has shown all that have what it brings. -/
def Shown (s : Api) (act : ApiAct) : Prop :=
  ∀ seen call, s.Writes act seen call → call.Shown seen s.now

variable {s : Api}

theorem Distinct.exec_iff (h : s.Distinct) (hwf : ∀ db ∈ s.states, WellFormed db) {seen : List Db}
    (hseen : seen ⊆ s.states) {call : ApiCall} (hallots : Allots seen call) :
    (DistinctSlices .node (call.exec s.now).2 ∧ DistinctSlices .service (call.exec s.now).2) ↔
      call.Shown seen s.now := by
  have hnow := hwf s.now List.mem_cons_self
  have hwf' : ∀ db ∈ seen, WellFormed db := fun db hdb => hwf db (hseen hdb)
  obtain ⟨k, op⟩ := call
  cases op with
  | create obj =>
    cases k with
    | node =>
      have hiff := h.1.create_iff hnow nodeCidrs_lawful hwf' hallots
      exact (and_iff_left (h.2.other (by simp))).trans hiff
    | service =>
      have hiff := h.2.create_iff hnow clusterIps_lawful hwf' hallots
      exact (and_iff_right (h.1.other (by simp))).trans hiff
    | _ => cases hallots
  | delete name rv =>
    refine iff_of_true ?_ trivial
    cases k with
    | node => exact ⟨h.1.delete name rv, h.2.other (by simp)⟩
    | service => exact ⟨h.1.other (by simp), h.2.delete name rv⟩
    | _ => exact ⟨h.1.other (by simp), h.2.other (by simp)⟩
  | _ => cases k <;> cases hallots

/-- **One act.** -/
theorem Distinct.step_iff (h : s.Distinct) (hwf : ∀ db ∈ s.states, WellFormed db)
    (hsound : Process.System.Sound Allots s) (act : ApiAct) :
    (s.step act).Distinct ↔ s.Shown act := by
  by_cases hw : ∃ seen call, s.Writes act seen call
  · obtain ⟨seen, call, hw⟩ := hw
    have hnow : (s.step act).now = (call.exec s.now).2 := hw.now_step
    obtain ⟨hseen, hallots⟩ := hsound.writes hw
    unfold Distinct
    rw [hnow, h.exec_iff hwf hseen hallots]
    constructor
    · intro hshown seen' call' hw'
      obtain ⟨rfl, rfl⟩ := hw.unique hw'
      exact hshown
    · exact fun hshown => hshown seen call hw
  · rcases s.now_step_cases act with hnow | ⟨seen, call, hw', -⟩
    · unfold Distinct
      rw [hnow]
      exact iff_of_true h fun seen call hw' => absurd ⟨seen, call, hw'⟩ hw
    · exact absurd ⟨seen, call, hw'⟩ hw

end Api

theorem distinctSlices_empty (k : Kind) : DistinctSlices k ∅ := by
  intro name name' c hc
  simp [assignedAt, stored, ResourceStore.get] at hc

/-- **One run.** The slices are distinct in all states, if and only if each create that takes effect was
shown all that have what it brings. -/
theorem distinct_iff_shown (acts : List ApiAct)
    (hallocates : ∀ r, .start r ∈ acts → r.Allocates) :
    (∀ past, past <+: acts → (Api.start.run past).Distinct) ↔
      ∀ past act, past ++ [act] <+: acts → (Api.start.run past).Shown act := by
  have hsound : ∀ past, past <+: acts → Process.System.Sound Allots (Api.start.run past) :=
    fun past hp => (Process.System.sound_init ∅).run fun r hr => (hallocates r (hp.subset hr)).wp
  refine Runs.prefix_iff ⟨distinctSlices_empty .node, distinctSlices_empty .service⟩ ?_
  intro past act hp hdistinct
  rw [Api.run_concat]
  exact hdistinct.step_iff (Api.wellFormed past) (hsound past (Runs.prefix_of_concat hp)) act

theorem Allots.shown {seen : List Db} {db : Db} {call : ApiCall} (h : Allots seen call)
    (hwf : WellFormed db) (hcurrent : call.Current seen db) : call.Shown seen db := by
  obtain ⟨k, op⟩ := call
  cases op with
  | create obj =>
    cases k with
    | node => exact hcurrent.shown hwf h
    | service => exact hcurrent.shown hwf h
    | _ => cases h
  | _ => exact trivial

/-- **Distinct slices.** In every run of creates that bring no slice of their own and of deletes, with
reads of any age and writes that fail in any way, the slices of the nodes and the addresses of the
services are distinct in all states, if the list of each create that takes effect is still current then. -/
theorem slices_distinct {acts : List ApiAct} (hallocates : ∀ r, .start r ∈ acts → r.Allocates)
    (hcurrent : ∀ past act seen call, past ++ [act] <+: acts →
      (Api.start.run past).Writes act seen call → call.Current seen (Api.start.run past).now) :
    ∀ past, past <+: acts → (Api.start.run past).Distinct := by
  refine (distinct_iff_shown acts hallocates).mpr fun past act hp seen call hw => ?_
  have hsound : Process.System.Sound Allots (Api.start.run past) :=
    (Process.System.sound_init ∅).run fun r hr =>
      (hallocates r ((Runs.prefix_of_concat hp).subset hr)).wp
  exact (hsound.writes hw).2.shown (Api.wellFormed past _ List.mem_cons_self) (hcurrent past act seen call hp hw)

/-- A service as a client sends it. -/
def sampleService (name : String) : Service where
  apiVersion := "v1"
  kind := "Service"
  metadata :=
    { name
      uid := none
      resourceVersion := none
      generation := none
      creationTimestamp := none
      labels := ∅
      ownerReferences := [] }
  spec := { selector := ∅, port := 80, targetPort := 8080, clusterIP := none }

/-- Nodes `a` and `b` are created, `a` is deleted while the create of `c` is under way, and a service follows.
What the create of `c` has read still shows `b`. -/
def replaced : List ApiAct :=
  [.start (.create .node .direct sampleStamp (sampleNode "a")), .read 0 0, .read 0 0, .write 0,
    .start (.create .node .direct sampleStamp (sampleNode "b")), .read 1 0, .read 1 0, .write 1,
    .start (.create .node .direct sampleStamp (sampleNode "c")), .read 2 1, .read 2 0,
    .start (.delete .node "a" (some "1")), .write 3, .write 2,
    .start (.create .service .direct sampleStamp (sampleService "web")), .read 4 0, .read 4 0, .write 4,
    .start (.create .service .direct sampleStamp (sampleService "db")), .read 5 2, .read 5 0, .write 5]

theorem slices_distinct_replaced : (Api.start.run replaced).Distinct ∧
    ["a", "b", "c"].map (assignedAt .node (Api.start.run replaced).now) =
      [none, some "10.244.1.0/24", some "10.244.2.0/24"] ∧
    ["web", "db"].map (assignedAt .service (Api.start.run replaced).now) =
      [some "10.96.0.0", some "10.96.0.1"] := by
  have hallocates : ∀ r, .start r ∈ replaced → r.Allocates := by
    intro r hr
    simp only [replaced, List.mem_cons, Process.Act.start.injEq, reduceCtorEq, List.not_mem_nil, or_false,
      false_or] at hr
    rcases hr with rfl | rfl | rfl | rfl | rfl | rfl
    · exact ⟨.inl rfl, rfl⟩
    · exact ⟨.inl rfl, rfl⟩
    · exact ⟨.inl rfl, rfl⟩
    · exact trivial
    · exact ⟨.inr rfl, rfl⟩
    · exact ⟨.inr rfl, rfl⟩
  have htest : Process.System.testRun Request.code ApiCall.exec (fun e _ => .error e)
      (fun _ seen call db => decide (call.Current seen db)) Api.start [] replaced = true := by decide +kernel
  refine ⟨slices_distinct hallocates (fun past act seen call hp hw => ?_) replaced List.prefix_rfl,
    by decide +kernel, by decide +kernel⟩
  obtain ⟨r, hr, -, -⟩ := Process.System.owned_writes (P := fun _ => Allots) ∅
    (fun r hr => (hallocates r ((Runs.prefix_of_concat hp).subset hr)).wp) hw
  exact of_decide_eq_true (Process.System.WritesFor.of_testRun htest hp hr)

/-- Two creates read before either of them writes. -/
def overlapping (r r' : Request) : List ApiAct :=
  [.start r, .start r', .read 0 0, .read 0 0, .read 1 0, .read 1 0, .write 0, .write 1]

/-- Two nodes get the slice `10.244.0.0/24`, and two services the address `10.96.0.0`. -/
theorem slices_not_distinct :
    ¬ (Api.start.run (overlapping
      (.create .node .direct sampleStamp (sampleNode "a"))
      (.create .node .direct sampleStamp (sampleNode "b")))).Distinct ∧
    ¬ (Api.start.run (overlapping
      (.create .service .direct sampleStamp (sampleService "a"))
      (.create .service .direct sampleStamp (sampleService "b")))).Distinct := by
  constructor
  · intro h
    have hsame := h.1 "a" "b" "10.244.0.0/24" (by decide +kernel) (by decide +kernel)
    exact absurd hsame (by decide)
  · intro h
    have hsame := h.2 "a" "b" "10.96.0.0" (by decide +kernel) (by decide +kernel)
    exact absurd hsame (by decide)

end MyK8s.ApiServer
