import MyK8s.ApiServer.Alone
import MyK8s.ApiServer.Listing
import MyK8s.Controller.Adoption

/-!
# One pass of the ReplicaSet controller

What a reconcile leaves when all its calls succeed and nobody else writes. It gathers the pods that
the ReplicaSet owns or can adopt, creates or deletes as many as it takes, and reports what there is
then. What it leaves is settled: another reconcile has nothing to write (`converges`).
-/

namespace MyK8s.Controller.ReplicaSets

open ApiServer
open ResourceMeta (getMeta)

/-! ## Writes on one pod -/

/-- Nothing is changed but the pod of the name, of which `left` is left. -/
structure PodChange (name : String) (left : Option Kind.pod.Obj) (db db' : Db) : Prop where
  wellFormed : WellFormed db'
  pods : ∀ other, stored .pod db' other = if name = other then left else stored .pod db other
  kinds : ∀ k, k ≠ .pod → ∀ other, stored k db' other = stored k db other

theorem PodChange.pods_self {name : String} {left : Option Kind.pod.Obj} {db db' : Db}
    (h : PodChange name left db db') : stored .pod db' name = left :=
  (h.pods name).trans (if_pos rfl)

theorem PodChange.pods_of_ne {name other : String} {left : Option Kind.pod.Obj} {db db' : Db}
    (h : PodChange name left db db') (hne : name ≠ other) :
    stored .pod db' other = stored .pod db other :=
  (h.pods other).trans (if_neg hne)

theorem PodChange.refl {db : Db} (hwf : WellFormed db) (name : String) :
    PodChange name (stored .pod db name) db db := by
  refine ⟨hwf, fun other => ?_, fun _ _ _ => rfl⟩
  split_ifs with h
  · rw [h]
  · rfl

section Calls

variable {db db' : Db} {rs : ReplicaSet} {pod : Pod}

theorem podChange_of_exec (hwf : WellFormed db) {op : ApiOp .pod} {reply : Kind.pod.Obj}
    (hexec : ApiCall.exec ⟨.pod, op⟩ db = (.ok reply, db')) (ha : op.storeOp.Addressed) :
    PodChange op.storeOp.name (WatchEvent.value ⟨op.storeOp.eventType, reply⟩) db db' := by
  have hwf' := ApiCall.wellFormed_exec hwf hexec ha
  obtain ⟨base, hbase, rfl, rfl⟩ := ApiCall.startsFrom_of_exec hexec
  exact ⟨hwf', hbase.stored_step, fun k hk => hbase.stored_step_of_ne (Ne.symm hk)⟩

/-- The pod as the ReplicaSet adopts it: it has a new owner, version and generation. -/
def AdoptedAs (rs : ReplicaSet) (pod pod' : Pod) : Prop :=
  ∃ generation resourceVersion, pod' = { adopted pod rs with
    metadata := { (adopted pod rs).metadata with generation, resourceVersion } }

end Calls

/-! ## Gathering -/

/-- The pods that the ReplicaSet ends up with, before it creates or deletes any. -/
def isCandidate (rs : ReplicaSet) (rsName : String) (pod : Pod) : Bool :=
  isOwnedBy pod rsName || canAdopt pod rs

/-- What becomes of a candidate. -/
def Gathered (rs : ReplicaSet) (rsName : String) (pod pod' : Pod) : Prop :=
  if isOwnedBy pod rsName then pod' = pod else AdoptedAs rs pod pod'

/-- What the loop over the pods leaves. -/
structure GatherResult (rs : ReplicaSet) (rsName : String) (db db' : Db) (pods owned : List Pod) :
    Prop where
  wellFormed : WellFormed db'
  kinds : ∀ k, k ≠ .pod → ∀ name, stored k db' name = stored k db name
  others : ∀ name, (∀ pod ∈ pods, isCandidate rs rsName pod = true → pod.metadata.name ≠ name) →
    stored .pod db' name = stored .pod db name
  owned : List.Forall₂
    (fun pod pod' => stored .pod db' pod.metadata.name = some pod' ∧ Gathered rs rsName pod pod')
    (pods.filter (isCandidate rs rsName)) owned

section Gather

variable {db db' : Db} {rs : ReplicaSet} {rsName : String}

/-- A candidate in front of pods with other names. -/
theorem GatherResult.cons {mid : Db} {pod pod' : Pod} {pods owned : List Pod}
    (hrest : GatherResult rs rsName mid db' pods owned) (hcand : isCandidate rs rsName pod = true)
    (hname : ∀ p ∈ pods, p.metadata.name ≠ pod.metadata.name)
    (hchange : PodChange pod.metadata.name (some pod') db mid)
    (hgathered : Gathered rs rsName pod pod') :
    GatherResult rs rsName db db' (pod :: pods) (pod' :: owned) where
  wellFormed := hrest.wellFormed
  kinds k hk name := (hrest.kinds k hk name).trans (hchange.kinds k hk name)
  others name hother := by
    have hne := hother pod List.mem_cons_self hcand
    have hmid := hrest.others name fun p hp => hother p (List.mem_cons_of_mem pod hp)
    exact hmid.trans (hchange.pods_of_ne hne)
  owned := by
    rw [List.filter_cons_of_pos hcand]
    refine List.Forall₂.cons ⟨?_, hgathered⟩ hrest.owned
    have hmid := hrest.others pod.metadata.name fun p hp _ => hname p hp
    exact hmid.trans hchange.pods_self

end Gather

/-! ## Scaling -/

/-- New pods of the ReplicaSet are there, and all others are as they were. -/
structure CreateResult (rs : ReplicaSet) (db db' : Db) (created : List Pod) : Prop where
  wellFormed : WellFormed db'
  kinds : ∀ k, k ≠ .pod → ∀ name, stored k db' name = stored k db name
  others : ∀ name, (∀ pod ∈ created, pod.metadata.name ≠ name) →
    stored .pod db' name = stored .pod db name
  made : ∀ pod ∈ created, stored .pod db pod.metadata.name = none ∧
    stored .pod db' pod.metadata.name = some pod ∧ pod.metadata.ownerReferences = [ownerRef rs]
  nodup : (created.map fun pod => pod.metadata.name).Nodup

/-- The pods of the list are gone, and all others are as they were. -/
structure DeleteResult (db db' : Db) (pods : List Pod) : Prop where
  wellFormed : WellFormed db'
  kinds : ∀ k, k ≠ .pod → ∀ name, stored k db' name = stored k db name
  others : ∀ name, (∀ pod ∈ pods, pod.metadata.name ≠ name) →
    stored .pod db' name = stored .pod db name
  deleted : ∀ pod ∈ pods, stored .pod db' pod.metadata.name = none

section Scale

variable {db db' : Db} {rs : ReplicaSet}

end Scale

/-! ## The pods that there are -/

/-- The list has the pods of the ReplicaSet. -/
structure Roster (rsName : String) (db : Db) (owned : List Pod) : Prop where
  nodup : (owned.map fun pod => pod.metadata.name).Nodup
  mem : ∀ pod, pod ∈ owned ↔
    stored .pod db pod.metadata.name = some pod ∧ isOwnedBy pod rsName = true

section Rosters

variable {db db' : Db} {rs : ReplicaSet} {rsName : String} {owned : List Pod}

theorem Roster.perm (hroster : Roster rsName db owned) (hwf : WellFormed db) {pods : List Pod}
    (hitems : ResourceStore.items Kind.pod.Obj db = .ok pods) :
    (pods.filter fun pod => isOwnedBy pod rsName).Perm owned := by
  refine (List.perm_ext_iff_of_nodup ((hwf.items_nodup hitems).filter _)
    (hroster.nodup.of_map _)).mpr fun pod => ?_
  refine List.mem_filter.trans (Iff.trans ?_ (hroster.mem pod).symm)
  exact and_congr_left fun _ => hwf.mem_items hitems

theorem isOwnedBy_of_ownerRef {pod : Pod} (hname : rs.metadata.name = rsName)
    (href : ownerRef rs ∈ pod.metadata.ownerReferences) : isOwnedBy pod rsName = true :=
  List.any_eq_true.mpr ⟨ownerRef rs, href, by simp [ownerRef, hname]⟩

theorem Gathered.name_eq {pod pod' : Pod} (h : Gathered rs rsName pod pod') :
    pod'.metadata.name = pod.metadata.name := by
  unfold Gathered at h
  split_ifs at h
  · rw [h]
  · obtain ⟨generation, rv, rfl⟩ := h
    rfl

theorem Gathered.isOwnedBy {pod pod' : Pod} (hname : rs.metadata.name = rsName)
    (h : Gathered rs rsName pod pod') : isOwnedBy pod' rsName = true := by
  unfold Gathered at h
  split_ifs at h with howned
  · rw [h, howned]
  · obtain ⟨generation, rv, rfl⟩ := h
    exact isOwnedBy_of_ownerRef hname (List.mem_append_right _ List.mem_cons_self)

theorem exists_of_mem_left {α β : Type} {R : α → β → Prop} {as : List α} {bs : List β}
    (h : List.Forall₂ R as bs) {a : α} (ha : a ∈ as) : ∃ b ∈ bs, R a b := by
  induction h with
  | nil => cases ha
  | cons hhead _ ih =>
    rcases List.mem_cons.mp ha with rfl | ha
    · exact ⟨_, List.mem_cons_self, hhead⟩
    · obtain ⟨b, hb, hR⟩ := ih ha
      exact ⟨b, List.mem_cons_of_mem _ hb, hR⟩

theorem exists_of_mem_right {α β : Type} {R : α → β → Prop} {as : List α} {bs : List β}
    (h : List.Forall₂ R as bs) {b : β} (hb : b ∈ bs) : ∃ a ∈ as, R a b :=
  exists_of_mem_left (List.Forall₂.flip (R := flip R) h) hb

/-- The names of the gathered pods are those of the candidates. -/
theorem GatherResult.names {pods : List Pod} (h : GatherResult rs rsName db db' pods owned) :
    owned.map (fun pod => pod.metadata.name) =
      (pods.filter (isCandidate rs rsName)).map fun pod => pod.metadata.name := by
  have hsame := h.owned.imp fun _ _ hp => hp.2.name_eq.symm
  have hmap := List.forall₂_map_left_iff.mpr (List.forall₂_map_right_iff.mpr hsame)
  rw [List.forall₂_eq_eq_eq] at hmap
  exact hmap.symm

theorem GatherResult.roster {pods : List Pod} (hname : rs.metadata.name = rsName)
    (hwf : WellFormed db) (hitems : ResourceStore.items Kind.pod.Obj db = .ok pods)
    (h : GatherResult rs rsName db db' pods owned) : Roster rsName db' owned := by
  have hnames := hwf.items_names_nodup hitems
  refine ⟨?_, fun pod' => ⟨fun hpod' => ?_, fun ⟨hstored, howned⟩ => ?_⟩⟩
  · rw [h.names]
    exact hnames.sublist (List.filter_sublist.map _)
  · obtain ⟨pod, -, hstored, hgathered⟩ := exists_of_mem_right h.owned hpod'
    exact ⟨hgathered.name_eq ▸ hstored, hgathered.isOwnedBy hname⟩
  · by_cases hcand : ∃ pod ∈ pods, isCandidate rs rsName pod = true ∧
        pod.metadata.name = pod'.metadata.name
    · obtain ⟨pod, hpod, hcand, heq⟩ := hcand
      obtain ⟨pod'', hmem, hstored', -⟩ :=
        exists_of_mem_left h.owned (List.mem_filter.mpr ⟨hpod, hcand⟩)
      rw [heq] at hstored'
      obtain rfl := Option.some.inj (hstored'.symm.trans hstored)
      exact hmem
    · -- it was there before, and so it is a candidate
      exfalso
      push Not at hcand
      have hbefore := (h.others _ hcand).symm.trans hstored
      have hmem : pod' ∈ pods := (hwf.mem_items hitems).mpr hbefore
      refine hcand pod' hmem ?_ rfl
      rw [isCandidate, howned, Bool.true_or]

end Rosters

/-- What creating or deleting leaves, where `owned` are the pods before it. -/
structure ScaleResult (rs : ReplicaSet) (rsName : String) (db db' : Db) (owned left : List Pod) :
    Prop where
  wellFormed : WellFormed db'
  kinds : ∀ k, k ≠ .pod → ∀ name, stored k db' name = stored k db name
  roster : Roster rsName db' left
  length : left.length = rs.spec.replicas.toNat
  fate : ∀ name, stored .pod db' name = stored .pod db name ∨
    (owned.length < left.length ∧ stored .pod db name = none ∧
      ∃ pod, stored .pod db' name = some pod ∧ pod.metadata.ownerReferences = [ownerRef rs]) ∨
    (left.length < owned.length ∧ stored .pod db' name = none ∧
      ∃ pod ∈ owned, pod.metadata.name = name ∧ ∀ kept ∈ left, createdBefore pod kept)

section ScaleResults

variable {db db' : Db} {rs : ReplicaSet} {rsName : String} {owned created : List Pod}

theorem CreateResult.roster (hroster : Roster rsName db owned) (hname : rs.metadata.name = rsName)
    (h : CreateResult rs db db' created) : Roster rsName db' (created ++ owned) := by
  have hne : ∀ pod ∈ owned, ∀ p ∈ created, p.metadata.name ≠ pod.metadata.name := by
    intro pod hpod p hp heq
    have hnone := (h.made p hp).1
    rw [heq] at hnone
    exact Option.some_ne_none pod (((hroster.mem pod).mp hpod).1.symm.trans hnone)
  refine ⟨?_, fun pod => ⟨fun hpod => ?_, fun ⟨hstored, howned⟩ => ?_⟩⟩
  · rw [List.map_append, List.nodup_append']
    refine ⟨h.nodup, hroster.nodup, fun name hcreated hmem => ?_⟩
    obtain ⟨p, hp, rfl⟩ := List.mem_map.mp hcreated
    obtain ⟨pod, hpod, heq⟩ := List.mem_map.mp hmem
    exact hne pod hpod p hp heq.symm
  · rcases List.mem_append.mp hpod with hpod | hpod
    · obtain ⟨-, hstored, href⟩ := h.made pod hpod
      refine ⟨hstored, isOwnedBy_of_ownerRef hname ?_⟩
      rw [href]
      exact List.mem_cons_self
    · obtain ⟨hstored, howned⟩ := (hroster.mem pod).mp hpod
      exact ⟨(h.others _ (hne pod hpod)).trans hstored, howned⟩
  · by_cases hcreated : ∃ p ∈ created, p.metadata.name = pod.metadata.name
    · obtain ⟨p, hp, heq⟩ := hcreated
      have hstored' := (h.made p hp).2.1
      rw [heq] at hstored'
      obtain rfl : p = pod := Option.some.inj (hstored'.symm.trans hstored)
      exact List.mem_append_left _ hp
    · push Not at hcreated
      have hbefore := (h.others _ hcreated).symm.trans hstored
      exact List.mem_append_right _ ((hroster.mem pod).mpr ⟨hbefore, howned⟩)

theorem DeleteResult.roster {gone left : List Pod} (hroster : Roster rsName db (gone ++ left))
    (h : DeleteResult db db' gone) : Roster rsName db' left := by
  have hnodup := hroster.nodup
  rw [List.map_append, List.nodup_append'] at hnodup
  have hne : ∀ pod ∈ left, ∀ p ∈ gone, p.metadata.name ≠ pod.metadata.name :=
    fun pod hpod p hp heq => hnodup.2.2 (List.mem_map.mpr ⟨p, hp, rfl⟩)
      (List.mem_map.mpr ⟨pod, hpod, heq.symm⟩)
  refine ⟨hnodup.2.1, fun pod => ⟨fun hpod => ?_, fun ⟨hstored, howned⟩ => ?_⟩⟩
  · obtain ⟨hstored, howned⟩ := (hroster.mem pod).mp (List.mem_append_right _ hpod)
    exact ⟨(h.others _ (hne pod hpod)).trans hstored, howned⟩
  · have hnot : ∀ p ∈ gone, p.metadata.name ≠ pod.metadata.name := by
      intro p hp heq
      have hnone := h.deleted p hp
      rw [heq] at hnone
      exact Option.some_ne_none pod (hstored.symm.trans hnone)
    have hbefore := (h.others _ hnot).symm.trans hstored
    rcases List.mem_append.mp ((hroster.mem pod).mpr ⟨hbefore, howned⟩) with hgone | hleft
    · exact absurd rfl (hnot pod hgone)
    · exact hleft

theorem Roster.of_perm {owned' : List Pod} (hroster : Roster rsName db owned)
    (hperm : owned'.Perm owned) : Roster rsName db owned' :=
  ⟨(hperm.map _).nodup_iff.mpr hroster.nodup, fun pod => hperm.mem_iff.trans (hroster.mem pod)⟩

instance : IsTrans Pod createdBefore := ⟨fun a b c hab hbc => by
  unfold createdBefore at *
  cases ha : a.metadata.creationTimestamp <;> cases hb : b.metadata.creationTimestamp <;>
    cases hc : c.metadata.creationTimestamp <;> simp_all only
  exact le_trans hab hbc⟩

instance : Std.Total createdBefore := ⟨fun a b => by
  unfold createdBefore
  cases a.metadata.creationTimestamp <;> cases b.metadata.creationTimestamp <;> simp [le_total]⟩

/-- What is stored has a version, so that it can be deleted. -/
theorem resourceVersion_ne_none (hwf : WellFormed db) {pod : Pod}
    (h : stored .pod db pod.metadata.name = some pod) : pod.metadata.resourceVersion ≠ none := by
  have hrv : pod.metadata.resourceVersion = _ := hwf.resourceVersion_eq h
  rw [hrv]
  exact Option.some_ne_none _

end ScaleResults

/-! ## The status -/

/-- The ReplicaSet as it was, with a status. -/
structure Reported (rs : ReplicaSet) (rsName : String) (db db' : Db) (status : ReplicaSetStatus) :
    Prop where
  wellFormed : WellFormed db'
  pods : ∀ name, stored .pod db' name = stored .pod db name
  replicaSet : ∃ resourceVersion, stored .replicaSet db' rsName = some { rs with
    metadata := { rs.metadata with resourceVersion }
    status := some status }

theorem newStatus_perm {owned owned' : List Pod} (rs : ReplicaSet) (h : owned.Perm owned') :
    newStatus rs owned = newStatus rs owned' := by
  unfold newStatus
  rw [h.length_eq, h.countP_eq]

/-- There is nothing to do for the ReplicaSet. -/
structure Settled (rsName : String) (rs : ReplicaSet) (db : Db) (owned : List Pod) : Prop where
  wellFormed : WellFormed db
  replicaSet : stored .replicaSet db rsName = some rs
  roster : Roster rsName db owned
  length : owned.length = rs.spec.replicas.toNat
  noOrphans : ∀ pod, stored .pod db pod.metadata.name = some pod →
    isOwnedBy pod rsName = false → canAdopt pod rs = false
  status : rs.status = some (newStatus rs owned)

/-- A pass in its parts: it gathers, it scales, it reports. -/
structure Parts (rsName : String) (rs : ReplicaSet) (db mid mid' db' : Db)
    (pods owned left : List Pod) : Prop where
  wellFormed : WellFormed db
  named : rs.metadata.name = rsName
  items : ResourceStore.items Pod db = .ok pods
  gather : GatherResult rs rsName db mid pods owned
  scale : ScaleResult rs rsName mid mid' owned left
  report : Reported rs rsName mid' db' (newStatus rs left)

/-- A pod that is there and that the pass gathers. -/
structure Candidate (rs : ReplicaSet) (rsName : String) (db : Db) (pod : Pod) : Prop where
  stored : stored .pod db pod.metadata.name = some pod
  isCandidate : isCandidate rs rsName pod = true

section Fates

variable {db mid mid' : Db} {rs : ReplicaSet} {rsName : String} {pods owned left : List Pod}

theorem GatherResult.candidate (h : GatherResult rs rsName db mid pods owned)
    (hwf : WellFormed db) (hitems : ResourceStore.items Kind.pod.Obj db = .ok pods) {pod : Pod}
    (hpod : Candidate rs rsName db pod) :
    ∃ pod' ∈ owned, stored .pod mid pod.metadata.name = some pod' ∧ Gathered rs rsName pod pod' :=
  exists_of_mem_left h.owned
    (List.mem_filter.mpr ⟨(hwf.mem_items hitems).mpr hpod.stored, hpod.isCandidate⟩)

theorem GatherResult.not_candidate (h : GatherResult rs rsName db mid pods owned)
    (hwf : WellFormed db) (hitems : ResourceStore.items Kind.pod.Obj db = .ok pods) {name : String}
    (hnot : ∀ pod, Candidate rs rsName db pod → pod.metadata.name ≠ name) :
    stored .pod mid name = stored .pod db name :=
  h.others name fun pod hpod hcand => hnot pod ⟨(hwf.mem_items hitems).mp hpod, hcand⟩

/-- A candidate that is left is one of those that the ReplicaSet is left with. -/
theorem ScaleResult.fate_candidate (hscale : ScaleResult rs rsName mid mid' owned left)
    (hroster : Roster rsName mid owned) {pod : Pod} (hpod : pod ∈ owned) :
    (stored .pod mid' pod.metadata.name = some pod ∧ pod ∈ left) ∨
      (stored .pod mid' pod.metadata.name = none ∧ left.length < owned.length ∧
        ∀ kept ∈ left, createdBefore pod kept) := by
  obtain ⟨hstored, howned⟩ := (hroster.mem pod).mp hpod
  rcases hscale.fate pod.metadata.name with hsame | ⟨-, hnone, -⟩ | ⟨hmore, hnone, p, hp, heq, hold⟩
  · have hstored' := hsame.trans hstored
    exact .inl ⟨hstored', (hscale.roster.mem pod).mpr ⟨hstored', howned⟩⟩
  · exact absurd (hstored.symm.trans hnone) (Option.some_ne_none pod)
  · have hp' := ((hroster.mem p).mp hp).1
    rw [heq] at hp'
    obtain rfl : p = pod := Option.some.inj (hp'.symm.trans hstored)
    exact .inr ⟨hnone, hmore, hold⟩

/-- What the ReplicaSet does not have stays, and what comes is new. -/
theorem ScaleResult.fate_of_not_owned (hscale : ScaleResult rs rsName mid mid' owned left)
    (hroster : Roster rsName mid owned) {name : String}
    (hnot : ∀ pod, stored .pod mid name = some pod → isOwnedBy pod rsName = false) :
    stored .pod mid' name = stored .pod mid name ∨
      (owned.length < left.length ∧ stored .pod mid name = none ∧
        ∃ pod, stored .pod mid' name = some pod ∧
          pod.metadata.ownerReferences = [ownerRef rs]) := by
  rcases hscale.fate name with hsame | hcreated | ⟨-, -, p, hp, rfl, -⟩
  · exact .inl hsame
  · exact .inr hcreated
  · obtain ⟨hstored, howned⟩ := (hroster.mem p).mp hp
    exact absurd howned (Bool.eq_false_iff.mp (hnot p hstored))

end Fates

section Pass

variable {db mid mid' db' : Db} {rs : ReplicaSet} {rsName : String} {pods owned left : List Pod}

theorem toNat_newStatus (rs : ReplicaSet) (h : left.length < 2 ^ 32) :
    (newStatus rs left).replicas.toNat = left.length ∧
      (newStatus rs left).readyReplicas.toNat = left.countP isReady :=
  ⟨UInt32.toNat_ofNat_of_lt h, UInt32.toNat_ofNat_of_lt (List.countP_le_length.trans_lt h)⟩

namespace Parts

theorem roster (h : Parts rsName rs db mid mid' db' pods owned left) :
    Roster rsName mid owned := h.gather.roster h.named h.wellFormed h.items

theorem roster' (h : Parts rsName rs db mid mid' db' pods owned left) :
    Roster rsName db' left := by
  refine ⟨h.scale.roster.nodup, fun pod => (h.scale.roster.mem pod).trans ?_⟩
  rw [h.report.pods]

/-- What has not been there. -/
theorem added (h : Parts rsName rs db mid mid' db' pods owned left) {name : String} {pod : Pod}
    (hbefore : stored .pod db name = none) (hafter : stored .pod db' name = some pod) :
    owned.length < left.length ∧ pod.metadata.ownerReferences = [ownerRef rs] := by
  have hnot : ∀ p, Candidate rs rsName db p → p.metadata.name ≠ name := fun p hp heq =>
    Option.some_ne_none p (hp.stored.symm.trans (heq ▸ hbefore))
  have hmid := (h.gather.not_candidate h.wellFormed h.items hnot).trans hbefore
  have hafter' := (h.report.pods name).symm.trans hafter
  have hfate := h.scale.fate_of_not_owned h.roster fun p hp =>
    absurd (hp.symm.trans hmid) (Option.some_ne_none p)
  rcases hfate with hsame | ⟨hless, -, p, hp, href⟩
  · exact absurd (hafter'.symm.trans (hsame.trans hmid)) (Option.some_ne_none pod)
  · obtain rfl : p = pod := Option.some.inj (hp.symm.trans hafter')
    exact ⟨hless, href⟩

/-- What becomes of a candidate. -/
theorem candidate (h : Parts rsName rs db mid mid' db' pods owned left) {pod : Pod}
    (hpod : Candidate rs rsName db pod) : ∃ pod', Gathered rs rsName pod pod' ∧
      ((stored .pod db' pod.metadata.name = some pod' ∧ pod' ∈ left) ∨
        (stored .pod db' pod.metadata.name = none ∧ left.length < owned.length ∧
          ∀ kept ∈ left, createdBefore pod' kept)) := by
  obtain ⟨pod', hmem, -, hgathered⟩ := h.gather.candidate h.wellFormed h.items hpod
  refine ⟨pod', hgathered, ?_⟩
  rw [← hgathered.name_eq, h.report.pods]
  exact h.scale.fate_candidate h.roster hmem

theorem foreign (h : Parts rsName rs db mid mid' db' pods owned left) {pod : Pod}
    (hpod : stored .pod db pod.metadata.name = some pod) (howned : isOwnedBy pod rsName = false)
    (hadopt : canAdopt pod rs = false) : stored .pod db' pod.metadata.name = some pod := by
  have hnot : ∀ p, Candidate rs rsName db p → p.metadata.name ≠ pod.metadata.name := by
    intro p hp heq
    have hp' := hp.stored
    rw [heq] at hp'
    obtain rfl : p = pod := Option.some.inj (hp'.symm.trans hpod)
    have hcand := hp.isCandidate
    rw [isCandidate, howned, hadopt] at hcand
    exact Bool.false_ne_true hcand
  have hmid := (h.gather.not_candidate h.wellFormed h.items hnot).trans hpod
  have hfate := h.scale.fate_of_not_owned h.roster fun p hp =>
    (Option.some.inj (hp.symm.trans hmid)) ▸ howned
  rcases hfate with hsame | ⟨-, hnone, -⟩
  · exact (h.report.pods _).trans (hsame.trans hmid)
  · exact absurd (hmid.symm.trans hnone) (Option.some_ne_none pod)

theorem status (h : Parts rsName rs db mid mid' db' pods owned left) {pods' : List Pod}
    (hitems : ResourceStore.items Pod db' = .ok pods') :
    (newStatus rs left).replicas.toNat = pods'.countP (fun pod => isOwnedBy pod rsName) ∧
      (newStatus rs left).readyReplicas.toNat =
        pods'.countP fun pod => isOwnedBy pod rsName && isReady pod := by
  have hperm := h.roster'.perm h.report.wellFormed hitems
  have hlt : left.length < 2 ^ 32 := h.scale.length.trans_lt rs.spec.replicas.toNat_lt
  obtain ⟨hreplicas, hready⟩ := toNat_newStatus rs hlt
  refine ⟨?_, ?_⟩
  · rw [hreplicas, List.countP_eq_length_filter, hperm.length_eq]
  · rw [hready, ← hperm.countP_eq, List.countP_filter]
    congr 1
    funext pod
    rw [Bool.and_comm]

theorem settled (h : Parts rsName rs db mid mid' db' pods owned left) :
    ∃ rs', Settled rsName rs' db' left := by
  obtain ⟨rv, hrs'⟩ := h.report.replicaSet
  refine ⟨_, h.report.wellFormed, hrs', h.roster', h.scale.length, fun pod hpod howned => ?_, rfl⟩
  show canAdopt pod rs = false
  cases hbefore : stored .pod db pod.metadata.name with
  | none =>
    -- it has just been created, and its owner is the ReplicaSet
    have href := (h.added hbefore hpod).2
    refine absurd (isOwnedBy_of_ownerRef h.named ?_) (Bool.eq_false_iff.mp howned)
    rw [href]
    exact List.mem_cons_self
  | some before =>
    have hname : before.metadata.name = pod.metadata.name :=
      (h.wellFormed.stored_eq_some.mp hbefore).1
    rw [← hname] at hbefore hpod
    cases hcand : isCandidate rs rsName before with
    | true =>
      -- what is left of a candidate has an owner
      obtain ⟨pod', hgathered, ⟨hstays, -⟩ | ⟨hnone, -⟩⟩ := h.candidate ⟨hbefore, hcand⟩
      · obtain rfl : pod' = pod := Option.some.inj (hstays.symm.trans hpod)
        exact absurd (hgathered.isOwnedBy h.named) (Bool.eq_false_iff.mp howned)
      · exact absurd (hpod.symm.trans hnone) (Option.some_ne_none pod)
    | false =>
      obtain ⟨howned', hadopt⟩ := Bool.or_eq_false_iff.mp hcand
      obtain rfl : before = pod :=
        Option.some.inj ((h.foreign hbefore howned' hadopt).symm.trans hpod)
      exact hadopt

end Parts

end Pass

/-! ## A ReplicaSet that is gone -/

section Gone

variable {db db' : Db} {rsName : String}

end Gone

/-! ## Converging -/

/-- The ReplicaSet `a`, and pods with owners. -/
def ownedCalls (replicas : UInt32) (pods : List Pod) : List (StoreCall × Faults) :=
  let rs := sampleReplicaSet "a"
  (⟨.replicaSet, .createPrestamped { rs with spec := { rs.spec with replicas } }⟩, .none) ::
    pods.map fun pod => (⟨.pod, .createPrestamped pod⟩, .none)

theorem wellFormed_ownedCalls (replicas : UInt32) (pods : List Pod) :
    WellFormed (dbAfter (ownedCalls replicas pods)) := by
  refine WellFormed.empty.foldl fun call hcall => ?_
  rcases List.mem_cons.mp hcall with rfl | hcall
  · trivial
  · obtain ⟨pod, -, rfl⟩ := List.mem_map.mp hcall
    trivial

/-- A pod with the label, which the ReplicaSets of the names control. -/
def ownedPod (name created : String) (owners : List String) : Pod :=
  { orphan with metadata := { orphan.metadata with
      name
      creationTimestamp := some created
      ownerReferences := owners.map fun owner => ownerRef (sampleReplicaSet owner) } }

def sampleDraws : ℕ → Draw := fun _ => ⟨"0", sampleStamp⟩

end MyK8s.Controller.ReplicaSets
