import MyK8s.ApiServer.Among
import MyK8s.Controller.Converge
import MyK8s.Controller.Manager

/-!
# A pass of the ReplicaSet controller among others

What a reconcile leaves while others write whatever they like, but for the ReplicaSet and the pods that it owns:
orphans come and go while they are adopted. `Stands` is carried through the loops, with the list that the code
has of its pods, and a pass that returns without an error leaves them in order (`settles_reconcile`).

The code only warns when a write on a pod fails, and goes on. After the failures that matter (`warned`) nothing
is promised.
-/

namespace MyK8s.Controller.ReplicaSets

open ApiServer
open ResourceMeta (getMeta stampForCreate)
open Process (Proc Fate)

/-! ## What matters -/

/-- The ReplicaSet is the same, and so are the pods that it owns. -/
structure Alike (rsName : String) (db db' : Db) : Prop where
  replicaSet : stored .replicaSet db' rsName = stored .replicaSet db rsName
  owned : ∀ pod : Pod, isOwnedBy pod rsName = true →
    (stored .pod db' pod.metadata.name = some pod ↔ stored .pod db pod.metadata.name = some pod)

/-- The ReplicaSet has as many pods as it asks for, if its template makes a pod, and its status says what it has.
Where there is no ReplicaSet, it has none. -/
structure InOrder (rsName : String) (db : Db) (owned : List Pod) : Prop where
  roster : Roster rsName db owned
  gone : stored .replicaSet db rsName = none → owned = []
  status : ∀ rs : ReplicaSet, stored .replicaSet db rsName = some rs → rs.status = some (newStatus rs owned)
  replicas : ∀ rs : ReplicaSet, stored .replicaSet db rsName = some rs →
    rs.spec.template.spec.containers.isEmpty = false → owned.length = rs.spec.replicas.toNat

/-- A failure that the code only warns of, and that gets its count of the pods wrong: the name that was drawn is
taken, a create or a delete is refused, or an adoption is done and its answer is lost. -/
def warned (db : Db) : Fate → ApiCall → Bool
  | .refused, ⟨.pod, .create _⟩ => true
  | _, ⟨.pod, .create (pod : Pod)⟩ => (stored .pod db pod.metadata.name).isSome
  | .refused, ⟨.pod, .delete _ _⟩ => true
  | .lost, ⟨.pod, .replaceSpec _ _⟩ => true
  | _, _ => false

def purpose : Purpose where
  outdated rsName db := ¬ ∃ owned, InOrder rsName db owned
  rely := Alike
  ignored call fate db := warned db fate call = true
  shared := True

section Alikes

variable {rsName : String} {db db' db'' : Db} {owned : List Pod}

theorem Alike.refl (rsName : String) (db : Db) : Alike rsName db db := ⟨rfl, fun _ _ => Iff.rfl⟩

theorem Alike.trans (h : Alike rsName db db') (h' : Alike rsName db' db'') : Alike rsName db db'' :=
  ⟨h'.replicaSet.trans h.replicaSet, fun pod hpod => (h'.owned pod hpod).trans (h.owned pod hpod)⟩

theorem Alike.symm (h : Alike rsName db db') : Alike rsName db' db :=
  ⟨h.replicaSet.symm, fun pod hpod => (h.owned pod hpod).symm⟩

instance (rsName : String) : IsPreorder Db (purpose.keeps rsName) where
  refl db := ⟨id, .refl rsName db⟩
  trans _ _ _ h h' := ⟨h'.1 ∘ h.1, h.2.trans h'.2⟩

theorem serves : Serves purpose.scheme.setting := ⟨rfl, fun e _ => ⟨e, rfl⟩⟩

theorem Roster.alike (hroster : Roster rsName db owned) (h : Alike rsName db db') : Roster rsName db' owned := by
  refine ⟨hroster.nodup, fun pod => (hroster.mem pod).trans ?_⟩
  exact and_congr_left fun howned => (h.owned pod howned).symm

theorem InOrder.alike (horder : InOrder rsName db owned) (h : Alike rsName db db') : InOrder rsName db' owned where
  roster := horder.roster.alike h
  gone hrs := horder.gone (h.replicaSet.symm.trans hrs)
  status rs hrs := horder.status rs (h.replicaSet.symm.trans hrs)
  replicas rs hrs := horder.replicas rs (h.replicaSet.symm.trans hrs)

end Alikes

/-! ## What the code counts on -/

/-- The ReplicaSet is what has been read, and the pods that it owns are those of the list. -/
structure Stands (rsName : String) (o : Option ReplicaSet) (db : Db) (owned : List Pod) : Prop where
  wellFormed : WellFormed db
  replicaSet : stored .replicaSet db rsName = o
  roster : Roster rsName db owned

section Stands

variable {rsName : String} {o : Option ReplicaSet} {db db' : Db} {owned left : List Pod} {pod pod' : Pod}

theorem Stands.keeps (h : Stands rsName o db owned) (hk : purpose.keeps rsName db db') :
    Stands rsName o db' owned :=
  ⟨hk.1 h.wellFormed, hk.2.replicaSet.trans h.replicaSet, h.roster.alike hk.2⟩

theorem Stands.of_perm (h : Stands rsName o db owned) (hperm : left.Perm owned) : Stands rsName o db left :=
  ⟨h.wellFormed, h.replicaSet, h.roster.of_perm hperm⟩

/-- A pod that the ReplicaSet did not own is now one of its own. -/
theorem Stands.gain (h : Stands rsName o db owned) (hname : ∀ p ∈ owned, p.metadata.name ≠ pod.metadata.name)
    (hpod : isOwnedBy pod rsName = true) (hchange : PodChange pod.metadata.name (some pod) db db') :
    Stands rsName o db' (owned ++ [pod]) := by
  refine ⟨hchange.wellFormed, (hchange.kinds .replicaSet (by decide) rsName).trans h.replicaSet, ?_, ?_⟩
  · rw [List.map_append, List.nodup_append']
    refine ⟨h.roster.nodup, List.nodup_singleton _, fun name hmem hname' => ?_⟩
    obtain ⟨p, hp, rfl⟩ := List.mem_map.mp hmem
    exact hname p hp (List.mem_singleton.mp hname')
  · intro p
    rw [List.mem_append, List.mem_singleton, hchange.pods p.metadata.name]
    by_cases heq : pod.metadata.name = p.metadata.name
    · rw [if_pos heq]
      constructor
      · rintro (hp | rfl)
        · exact absurd heq.symm (hname p hp)
        · exact ⟨rfl, hpod⟩
      · rintro ⟨hsome, -⟩
        exact .inr (Option.some.inj hsome).symm
    · rw [if_neg heq, ← h.roster.mem p]
      refine or_iff_left ?_
      rintro rfl
      exact heq rfl

theorem Stands.gain_exec (h : Stands rsName o db owned) {op : ApiOp .pod} {reply : Pod}
    (hexec : (ApiCall.exec ⟨.pod, op⟩ db).1 = .ok reply) (ha : op.storeOp.Addressed)
    (hleft : @WatchEvent.value Kind.pod.Obj ⟨op.storeOp.eventType, reply⟩ = some reply)
    (hnamed : op.storeOp.name = reply.metadata.name)
    (hname : ∀ p ∈ owned, p.metadata.name ≠ reply.metadata.name) (hpod : isOwnedBy reply rsName = true) :
    Stands rsName o (ApiCall.exec ⟨.pod, op⟩ db).2 (owned ++ [reply]) := by
  have hchange := podChange_of_exec h.wellFormed (Prod.ext hexec rfl) ha
  rw [hleft, hnamed] at hchange
  exact h.gain hname hpod hchange

/-- A pod of the ReplicaSet is no longer there. -/
theorem Stands.lose (h : Stands rsName o db (pod :: owned)) (hchange : PodChange pod.metadata.name none db db') :
    Stands rsName o db' owned := by
  have hnodup := h.roster.nodup
  rw [List.map_cons, List.nodup_cons] at hnodup
  refine ⟨hchange.wellFormed, (hchange.kinds .replicaSet (by decide) rsName).trans h.replicaSet, hnodup.2, ?_⟩
  intro p
  rw [hchange.pods p.metadata.name]
  by_cases heq : pod.metadata.name = p.metadata.name
  · rw [if_pos heq]
    refine iff_of_false (fun hp => hnodup.1 (List.mem_map.mpr ⟨p, hp, heq.symm⟩)) ?_
    rintro ⟨hno, -⟩
    cases hno
  · rw [if_neg heq, ← h.roster.mem p, List.mem_cons]
    refine (or_iff_right ?_).symm
    rintro rfl
    exact heq rfl

theorem Stands.rsName_eq {rs : ReplicaSet} (h : Stands rsName (some rs) db owned) : rs.metadata.name = rsName :=
  (h.wellFormed.stored_eq_some.mp h.replicaSet).1

end Stands

/-! ## Writes on pods -/

section Writes

variable {rsName : String} {o : Option ReplicaSet} {rs : ReplicaSet} {db : Db} {owned : List Pod} {pod : Pod}

/-- An adoption that is answered well brings the pod in, and one that is not does nothing. -/
theorem under_adopt {Q : Db → Except ClientError Pod → Prop} (h : Stands rsName (some rs) db owned)
    (hname : ∀ p ∈ owned, p.metadata.name ≠ pod.metadata.name)
    (hok : ∀ s updated, Stands rsName (some rs) s (owned ++ [updated]) →
      updated.metadata.name = pod.metadata.name → Q s (.ok updated))
    (herror : ∀ s e, Stands rsName (some rs) s owned → Q s (.error e)) :
    Proc.under purpose.scheme.setting (purpose.keeps rsName) Q (adopt pod rs).run db := by
  have hhandler : Handlers.replacePodSpec (adopted pod rs).metadata.name (adopted pod rs) =
      (Handler.lift (Handlers.validatePod (adopted pod rs)) >>= fun _ =>
        Handler.store .pod (.replaceSpec (adopted pod rs).metadata.name (adopted pod rs))) := by
    unfold Handlers.replacePodSpec Handlers.replace
    congr 1
    funext _
    exact if_neg fun hno => hno rfl
  refine Client.under_request ?_
  rw [hhandler]
  refine Handlers.under_check_store (k := .pod) (Q := fun s r => Q s (r.mapError .server))
    (fun e _ s hs => herror s _ (h.keeps hs)) fun _ t ht => ?_
  refine ⟨fun _ s hs => ?_, fun e => ⟨fun _ s hs => herror s _ ((h.keeps ht).keeps hs), fun hno => ?_⟩⟩
  · show Q s ((ApiCall.exec ⟨.pod, .replaceSpec (adopted pod rs).metadata.name (adopted pod rs)⟩ t).1.mapError _)
    have hs' : purpose.keeps rsName (ApiCall.exec ⟨.pod, .replaceSpec (adopted pod rs).metadata.name
      (adopted pod rs)⟩ t).2 s := hs
    cases hexec : (ApiCall.exec ⟨.pod, .replaceSpec (adopted pod rs).metadata.name (adopted pod rs)⟩ t).1 with
    | error e =>
      rw [ApiCall.exec_error hexec] at hs'
      exact herror s _ ((h.keeps ht).keeps hs')
    | ok updated =>
      obtain ⟨base, -, hupdated, -⟩ := ApiCall.startsFrom_of_exec (Prod.ext hexec rfl)
      have hsame : updated.metadata.name = pod.metadata.name := by
        rw [hupdated]
        rfl
      have howned : isOwnedBy updated rsName = true := by
        rw [hupdated]
        exact isOwnedBy_of_ownerRef h.rsName_eq (List.mem_append_right _ List.mem_cons_self)
      have hgain := (h.keeps ht).gain_exec hexec rfl rfl hsame.symm (hsame ▸ hname) howned
      exact hok s updated (hgain.keeps hs') hsame
  · exact absurd rfl hno

theorem validatePod_podFromTemplate {suffix : String} {e : ApiError}
    (h : Handlers.validatePod (podFromTemplate rs suffix) = .error e) :
    rs.spec.template.spec.containers.isEmpty = true := by
  have hname : (podFromTemplate rs suffix).metadata.name.isEmpty = false := by
    show (rs.metadata.name ++ "-" ++ suffix).isEmpty = false
    rw [Bool.eq_false_iff, ne_eq, String.isEmpty_iff]
    intro hno
    have htext := congrArg String.toList hno
    simp at htext
  unfold Handlers.validatePod at h
  rw [hname] at h
  by_contra hno
  have hcontainers : (podFromTemplate rs suffix).spec.containers.isEmpty = false := Bool.eq_false_iff.mpr hno
  rw [hcontainers] at h
  cases h

/-- A create under a free name brings a pod in, if the template makes one. -/
theorem under_createPod {Q : Db → Except ClientError Pod → Prop} {draw : Draw}
    (h : Stands rsName (some rs) db owned)
    (hgain : ∀ s created r, Stands rsName (some rs) s (owned ++ [created]) → Q s r)
    (hinvalid : ∀ s r, rs.spec.template.spec.containers.isEmpty = true → Stands rsName (some rs) s owned → Q s r) :
    Proc.under purpose.scheme.setting (purpose.keeps rsName) Q
      (Client.request (Handlers.createPod draw.stamp (podFromTemplate rs draw.suffix))).run db := by
  refine Client.under_request ?_
  refine Handlers.under_check_store (k := .pod) (Q := fun s r => Q s (r.mapError .server))
    (fun e he s hs => hinvalid s _ (validatePod_podFromTemplate he) (h.keeps hs)) fun _ t ht => ?_
  have hstands := h.keeps ht
  set obj : Pod := stampForCreate draw.stamp.uid draw.stamp.timestamp (podFromTemplate rs draw.suffix) with hobj
  have hdone : (stored .pod t obj.metadata.name).isSome ≠ true →
      ∃ created, Stands rsName (some rs) (ApiCall.exec ⟨.pod, .create obj⟩ t).2 (owned ++ [created]) := by
    intro hfree
    have hnone : stored .pod t obj.metadata.name = none := Option.not_isSome_iff_eq_none.mp hfree
    have hstarts : (ApiOp.create obj : ApiOp .pod).storeOp.StartsFrom t obj :=
      ⟨hstands.wellFormed.stored_eq_none.mp hnone, rfl⟩
    refine ⟨_, hstands.gain_exec (congrArg Prod.fst (ApiCall.exec_of_startsFrom hstarts)) trivial rfl rfl ?_ ?_⟩
    · intro p hp heq
      have hsome := ((hstands.roster.mem p).mp hp).1
      rw [heq] at hsome
      exact Option.some_ne_none p (hsome.symm.trans hnone)
    · exact isOwnedBy_of_ownerRef h.rsName_eq List.mem_cons_self
  refine ⟨fun hno s hs => ?_, fun e => ⟨fun hno => absurd rfl hno, fun hno s hs => ?_⟩⟩
  · obtain ⟨created, hcreated⟩ := hdone hno
    exact hgain s created _ (hcreated.keeps hs)
  · obtain ⟨created, hcreated⟩ := hdone hno
    exact hgain s created _ (hcreated.keeps hs)

/-- A pod of the ReplicaSet is deleted, under the version that it has. -/
theorem under_deletePod {Q : Db → Except ClientError Pod → Prop} {rv : String}
    (h : Stands rsName o db (pod :: owned)) (hrv : pod.metadata.resourceVersion = some rv)
    (hQ : ∀ s r, Stands rsName o s owned → Q s r) :
    Proc.under purpose.scheme.setting (purpose.keeps rsName) Q
      (Client.request (Handlers.deletePod pod.metadata.name (some rv))).run db := by
  refine Client.under_request fun t ht => ?_
  have hstands := h.keeps ht
  have hstored : stored .pod t pod.metadata.name = some pod :=
    ((hstands.roster.mem pod).mp List.mem_cons_self).1
  have hversion : pod.metadata.resourceVersion = _ := hstands.wellFormed.resourceVersion_eq hstored
  have hstarts : (ApiOp.delete pod.metadata.name rv : ApiOp .pod).storeOp.StartsFrom t pod :=
    ⟨stored_eq_some_iff.mp hstored, hrv.symm.trans hversion⟩
  have hchange := podChange_of_exec hstands.wellFormed (ApiCall.exec_of_startsFrom hstarts) trivial
  have hdone : Stands rsName o (ApiCall.exec ⟨.pod, .delete pod.metadata.name rv⟩ t).2 owned :=
    hstands.lose hchange
  refine ⟨fun _ s hs => hQ s _ (hdone.keeps hs), fun e => ⟨fun hno => absurd rfl hno, fun _ s hs => ?_⟩⟩
  exact hQ s _ (hdone.keeps hs)

end Writes

/-! ## The loops -/

section Loops

variable {rsName : String} {o : Option ReplicaSet} {rs : ReplicaSet} {db : Db} {owned pods left : List Pod}

/-- **The loop over the pods.** What it has found so far, with the pods of the ReplicaSet that are to come, is what
the ReplicaSet owns, whatever becomes of the orphans. -/
theorem establishes_gather
    (hnames : ((owned ++ pods).map fun pod => pod.metadata.name).Nodup)
    (h : Stands rsName (some rs) db (owned ++ pods.filter fun pod => isOwnedBy pod rsName)) :
    Proc.establishes purpose.scheme.setting (purpose.keeps rsName)
      (fun s r => Stands rsName (some rs) s (owned ++ r.1)) (gather rs rsName pods) db := by
  induction pods generalizing db owned with
  | nil => exact Proc.establishes_pure fun s hs => h.keeps hs
  | cons pod pods ih =>
    have hrest : ((owned ++ pods).map fun p => p.metadata.name).Nodup :=
      hnames.sublist (((List.sublist_cons_self pod pods).append_left owned).map _)
    have hmoved : ∀ p : Pod, p.metadata.name = pod.metadata.name →
        (((owned ++ [p]) ++ pods).map fun q => q.metadata.name).Nodup := by
      intro p hp
      rw [List.append_assoc, List.singleton_append, List.map_append, List.map_cons, hp]
      rwa [List.map_append, List.map_cons] at hnames
    unfold gather
    split_ifs with howned hadopt
    · rw [List.filter_cons_of_pos (p := fun pod => isOwnedBy pod rsName) howned, List.append_cons] at h
      refine Proc.establishes_bind (Proc.establishes_mono (fun s r hr => ?_) (ih (hmoved pod rfl) h))
      refine Proc.establishes_pure fun s' hs' => ?_
      rw [List.append_cons]
      exact hr.keeps hs'
    · rw [List.filter_cons_of_neg (p := fun pod => isOwnedBy pod rsName) howned] at h
      refine Proc.establishes_bind (Client.establishes_attempt (under_adopt h ?_ ?_ ?_))
      · intro p hp heq
        rw [List.map_append, List.map_cons, List.nodup_append', List.nodup_cons] at hnames
        rcases List.mem_append.mp hp with hp | hp
        · exact hnames.2.2 (List.mem_map.mpr ⟨p, hp, heq⟩) List.mem_cons_self
        · exact hnames.2.1.1 (List.mem_map.mpr ⟨p, List.mem_of_mem_filter hp, heq⟩)
      · intro s updated hs hname
        have hperm : ((owned ++ [updated]) ++ pods.filter fun p => isOwnedBy p rsName).Perm
            ((owned ++ pods.filter fun p => isOwnedBy p rsName) ++ [updated]) := by
          rw [List.append_assoc, List.append_assoc]
          exact List.perm_append_comm.append_left owned
        refine Proc.establishes_bind (Proc.establishes_mono (fun s' r hr => ?_)
          (ih (hmoved updated hname) (hs.of_perm hperm)))
        refine Proc.establishes_pure fun s'' hs'' => ?_
        rw [List.append_cons]
        exact hr.keeps hs''
      · intro s e hs
        refine Proc.establishes_bind (Proc.establishes_mono (fun s' r hr => ?_) (ih hrest hs))
        exact Proc.establishes_pure fun s'' hs'' => hr.keeps hs''
    · rw [List.filter_cons_of_neg (p := fun pod => isOwnedBy pod rsName) howned] at h
      exact ih hrest h

theorem establishes_createPods {draws : List Draw} (h : Stands rsName (some rs) db owned) :
    Proc.establishes purpose.scheme.setting (purpose.keeps rsName)
      (fun s _ => ∃ left, Stands rsName (some rs) s left ∧
        (rs.spec.template.spec.containers.isEmpty = false → left.length = owned.length + draws.length))
      (createPods rs draws) db := by
  induction draws generalizing db owned with
  | nil => exact Proc.establishes_pure fun s hs => ⟨owned, h.keeps hs, fun _ => rfl⟩
  | cons draw draws ih =>
    unfold createPods
    -- what the rest of the loop makes of it, whatever this create comes to
    have hrest : ∀ s left (k : List ClientError → Client (List ClientError)), Stands rsName (some rs) s left →
        (rs.spec.template.spec.containers.isEmpty = false → left.length = owned.length + 1) →
        (∀ errors, ∃ errors', k errors = pure errors') →
        Proc.establishes purpose.scheme.setting (purpose.keeps rsName)
          (fun s _ => ∃ left, Stands rsName (some rs) s left ∧
            (rs.spec.template.spec.containers.isEmpty = false →
              left.length = owned.length + (draw :: draws).length))
          (createPods rs draws >>= k) s := by
      intro s left k hs hlength hk
      refine Proc.establishes_bind (Proc.establishes_mono (fun s' errors hr => ?_) (ih hs))
      obtain ⟨left', hleft, hlength'⟩ := hr
      obtain ⟨errors', herrors⟩ := hk errors
      have hend : ∀ s'', purpose.keeps rsName s' s'' → ∃ left, Stands rsName (some rs) s'' left ∧
          (rs.spec.template.spec.containers.isEmpty = false →
            left.length = owned.length + (draw :: draws).length) := by
        intro s'' hs''
        refine ⟨left', hleft.keeps hs'', fun hok => ?_⟩
        rw [hlength' hok, hlength hok, List.length_cons]
        omega
      rw [herrors]
      exact Proc.establishes_pure hend
    refine Proc.establishes_bind (Client.establishes_attempt (under_createPod h ?_ ?_))
    · intro s created r hs
      refine hrest s _ _ hs (fun _ => List.length_append) fun errors => ?_
      cases r <;> exact ⟨_, rfl⟩
    · intro s r hempty hs
      refine hrest s _ _ hs (fun hok => ?_) fun errors => ?_
      · cases hempty.symm.trans hok
      · cases r <;> exact ⟨_, rfl⟩

theorem establishes_deletePods (h : Stands rsName o db (pods ++ left)) :
    Proc.establishes purpose.scheme.setting (purpose.keeps rsName)
      (fun s _ => Stands rsName o s left) (deletePods pods) db := by
  induction pods generalizing db with
  | nil => exact Proc.establishes_pure fun s hs => h.keeps hs
  | cons pod pods ih =>
    have hstored := ((h.roster.mem pod).mp List.mem_cons_self).1
    obtain ⟨rv, hrv⟩ := Option.ne_none_iff_exists'.mp (resourceVersion_ne_none h.wellFormed hstored)
    unfold deletePods
    simp only [hrv]
    refine Proc.establishes_bind (Client.establishes_attempt (under_deletePod h hrv fun s r hs => ?_))
    refine Proc.establishes_bind (Proc.establishes_mono (fun s' _ hr => ?_) (ih hs))
    cases r <;> exact Proc.establishes_pure fun s'' hs'' => hr.keeps hs''

end Loops

/-! ## The pass -/

section Pass

variable {rsName : String} {rs : ReplicaSet} {db : Db} {owned : List Pod}

/-- The pods of the ReplicaSet, as they are listed. -/
theorem roster_listed (h : WellFormed db) :
    Roster rsName db ((listed .pod db).filter fun pod : Pod => isOwnedBy pod rsName) where
  nodup := (h.items_names_nodup (k := .pod) h.items_eq).sublist (List.filter_sublist.map _)
  mem _ := List.mem_filter.trans (and_congr_left fun _ => h.mem_listed)

/-- The ReplicaSet has what it asks for, and a status that says so. -/
theorem Stands.inOrder (h : Stands rsName (some rs) db owned) (hstatus : rs.status = some (newStatus rs owned))
    (hlength : rs.spec.template.spec.containers.isEmpty = false → owned.length = rs.spec.replicas.toNat) :
    InOrder rsName db owned where
  roster := h.roster
  gone hno := by
    rw [h.replicaSet] at hno
    cases hno
  status rs' hrs := by
    obtain rfl := Option.some.inj (h.replicaSet.symm.trans hrs)
    exact hstatus
  replicas rs' hrs := by
    obtain rfl := Option.some.inj (h.replicaSet.symm.trans hrs)
    exact hlength

theorem establishes_updateStatus (h : Stands rsName (some rs) db owned)
    (hlength : rs.spec.template.spec.containers.isEmpty = false → owned.length = rs.spec.replicas.toNat) :
    Proc.establishes purpose.scheme.setting (purpose.keeps rsName) (fun s _ => ∃ owned, InOrder rsName s owned)
      (updateStatus rsName rs) db := by
  unfold updateStatus
  refine Proc.establishes_bind (Client.establishes_list (k := .pod) fun t t' ht ht' => ?_)
  have hlisted := h.keeps ht
  have hstatus : newStatus rs ((listed .pod t).filter fun pod => isOwnedBy pod rsName) = newStatus rs owned :=
    newStatus_perm rs (hlisted.roster.perm hlisted.wellFormed hlisted.wellFormed.items_eq)
  have hstands := hlisted.keeps ht'
  simp only [hstatus]
  split_ifs with hsame
  · exact Proc.establishes_pure fun s hs => ⟨owned, (hstands.keeps hs).inOrder hsame hlength⟩
  · have hrv : rs.metadata.resourceVersion = _ := hstands.wellFormed.resourceVersion_eq hstands.replicaSet
    simp only [hrv]
    refine Proc.establishes_bind (Client.establishes_request ?_)
    refine Handler.establishes_store (k := .replicaSet) serves fun u s reply hu hexec hs => ?_
    have hbefore := hstands.keeps hu
    obtain ⟨base, hbase, hreply, -⟩ := ApiCall.startsFrom_of_exec (Prod.ext hexec rfl)
    obtain rfl : base = rs := Option.some.inj ((stored_eq_some_iff.mpr hbase.1).symm.trans hbefore.replicaSet)
    have hafter := ApiCall.stored_exec hexec
    obtain ⟨hkinds, -⟩ := ApiCall.exec_frame (.replaceStatus rsName (version base) (newStatus base owned) :
      ApiOp .replicaSet) u
    have hdone : Stands rsName (some reply) (ApiCall.exec ⟨.replicaSet,
        .replaceStatus rsName (version base) (newStatus base owned)⟩ u).2 owned := by
      refine ⟨ApiCall.wellFormed_exec hbefore.wellFormed rfl fun _ => rfl, hafter, hbefore.roster.nodup, fun pod => ?_⟩
      rw [hkinds .pod (by decide)]
      exact hbefore.roster.mem pod
    refine Proc.establishes_pure fun s' hs' => ⟨owned, ((hdone.keeps hs).keeps hs').inOrder ?_ ?_⟩
    · rw [hreply]
      rfl
    · rw [hreply]
      exact hlength

/-- **A pass among others.** If nothing is written in between that matters to the ReplicaSet, a pass that succeeds
leaves its pods in order. -/
theorem settles_reconcile (draws : ℕ → Draw) (hwf : WellFormed db) :
    Proc.establishes purpose.scheme.setting (purpose.keeps rsName) (fun s _ => ∃ owned, InOrder rsName s owned)
      (reconcile draws rsName) db := by
  unfold reconcile
  refine Proc.establishes_bind (Client.establishes_get fun t t' ht ht' => ?_)
  have hreplicaSet : stored .replicaSet t' rsName = stored .replicaSet t rsName := ht'.2.replicaSet
  have hwf' : WellFormed t' := ht'.1 (ht.1 hwf)
  -- the pods that the ReplicaSet owns when they are listed
  have hstands : ∀ s, purpose.keeps rsName t' s → Stands rsName (stored .replicaSet t rsName) s
      ((listed .pod s).filter fun pod => isOwnedBy pod rsName) := by
    exact fun s hs => ⟨hs.1 hwf', hs.2.replicaSet.trans hreplicaSet, roster_listed (hs.1 hwf')⟩
  cases hrs : stored .replicaSet t rsName with
  | none =>
    rw [hrs] at hstands
    simp only
    unfold cascadeDelete
    refine Proc.establishes_bind (Client.establishes_list (k := .pod) fun s s' hs hs' => ?_)
    have hall := (hstands s hs).keeps hs'
    refine Proc.establishes_mono (fun u _ hu => ⟨[], hu.roster, fun _ => rfl, ?_, ?_⟩)
      (@establishes_deletePods rsName none s' _ [] (by rwa [List.append_nil]))
    · intro rs hno
      cases hu.replicaSet.symm.trans hno
    · intro rs hno
      cases hu.replicaSet.symm.trans hno
  | some rs =>
    rw [hrs] at hstands
    simp only
    refine Proc.establishes_bind (Client.establishes_list (k := .pod) fun s s' hs hs' => ?_)
    have hall := (hstands s hs).keeps hs'
    have hnames := (hs.1 hwf').items_names_nodup (k := .pod) (hs.1 hwf').items_eq
    refine Proc.establishes_bind (Proc.establishes_mono (fun u r hu => ?_)
      (@establishes_gather rsName rs s' [] (listed .pod s) hnames hall))
    obtain ⟨owned, errors⟩ := r
    simp only [List.nil_append] at hu
    have hend : ∀ errors' u left, Stands rsName (some rs) u left →
        (rs.spec.template.spec.containers.isEmpty = false → left.length = rs.spec.replicas.toNat) →
        Proc.establishes purpose.scheme.setting (purpose.keeps rsName)
          (fun s _ => ∃ owned, InOrder rsName s owned)
          (updateStatus rsName rs >>= fun _ => pure (errors ++ errors')) u := by
      intro errors' u left hleft hlength
      refine Proc.establishes_bind (Proc.establishes_mono (fun v _ hv => ?_)
        (establishes_updateStatus hleft hlength))
      obtain ⟨final, hfinal⟩ := hv
      exact Proc.establishes_pure fun v' hv' => ⟨final, hfinal.alike hv'.2⟩
    simp only
    split_ifs with hless hmore
    · refine Proc.establishes_bind (Proc.establishes_mono (fun v _ hv => ?_) (establishes_createPods hu))
      obtain ⟨left, hleft, hlength⟩ := hv
      refine hend _ v left hleft fun hok => ?_
      rw [hlength hok, List.length_map, List.length_range]
      omega
    · have hperm := List.perm_insertionSort createdBefore owned
      have hsplit : (surplus rs.spec.replicas.toNat owned ++ (owned.insertionSort createdBefore).drop
          (owned.length - rs.spec.replicas.toNat)).Perm owned := by
        unfold surplus
        rwa [List.take_append_drop]
      refine Proc.establishes_bind (Proc.establishes_mono (fun v _ hv => ?_)
        (establishes_deletePods (hu.of_perm hsplit)))
      refine hend _ v _ hv fun _ => ?_
      rw [List.length_drop, hperm.length_eq]
      omega
    · exact Proc.establishes_bind (Proc.establishes_pure fun v hv => hend _ v owned (hu.keeps hv) fun _ => by omega)

end Pass

end MyK8s.Controller.ReplicaSets
