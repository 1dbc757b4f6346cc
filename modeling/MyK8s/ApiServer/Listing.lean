import MyK8s.ApiServer.Watch

/-!
# Lists and single objects

A list of a kind, up to its order, is the object of one name and the objects of all other names. So
what a write on one name does to whatever is computed from a list can be told from that name alone.
-/

namespace MyK8s.ApiServer

open ResourceMeta (getMeta kindPrefix)

namespace WellFormed

variable {db db' : Db} {k : Kind} {objs objs' : List k.Obj}

theorem mem_items (h : WellFormed db) (hitems : ResourceStore.items k.Obj db = .ok objs)
    {obj : k.Obj} : obj ∈ objs ↔ stored k db (getMeta obj).name = some obj := by
  obtain ⟨objs', hitems', hmem, -⟩ := h.items_ok k
  obtain rfl := Except.ok.inj (hitems.symm.trans hitems')
  rw [hmem, h.stored_eq_some]
  exact ⟨fun hs => ⟨rfl, hs⟩, fun hs => hs.2⟩

theorem items_names_nodup (h : WellFormed db) (hitems : ResourceStore.items k.Obj db = .ok objs) :
    (objs.map fun obj => (getMeta obj).name).Nodup := by
  obtain ⟨objs', hitems', -, hnodup⟩ := h.items_ok k
  obtain rfl := Except.ok.inj (hitems.symm.trans hitems')
  exact hnodup

theorem items_nodup (h : WellFormed db) (hitems : ResourceStore.items k.Obj db = .ok objs) :
    objs.Nodup := (h.items_names_nodup hitems).of_map _

/-- What is stored has a version to echo. -/
theorem resourceVersion_eq (h : WellFormed db) {name : String} {obj : k.Obj}
    (hs : stored k db name = some obj) : (getMeta obj).resourceVersion = some (version obj) := by
  obtain ⟨obj', heq, -, n, -, -, hrv⟩ := h.found (h.stored_eq_some.mp hs).2
  obtain rfl := toJson_injective heq
  rw [version, hrv]
  rfl

/-- The objects with other names. -/
def others (name : String) (objs : List k.Obj) : List k.Obj :=
  objs.filter fun obj => (getMeta obj).name ≠ name

/-- **A list** is the object of a name and those of all others. -/
theorem items_perm (h : WellFormed db) (hitems : ResourceStore.items k.Obj db = .ok objs)
    (name : String) : objs.Perm ((stored k db name).toList ++ others name objs) := by
  have hnodup := h.items_nodup hitems
  have hnamed : (objs.filter fun obj => (getMeta obj).name = name).Perm
      (stored k db name).toList := by
    refine (List.perm_ext_iff_of_nodup (hnodup.filter _) ?_).mpr fun obj => ?_
    · cases stored k db name <;> simp
    · rw [List.mem_filter, h.mem_items hitems, Option.mem_toList, decide_eq_true_iff]
      constructor
      · rintro ⟨hs, rfl⟩
        exact hs
      · intro hs
        have hname := (h.stored_eq_some.mp hs).1
        exact ⟨by rw [hname]; exact hs, hname⟩
  have hsplit := List.filter_append_perm (fun obj => decide ((getMeta obj).name = name)) objs
  refine hsplit.symm.trans (hnamed.append (List.Perm.of_eq ?_))
  unfold others
  congr 1
  funext obj
  simp

/-- A write on a name leaves the others. -/
theorem others_perm (h : WellFormed db) (h' : WellFormed db')
    (hitems : ResourceStore.items k.Obj db = .ok objs)
    (hitems' : ResourceStore.items k.Obj db' = .ok objs') {name : String}
    (hagree : ∀ other, other ≠ name → stored k db' other = stored k db other) :
    (others name objs').Perm (others name objs) := by
  refine (List.perm_ext_iff_of_nodup ((h'.items_nodup hitems').filter _)
    ((h.items_nodup hitems).filter _)).mpr fun obj => ?_
  simp only [List.mem_filter, h.mem_items hitems, h'.mem_items hitems', decide_eq_true_iff]
  refine and_congr_left fun hne => ?_
  rw [hagree _ hne]

/-- What a write on a name does to a list. -/
theorem items_perm_of_agree (h : WellFormed db) (h' : WellFormed db')
    (hitems : ResourceStore.items k.Obj db = .ok objs)
    (hitems' : ResourceStore.items k.Obj db' = .ok objs') {name : String}
    (hagree : ∀ other, other ≠ name → stored k db' other = stored k db other) :
    objs'.Perm ((stored k db' name).toList ++ others name objs) :=
  (h'.items_perm hitems' name).trans ((h.others_perm h' hitems hitems' hagree).append_left _)

end WellFormed

/-- The objects of a kind. -/
def listed (k : Kind) (db : Db) : List k.Obj :=
  match ResourceStore.items k.Obj db with
  | .ok objs => objs
  | .error _ => []

section Listed

variable {k : Kind} {db db' : Db}

theorem WellFormed.items_eq (h : WellFormed db) : ResourceStore.items k.Obj db = .ok (listed k db) := by
  obtain ⟨objs, hobjs, -⟩ := h.items_ok k
  rw [listed, hobjs]

theorem WellFormed.mem_listed (h : WellFormed db) {obj : k.Obj} :
    obj ∈ listed k db ↔ stored k db (getMeta obj).name = some obj := h.mem_items h.items_eq

/-- An entry of the scan is the object that is stored under its name. -/
theorem WellFormed.mem_scanPrefix_iff (h : WellFormed db) {entry : String × Cell} :
    entry ∈ ResourceStore.scanPrefix db (kindPrefix k.Obj) ↔ ∃ obj : k.Obj,
      entry = (key k.Obj (getMeta obj).name, toJson obj) ∧ stored k db (getMeta obj).name = some obj := by
  constructor
  · intro he
    obtain ⟨obj, hk, hv, hs⟩ := h.scan_ok k he
    exact ⟨obj, Prod.ext hk hv, h.stored_eq_some.mpr ⟨rfl, hs⟩⟩
  · rintro ⟨obj, rfl, hs⟩
    refine ResourceStore.mem_scanPrefix.mpr ⟨(h.stored_eq_some.mp hs).2, ?_⟩
    rw [key, String.toList_append]
    exact List.prefix_append _ _

/-- Where the same is stored, the same is listed, and in the same order. -/
theorem WellFormed.listed_eq (h : WellFormed db) (h' : WellFormed db')
    (hagree : ∀ name, stored k db' name = stored k db name) : listed k db' = listed k db := by
  have hsorted : ∀ db : Db, (ResourceStore.scanPrefix db (kindPrefix k.Obj)).Pairwise
      fun a b => compare a.1 b.1 = .lt := fun db => Std.ExtTreeMap.ordered_keys_toList.filter _
  have hnodup : ∀ db : Db, (ResourceStore.scanPrefix db (kindPrefix k.Obj)).Nodup := by
    intro db
    refine (hsorted db).imp fun {a b} hlt => ?_
    rintro rfl
    rw [@Std.ReflCmp.compare_self String compare _ a.1] at hlt
    cases hlt
  have hperm : (ResourceStore.scanPrefix db' (kindPrefix k.Obj)).Perm
      (ResourceStore.scanPrefix db (kindPrefix k.Obj)) := by
    refine (List.perm_ext_iff_of_nodup (hnodup db') (hnodup db)).mpr fun entry => ?_
    rw [h'.mem_scanPrefix_iff, h.mem_scanPrefix_iff]
    simp only [hagree]
  have hscan := List.Perm.eq_of_pairwise (fun a b _ _ hab hba => ?_) (hsorted db') (hsorted db) hperm
  · unfold listed ResourceStore.items
    rw [hscan]
  · rw [@Std.OrientedCmp.eq_swap String compare _ a.1 b.1, hba] at hab
    cases hab

/-- Where the same is stored, the same is listed. -/
theorem WellFormed.listed_perm (h : WellFormed db) (h' : WellFormed db')
    (hagree : ∀ name, stored k db' name = stored k db name) : (listed k db').Perm (listed k db) := by
  refine (List.perm_ext_iff_of_nodup (h'.items_nodup h'.items_eq) (h.items_nodup h.items_eq)).mpr fun obj => ?_
  rw [h.mem_listed, h'.mem_listed, hagree]

end Listed

end MyK8s.ApiServer
