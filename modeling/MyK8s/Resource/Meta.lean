import MyK8s.Lib.Serde

/-!
# Object metadata

`src/meta.rs`: the metadata every API resource carries, and what the generic store needs of a
resource: its metadata, the key prefix of its kind, and what becomes of its status.
-/

namespace MyK8s

open Serde (StringMap)

structure OwnerReference where
  apiVersion : String
  kind : String
  name : String
  uid : String
  controller : Bool
  deriving DecidableEq

structure ObjectMeta where
  name : String
  uid : Option String
  resourceVersion : Option String
  generation : Option UInt64
  creationTimestamp : Option String
  labels : StringMap
  ownerReferences : List OwnerReference
  deriving DecidableEq

instance : Serde OwnerReference where
  toValue r := .object (
    Serde.field "apiVersion" r.apiVersion ++
    Serde.field "kind" r.kind ++
    Serde.field "name" r.name ++
    Serde.field "uid" r.uid ++
    Serde.field "controller" r.controller)
  fromValue v := Serde.struct 5 v fun fs => do
    let apiVersion ← fs.required 0 "apiVersion"
    let kind ← fs.required 1 "kind"
    let name ← fs.required 2 "name"
    let uid ← fs.required 3 "uid"
    let controller ← fs.required 4 "controller"
    pure { apiVersion, kind, name, uid, controller }

instance : Serde ObjectMeta where
  toValue m := .object (
    Serde.field "name" m.name ++
    Serde.fieldUnless Option.isNone "uid" m.uid ++
    Serde.fieldUnless Option.isNone "resourceVersion" m.resourceVersion ++
    Serde.fieldUnless Option.isNone "generation" m.generation ++
    Serde.fieldUnless Option.isNone "creationTimestamp" m.creationTimestamp ++
    Serde.fieldUnless (fun l : StringMap => l.isEmpty) "labels" m.labels ++
    Serde.fieldUnless List.isEmpty "ownerReferences" m.ownerReferences)
  fromValue v := Serde.struct 7 v fun fs => do
    let name ← fs.required 0 "name"
    let uid ← fs.optional 1 "uid"
    let resourceVersion ← fs.optional 2 "resourceVersion"
    let generation ← fs.optional 3 "generation"
    let creationTimestamp ← fs.optional 4 "creationTimestamp"
    let labels ← fs.defaulted 5 "labels" ∅
    let ownerReferences ← fs.defaulted 6 "ownerReferences" []
    pure { name, uid, resourceVersion, generation, creationTimestamp, labels, ownerReferences }

/-- The trait `ResourceMeta`. `meta_mut` gives the metadata out for writing: here it is replaced.
Every prefix has a slash in it, which keeps the keys of objects apart from those of counters. -/
class ResourceMeta (T : Type) extends Serde T where
  kindPrefix : String
  slash_mem : '/' ∈ kindPrefix.toList := by decide
  getMeta : T → ObjectMeta
  setMeta : T → ObjectMeta → T
  /-- Strip the status on create. -/
  clearStatus : T → T := fun obj => obj
  /-- Keep the status of the second object over a replacement of the spec. -/
  inheritStatus : T → T → T := fun obj _ => obj

namespace ResourceMeta

variable {T : Type} [ResourceMeta T]

/-- `stamp_for_create`, with the uid and the time that it draws. -/
def stampForCreate (uid timestamp : String) (obj : T) : T :=
  clearStatus (setMeta obj { getMeta obj with
    uid := some uid
    generation := some 1
    creationTimestamp := some timestamp
    resourceVersion := none })

end ResourceMeta

end MyK8s
