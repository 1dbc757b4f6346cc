import MyK8s.ApiServer.Watch

/-!
# One version, one object

As long as the counter does not reach its bound, no version is given twice. So an object that has been read
at some time and one that is read later, under the same name and with the same version, are the same.
-/

namespace MyK8s.ApiServer

open ResourceMeta (getMeta)

/-- The stores so far, the latest first. Under one name, a version is that of one object. -/
structure Chronicle (k : Kind) (now : Db) (past : List Db) : Prop where
  wellFormed : ∀ db ∈ now :: past, WellFormed db
  counted : ∀ db ∈ now :: past, currentRv db ≤ currentRv now
  agree : ∀ db ∈ now :: past, ∀ db' ∈ now :: past, ∀ name obj obj',
    stored k db name = some obj → stored k db' name = some obj' →
      (getMeta obj).resourceVersion = (getMeta obj').resourceVersion → obj = obj'

namespace Chronicle

variable {k : Kind} {now : Db} {past : List Db}

theorem start (k : Kind) {db : Db} (h : WellFormed db) : Chronicle k db [] where
  wellFormed := List.forall_mem_singleton.mpr h
  counted := List.forall_mem_singleton.mpr le_rfl
  agree := by
    refine List.forall_mem_singleton.mpr (List.forall_mem_singleton.mpr fun name obj obj' hobj hobj' _ => ?_)
    exact Option.some.inj (hobj.symm.trans hobj')

/-- What a write leaves was there before, or has a version that none had before. -/
theorem fresh_of_write (h : WellFormed now) {w : Write} (hlt : currentRv (w.step now) < u64Max) {name : String}
    {obj : k.Obj} (hobj : stored k (w.step now) name = some obj) :
    stored k now name = some obj ∨ currentRv now < resourceRv obj := by
  rcases w.cases h k with ⟨-, hsame⟩ | ⟨event, -, hcount, hrv, hleft⟩
  · exact .inl ((hsame name).symm.trans hobj)
  · rw [hleft] at hobj
    split at hobj
    · right
      have hnext : currentRv now < currentRv (w.step now) := by
        rw [hcount] at hlt ⊢
        have hle := le_saturatingSucc (currentRv now)
        rw [saturatingSucc_of_lt (by omega)]
        omega
      have heq : event.object = obj := by
        unfold WatchEvent.value at hobj
        split at hobj
        · cases hobj
        · exact Option.some.inj hobj
      rw [← heq, hrv, ← hcount]
      exact hnext
    · exact .inl hobj

/-- **One more write.** -/
theorem write (h : Chronicle k now past) (w : Write) (hlt : currentRv (w.step now) < u64Max) :
    Chronicle k (w.step now) (now :: past) := by
  have hnow : now ∈ now :: past := List.mem_cons_self
  have hwf : WellFormed now := h.wellFormed now hnow
  -- a version that is new is above those of all stores before
  have hnew : ∀ db ∈ now :: past, ∀ name obj obj', stored k (w.step now) name = some obj →
      stored k db name = some obj' → (getMeta obj).resourceVersion = (getMeta obj').resourceVersion →
        obj = obj' := by
    intro db hdb name obj obj' hobj hobj' hversion
    rcases fresh_of_write hwf hlt hobj with hold | hfresh
    · exact h.agree now hnow db hdb name obj obj' hold hobj' hversion
    · have hbound := ((h.wellFormed db hdb).resourceRv_stored hobj').2
      have hcount := h.counted db hdb
      have hsame : resourceRv obj = resourceRv obj' := by
        unfold resourceRv
        rw [hversion]
      omega
  constructor
  case wellFormed => exact List.forall_mem_cons.mpr ⟨hwf.write w, h.wellFormed⟩
  case counted =>
    have hle : currentRv now ≤ currentRv (w.step now) := stores_lawful.count_le now (w.call, .none)
    exact List.forall_mem_cons.mpr ⟨le_rfl, fun db hdb => (h.counted db hdb).trans hle⟩
  case agree =>
    intro db hdb db' hdb' name obj obj' hobj hobj' hversion
    rcases List.mem_cons.mp hdb with rfl | hold <;> rcases List.mem_cons.mp hdb' with rfl | hold'
    · exact Option.some.inj (hobj.symm.trans hobj')
    · exact hnew db' hold' name obj obj' hobj hobj' hversion
    · exact (hnew db hold name obj' obj hobj' hobj hversion.symm).symm
    · exact h.agree db hold db' hold' name obj obj' hobj hobj' hversion

end Chronicle

end MyK8s.ApiServer
