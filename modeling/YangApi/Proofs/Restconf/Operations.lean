import YangApi.Proofs.References
import YangApi.Proofs.Visit

/-! Which operations are written, and which one stands on a path for a method: the one that was
written last. -/

namespace YangApi

namespace Table

def operation? (paths : Table PathItem) (p : String) (m : Method) : Option Operation :=
  (paths.get? p).bind (·.get? m)

/-- A path that is missing has no operations. -/
theorem operation?_eq (paths : Table PathItem) (p : String) (m : Method) :
    paths.operation? p m = ((paths.get? p).getD {}).get? m := by
  unfold operation?
  cases paths.get? p with
  | none => cases m <;> rfl
  | some item => rfl

end Table

theorem Document.mem_operations {d : Document} {o : Operation} :
    o ∈ d.operations ↔ ∃ p m, d.paths.operation? p m = some o := by
  simp only [operations, List.mem_flatMap, List.mem_map, Table.mem_values, Table.operation?,
    Option.bind_eq_some_iff, PathItem.mem_operations, Prod.exists]
  constructor
  · rintro ⟨item, ⟨p, hitem⟩, m, _, ho, rfl⟩
    exact ⟨p, m, item, hitem, ho⟩
  · rintro ⟨p, m, item, hitem, ho⟩
    exact ⟨item, ⟨p, hitem⟩, m, o, ho, rfl⟩

namespace Restconf

variable {rules : List TagRule} {s : Segment} {definition : String} {m : Method} {o : Operation}

theorem mem_sides {r : Rpc Resolved} {side : RpcSide Resolved} {direction : Direction}
    (h : r.side direction = some side) : side ∈ r.sides := by
  cases direction <;> simp_all [Rpc.side, Rpc.sides]

theorem get?_setData (rules : List TagRule) (s : Segment) (definition : String) (i : PathItem) (m : Method) :
    (setData rules s definition i).get? m =
      ((setData rules s definition {}).get? m).or (i.get? m) := by
  unfold setData
  dsimp only
  split <;> cases m <;> rfl

/-- The operations of data. It can be read, and changed unless it is read-only. -/
inductive DataOperation (rules : List TagRule) (s : Segment) (definition : String) :
    Method → Operation → Prop
  | get : DataOperation rules s definition .get (getData rules s definition)
  | put (h : ¬ s.isReadOnly) : DataOperation rules s definition .put (putData rules s definition)
  | post (h : ¬ s.isReadOnly) :
    DataOperation rules s definition .post (postData rules s definition)
  | delete (h : ¬ s.isReadOnly) :
    DataOperation rules s definition .delete (deleteData rules s definition)

theorem dataOperation_of_get?_setData (h : (setData rules s definition {}).get? m = some o) :
    DataOperation rules s definition m o := by
  unfold setData at h
  dsimp only at h
  split at h
  · cases m <;> cases h
    exact .get
  · next hwritable =>
    cases m <;> cases h
    · exact .get
    · exact .put hwritable
    · exact .post hwritable
    · exact .delete hwritable

theorem DataOperation.refs {r : String} (h : DataOperation rules s definition m o)
    (hr : r ∈ o.refs) : r = definition := by
  cases h with
  | get => exact refs_getData hr
  | put => exact refs_putData hr
  | post => exact refs_postData hr
  | delete => exact absurd (refs_deleteData ▸ hr) List.not_mem_nil

end Restconf

/-- What a visit writes to the paths when all names are known. -/
def Visit.write (rules : List TagRule) (nameOf : Resolved → String) (moduleName : String)
    (paths : Table PathItem) : Visit → Table PathItem
  | .path i s => paths.upsert (Restconf.dataPath s) fun item =>
      Restconf.setData rules s (nameOf i.head) (item.getD {})
  | .define _ => paths
  | .rpc r s => paths.upsert (Restconf.operationPath (r.ownerIn moduleName) r.name) fun item =>
      (item.getD {}).set .post (Restconf.invoke rules s r (r.input.map fun side => nameOf side.head)
        (r.output.map fun side => nameOf side.head))

namespace Visit

variable {rules : List TagRule} {nameOf : Resolved → String} {paths : Table PathItem}

def written? (rules : List TagRule) (nameOf : Resolved → String) (p : String) (m : Method)
    (moduleName : String) : Visit → Option Operation
  | .path i s =>
    if Restconf.dataPath s = p then (Restconf.setData rules s (nameOf i.head) {}).get? m else none
  | .define _ => none
  | .rpc r s =>
    if Restconf.operationPath (r.ownerIn moduleName) r.name = p ∧ m = .post then
      some (Restconf.invoke rules s r (r.input.map fun side => nameOf side.head)
        (r.output.map fun side => nameOf side.head))
    else none

theorem operation?_write (p : String) (m : Method) (moduleName : String) (v : Visit) :
    (v.write rules nameOf moduleName paths).operation? p m =
      (v.written? rules nameOf p m moduleName).or (paths.operation? p m) := by
  cases v with
  | define i => rfl
  | path i s =>
    rw [write, Table.operation?_eq, Table.operation?_eq, Table.get?_upsert, written?]
    by_cases hpath : Restconf.dataPath s = p
    · rw [if_pos hpath.symm, if_pos hpath, Option.getD_some, Restconf.get?_setData, hpath]
    · rw [if_neg (Ne.symm hpath), if_neg hpath, Option.none_or]
  | rpc r s =>
    rw [write, Table.operation?_eq, Table.operation?_eq, Table.get?_upsert, written?]
    by_cases hpath : Restconf.operationPath (r.ownerIn moduleName) r.name = p
    · rw [if_pos hpath.symm, Option.getD_some, PathItem.get?_set, hpath]
      by_cases hm : m = .post <;> simp [hm]
    · rw [if_neg (Ne.symm hpath), if_neg fun h => hpath h.1, Option.none_or]

/-- On a path stands, method by method, what was written last. -/
theorem operation?_foldl_write (p : String) (m : Method) (vs : List (String × Visit)) :
    (vs.foldl (fun t v => v.2.write rules nameOf v.1 t) paths).operation? p m =
      (vs.reverse.findSome? fun v => v.2.written? rules nameOf p m v.1).or
        (paths.operation? p m) := by
  induction vs generalizing paths with
  | nil => rfl
  | cons v vs ih =>
    rw [List.foldl_cons, ih, operation?_write, List.reverse_cons, List.findSome?_append,
      Option.or_assoc]
    simp

theorem refs_written? {p r moduleName : String} {m : Method} {v : Visit} {o : Operation}
    (h : v.written? rules nameOf p m moduleName = some o) (hr : r ∈ o.refs) :
    ∃ i ∈ v.mentions, nameOf i.head = r := by
  cases v with
  | define i => cases h
  | path i s =>
    obtain ⟨-, h⟩ := Option.ite_none_right_eq_some.1 h
    have hname := (Restconf.dataOperation_of_get?_setData h).refs hr
    exact ⟨i, List.mem_singleton_self i, hname.symm⟩
  | rpc q s =>
    have hside : ∀ {direction : Direction} {side : RpcSide Resolved},
        q.side direction = some side → side.interior ∈ (Visit.rpc q s).mentions :=
      fun hs => List.mem_map_of_mem (Restconf.mem_sides hs)
    obtain ⟨-, h⟩ := Option.ite_none_right_eq_some.1 h
    obtain rfl := Option.some.inj h
    rcases Restconf.refs_invoke hr with hr | hr
    · obtain ⟨side, hs, rfl⟩ := Option.map_eq_some_iff.1 hr
      have hs : q.side .input = some side := hs
      exact ⟨_, hside hs, rfl⟩
    · obtain ⟨side, hs, rfl⟩ := Option.map_eq_some_iff.1 hr
      have hs : q.side .output = some side := hs
      exact ⟨_, hside hs, rfl⟩

end Visit

end YangApi
