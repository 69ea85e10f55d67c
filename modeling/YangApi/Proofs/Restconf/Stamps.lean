import YangApi.Proofs.Restconf.Items

/-! What the operations of a document have of the segments that they are written for, whatever else
their methods ask for: an id and tags. Both come from what was written last for a path and a method,
and stay when references are retargeted. -/

namespace YangApi

/-- The part of an operation that its segment decides on, but for the parameters. -/
structure Operation.Stamp where
  id : Option String
  tags : List String

def Operation.stamp (o : Operation) : Stamp := ⟨o.id, o.tags⟩

namespace Restconf

variable {rules : List TagRule} {s : Segment} {definition : String} {m : Method}

theorem stamp_get?_setData : ((setData rules s definition {}).get? m).map Operation.stamp =
    if m = .get ∨ (m ≠ .patch ∧ ¬ s.isReadOnly) then some (base rules m s).stamp else none := by
  unfold setData
  dsimp only
  split
  all_goals
    next h =>
      cases m <;> simp [PathItem.get?, PathItem.set, h, getData, putData, postData, deleteData,
        withBody, Operation.stamp]

theorem stamp_invoke (r : Rpc Resolved) (input output : Option String) :
    (invoke rules s r input output).stamp = (base rules .post s).stamp := by
  cases input <;> rfl

end Restconf

namespace Visit

variable {rules : List TagRule} {nameOf : Resolved → String}

def segmentFor? (p : String) (m : Method) (moduleName : String) : Visit → Option Segment
  | .path _ s =>
    if Restconf.dataPath s = p ∧ (m = .get ∨ (m ≠ .patch ∧ ¬ s.isReadOnly)) then some s else none
  | .define _ => none
  | .rpc r s =>
    if Restconf.operationPath (r.ownerIn moduleName) r.name = p ∧ m = .post then some s else none

theorem stamp_written? (p : String) (m : Method) (moduleName : String) (v : Visit) :
    (v.written? rules nameOf p m moduleName).map Operation.stamp =
      (v.segmentFor? p m moduleName).map fun s => (Restconf.base rules m s).stamp := by
  cases v with
  | define i => rfl
  | path i s =>
    rw [written?, segmentFor?]
    by_cases hpath : Restconf.dataPath s = p
    · rw [if_pos hpath, Restconf.stamp_get?_setData]
      simp only [hpath, true_and, apply_ite (Option.map _), Option.map_some, Option.map_none]
    · rw [if_neg hpath, if_neg fun h => hpath h.1]
      rfl
  | rpc r s =>
    rw [written?, segmentFor?]
    by_cases hpath : Restconf.operationPath (r.ownerIn moduleName) r.name = p ∧ m = .post
    · rw [if_pos hpath, if_pos hpath, hpath.2]
      exact congrArg some (Restconf.stamp_invoke ..)
    · rw [if_neg hpath, if_neg hpath]
      rfl

end Visit

namespace Generator

/-- The segment that the run writes a method of a path for, the last one if there are several. -/
def segmentFor? (g : Generator) (p : String) (m : Method) : Option Segment :=
  g.visits.reverse.findSome? fun v => v.2.segmentFor? p m v.1

theorem stamp_result (g : Generator) (p : String) (m : Method) :
    (g.result.paths.operation? p m).map Operation.stamp =
      (g.segmentFor? p m).map fun s => (Restconf.base g.handler.rules m s).stamp := by
  have hretarget : Operation.stamp ∘ Operation.retarget g.aliases = Operation.stamp := rfl
  have hwritten : Option.map Operation.stamp ∘ g.writtenBy p m = fun v =>
      (v.2.segmentFor? p m v.1).map fun s => (Restconf.base g.handler.rules m s).stamp :=
    funext fun v => Visit.stamp_written? p m v.1 v.2
  rw [operation?_result, operation?_draft_eq, Option.map_map, hretarget, List.map_findSome?,
    hwritten, segmentFor?, List.map_findSome?]
  rfl

end Generator

end YangApi
