import YangApi.Proofs.Alias.Collapse
import YangApi.Proofs.Run

/-! What a document tells apart from its definitions: which operations stand on which path, with
which parameters and which codes of responses. Neither the names of definitions nor aliases matter
for it. -/

namespace YangApi

/-- How a parameter is listed: what it is in, and its name. -/
def Parameter.label : Parameter → String × String
  | .body p => ("body", p.name)
  | .path p => ("path", p.name)

/-- What an operation tells whatever the definitions are called. -/
structure Outline where
  id : Option String
  tags : List String
  parameters : List (String × String)
  responses : List String
  deriving DecidableEq

def Outline.withBody (x : Outline) (name : String) : Outline :=
  { x with parameters := x.parameters ++ [("body", name)] }

/-- The names of the path parameters. -/
def Outline.pathParams (x : Outline) : List String :=
  x.parameters.filterMap fun e => if e.1 = "path" then some e.2 else none

theorem Outline.pathParams_withBody (x : Outline) (name : String) :
    (x.withBody name).pathParams = x.pathParams := by
  simp [pathParams, withBody]

namespace Operation

def outline (o : Operation) : Outline :=
  ⟨o.id, o.tags, o.parameters.map Parameter.label, o.responses.keys⟩

def pathParams (o : Operation) : List String :=
  o.parameters.filterMap fun
    | .path p => some p.name
    | .body _ => none

theorem pathParams_eq (o : Operation) : o.pathParams = o.outline.pathParams := by
  unfold pathParams Outline.pathParams outline
  rw [List.filterMap_map]
  congr
  funext p
  cases p <;> rfl

theorem isSome_body?_iff (o : Operation) :
    o.body?.isSome ↔ ∃ name, ("body", name) ∈ o.outline.parameters := by
  unfold body? outline
  simp only [List.isSome_findSome?, List.any_eq_true, List.mem_map]
  constructor
  · rintro ⟨p, hp, h⟩
    cases p with
    | body b => exact ⟨b.name, .body b, hp, rfl⟩
    | path p => cases h
  · rintro ⟨name, p, hp, h⟩
    refine ⟨p, hp, ?_⟩
    cases p with
    | body b => rfl
    | path p => simp [Parameter.label] at h

theorem outline_retarget (m : AliasMap) (o : Operation) : (o.retarget m).outline = o.outline := by
  have hlabels : (o.parameters.map (Parameter.retarget m)).map Parameter.label =
      o.parameters.map Parameter.label := by
    rw [List.map_map]
    refine List.map_congr_left fun p _ => ?_
    cases p <;> rfl
  simp only [outline, retarget, hlabels, Table.keys_map]

end Operation

namespace PathItem

def outline (i : PathItem) : List (Method × Outline) := i.operations.map fun e => (e.1, e.2.outline)

theorem mem_outline {i : PathItem} {m : Method} {x : Outline} :
    (m, x) ∈ i.outline ↔ ∃ o, i.get? m = some o ∧ o.outline = x := by
  simp only [outline, List.mem_map, Prod.exists, mem_operations, Prod.mk.injEq]
  constructor
  · rintro ⟨_, o, ho, rfl, rfl⟩
    exact ⟨o, ho, rfl⟩
  · rintro ⟨o, ho, rfl⟩
    exact ⟨m, o, ho, rfl, rfl⟩

theorem methods_eq (i : PathItem) : i.methods = i.outline.map Prod.fst := by
  simp [methods, outline, Function.comp_def]

theorem outline_map_retarget (m : AliasMap) (i : PathItem) :
    (i.map (Operation.retarget m)).outline = i.outline := by
  simp only [outline, operations_map, List.map_map, Function.comp_def, Operation.outline_retarget]

end PathItem

def Table.outline (paths : Table PathItem) : List (String × List (Method × Outline)) :=
  paths.entries.map fun e => (e.1, e.2.outline)

theorem Table.keys_eq_outline (paths : Table PathItem) :
    paths.keys = paths.outline.map Prod.fst := by
  simp [outline, keys]

namespace Document

def outline (d : Document) : List (String × List (Method × Outline)) := d.paths.outline

theorem mem_outline {d : Document} {path : String} {i : PathItem}
    (h : d.paths.get? path = some i) : (path, i.outline) ∈ d.outline :=
  List.mem_map.2 ⟨(path, i), Table.get?_eq_some_iff.1 h, rfl⟩

theorem exists_of_mem_outline {d : Document} {e : String × List (Method × Outline)}
    (h : e ∈ d.outline) : ∃ i, d.paths.get? e.1 = some i ∧ i.outline = e.2 := by
  obtain ⟨⟨path, i⟩, hi, rfl⟩ := List.mem_map.1 h
  exact ⟨i, Table.get?_eq_some_iff.2 hi, rfl⟩

/-- Collapsing aliases changes texts and references only. -/
theorem outline_collapse (d : Document) (chains : Bool) :
    (d.collapse chains).1.outline = d.outline := by
  by_cases h : d.table.isEmpty
  · rw [collapse_of_isEmpty h]
  · rw [collapse_of_not_isEmpty h]
    simp only [outline, mapOperations, Table.outline, Table.map, List.map_map, Function.comp_def,
      PathItem.outline_map_retarget]

end Document

theorem Generator.outline_result (g : Generator) : g.result.outline = g.draft.document.outline :=
  Document.outline_collapse _ _

namespace Restconf

/-- What all operations of a segment tell, with the codes of their responses. -/
def baseOutline (rules : List TagRule) (m : Method) (s : Segment) (codes : List String) : Outline :=
  ⟨some (operationId m s), TagRule.collect rules s, s.params.map (Prod.mk "path"), codes⟩

/-- What a data node offers: it can be read, and written unless the segment is read-only. -/
def dataOutline (rules : List TagRule) (s : Segment) : List (Method × Outline) :=
  (.get, baseOutline rules .get s ["200", "400"]) ::
    if s.isReadOnly then []
    else [(.put, (baseOutline rules .put s ["201", "204"]).withBody "body"),
      (.post, (baseOutline rules .post s ["201", "409"]).withBody "body"),
      (.delete, baseOutline rules .delete s ["204"])]

/-- What a procedure offers, with or without an input and an output. -/
def invokeOutline (rules : List TagRule) (s : Segment) (input output : Bool) : Outline :=
  let x := baseOutline rules .post s (if output then ["200"] else ["204"])
  if input then x.withBody "input" else x

section outline

variable (rules : List TagRule) (s : Segment)

theorem methods_dataOutline : (dataOutline rules s).map Prod.fst =
    if s.isReadOnly then [.get] else [.get, .put, .post, .delete] := by
  unfold dataOutline
  split <;> rfl

theorem exists_body_invokeOutline {input output : Bool} :
    (∃ name, ("body", name) ∈ (invokeOutline rules s input output).parameters) ↔ input := by
  cases input <;> simp [invokeOutline, baseOutline, Outline.withBody]

theorem responses_invokeOutline (input output : Bool) :
    (invokeOutline rules s input output).responses = if output then ["200"] else ["204"] := by
  cases input <;> rfl

theorem outline_withBody (o : Operation) (name definition description : String) :
    (withBody o (body name definition description)).outline = o.outline.withBody name := by
  simp [Operation.outline, withBody, body, Outline.withBody, Parameter.label]

/-- The text of an operation does not show in its outline, and of the responses only the codes. -/
theorem outline_answering (o : Operation) (text : Option String) {rs : List (String × Response)}
    (h : (rs.map Prod.fst).Nodup) :
    Operation.outline { o with description := text, responses := responses rs } =
      { o.outline with responses := rs.map Prod.fst } := by
  simp only [Operation.outline, responses, Table.keys_ofList h]

theorem outline_base (m : Method) : (base rules m s).outline = baseOutline rules m s [] := by
  simp [Operation.outline, base, baseOutline, Parameter.label, Table.keys, Table.empty]

theorem outline_setData (definition : String) :
    (setData rules s definition {}).outline = dataOutline rules s := by
  have hget : (getData rules s definition).outline = baseOutline rules .get s ["200", "400"] := by
    rw [getData, outline_answering _ _ (by simp), outline_base]
    rfl
  have hput : (putData rules s definition).outline =
      (baseOutline rules .put s ["201", "204"]).withBody "body" := by
    rw [putData, outline_answering _ _ (by simp), outline_withBody, outline_base]
    rfl
  have hpost : (postData rules s definition).outline =
      (baseOutline rules .post s ["201", "409"]).withBody "body" := by
    rw [postData, outline_answering _ _ (by simp), outline_withBody, outline_base]
    rfl
  have hdelete : (deleteData rules s definition).outline =
      baseOutline rules .delete s ["204"] := by
    rw [deleteData, outline_answering _ _ (by simp), outline_base]
    rfl
  unfold setData dataOutline
  dsimp only
  rw [← hget, ← hput, ← hpost, ← hdelete]
  split <;> rfl

theorem outline_invoke (r : Rpc Resolved) (input output : Option String) :
    (invoke rules s r input output).outline =
      invokeOutline rules s input.isSome output.isSome := by
  unfold invoke
  dsimp only
  rw [outline_answering _ _ (by simp)]
  cases input <;> cases output <;> simp only [outline_withBody, outline_base] <;> rfl

theorem pathParams_baseOutline (m : Method) (codes : List String) :
    (baseOutline rules m s codes).pathParams = s.params := by
  simp [Outline.pathParams, baseOutline, List.filterMap_map]

theorem pathParams_setData {definition : String} {m : Method} {o : Operation}
    (h : (setData rules s definition {}).get? m = some o) : o.pathParams = s.params := by
  have hmem : (m, o.outline) ∈ dataOutline rules s := by
    rw [← outline_setData rules s definition]
    exact PathItem.mem_outline.2 ⟨o, h, rfl⟩
  have hall : ∀ e ∈ dataOutline rules s, e.2.pathParams = s.params := by
    unfold dataOutline
    split <;> simp [Outline.pathParams_withBody, pathParams_baseOutline]
  exact (Operation.pathParams_eq o).trans (hall _ hmem)

theorem pathParams_invoke (r : Rpc Resolved) (input output : Option String) :
    (invoke rules s r input output).pathParams = s.params := by
  rw [Operation.pathParams_eq, outline_invoke, invokeOutline]
  split <;> simp only [Outline.pathParams_withBody, pathParams_baseOutline]

end outline

end Restconf

end YangApi
