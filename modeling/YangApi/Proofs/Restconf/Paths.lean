import YangApi.Proofs.Restconf.Layout
import YangApi.Proofs.Restconf.Outline
import YangApi.Proofs.Selection

/-! Which paths a document has. When names are told apart, no path is written twice, so that every
container, list and procedure that is gone through has a path of its own with its own operations. -/

namespace YangApi

def Place.outline (rules : List TagRule) (owner : String) (p : Place) :
    String × List (Method × Outline) :=
  let s := p.segment owner
  (Restconf.dataPath s, Restconf.dataOutline rules s)

def Rpc.outline (rules : List TagRule) (moduleName : String) (r : Rpc Resolved) :
    String × List (Method × Outline) :=
  let s := (Segment.ofModule moduleName).push r.name (r.ownerIn moduleName) false []
  (Restconf.operationPath (r.ownerIn moduleName) r.name,
    [(.post, Restconf.invokeOutline rules s r.input.isSome r.output.isSome)])

def Visit.outline? (rules : List TagRule) (moduleName : String) :
    Visit → Option (String × List (Method × Outline))
  | .path _ s => some (Restconf.dataPath s, Restconf.dataOutline rules s)
  | .define _ => none
  | .rpc r s => some (Restconf.operationPath (r.ownerIn moduleName) r.name,
      [(.post, Restconf.invokeOutline rules s r.input.isSome r.output.isSome)])

namespace Visit

variable {rules : List TagRule} {nameOf : Resolved → String} {moduleName : String}
  {paths : Table PathItem}

theorem outline_write {v : Visit} (h : ∀ e ∈ v.outline? rules moduleName, e.1 ∉ paths.keys) :
    (v.write rules nameOf moduleName paths).outline =
      paths.outline ++ (v.outline? rules moduleName).toList := by
  cases v with
  | define i => simp [write, outline?]
  | path i s =>
    have hnew := Table.entries_upsert_of_notMem (h _ rfl) fun item =>
      Restconf.setData rules s (nameOf i.head) (item.getD {})
    rw [write, Table.outline, hnew, List.map_append]
    simp [Restconf.outline_setData, outline?, Table.outline]
  | rpc r s =>
    have hnew := Table.entries_upsert_of_notMem (h _ rfl) fun item : Option PathItem =>
      (item.getD {}).set .post (Restconf.invoke rules s r (r.input.map fun side => nameOf side.head)
        (r.output.map fun side => nameOf side.head))
    have hinvoke := Restconf.outline_invoke rules s r (r.input.map fun side => nameOf side.head)
      (r.output.map fun side => nameOf side.head)
    rw [Option.isSome_map, Option.isSome_map] at hinvoke
    rw [write, Table.outline, hnew, List.map_append, outline?, ← hinvoke]
    rfl

/-- Calls for different paths write these one behind the other. -/
theorem outline_foldl_write (rules : List TagRule) (nameOf : Resolved → String)
    {vs : List (String × Visit)} {paths : Table PathItem}
    (h : ((paths.outline ++ vs.filterMap fun v => v.2.outline? rules v.1).map Prod.fst).Nodup) :
    (vs.foldl (fun t v => v.2.write rules nameOf v.1 t) paths).outline =
      paths.outline ++ vs.filterMap fun v => v.2.outline? rules v.1 := by
  induction vs generalizing paths with
  | nil => simp
  | cons v vs ih =>
    have hsplit : ((v :: vs).filterMap fun v => v.2.outline? rules v.1) =
        (v.2.outline? rules v.1).toList ++ vs.filterMap fun v => v.2.outline? rules v.1 := by
      cases hv : v.2.outline? rules v.1 <;> simp [hv]
    rw [hsplit] at h ⊢
    have hwrite : (v.2.write rules nameOf v.1 paths).outline =
        paths.outline ++ (v.2.outline? rules v.1).toList := by
      refine outline_write fun e he hmem => ?_
      rw [List.map_append, List.nodup_append] at h
      rw [Table.keys_eq_outline] at hmem
      have hfirst := List.mem_append_left (vs.filterMap fun v => v.2.outline? rules v.1)
        (Option.mem_toList.2 he)
      exact h.2.2 _ hmem _ (List.mem_map_of_mem hfirst) rfl
    rw [List.foldl_cons, ih (by rwa [hwrite, List.append_assoc]), hwrite, List.append_assoc]

end Visit

namespace Module

def dataPaths (selected : List String) (m : Module Resolved) : List String :=
  (m.visited .down selected).map fun p => Restconf.dataPath (p.segment m.name)

def operationPaths (m : Module Resolved) : List String :=
  m.rpcs.map fun r => Restconf.operationPath (r.ownerIn m.name) r.name

def paths (selected : List String) (elements : List ElementKind) (m : Module Resolved) :
    List String :=
  ElementKind.pick elements (m.dataPaths selected) m.operationPaths

def outline (rules : List TagRule) (selected : List String) (elements : List ElementKind)
    (m : Module Resolved) : List (String × List (Method × Outline)) :=
  ElementKind.pick elements ((m.visited .down selected).map (Place.outline rules m.name))
    (m.rpcs.map (Rpc.outline rules m.name))

section outline

variable (rules : List TagRule) (selected : List String) (elements : List ElementKind)
  (m : Module Resolved)

theorem outline_visits : (m.visits selected elements).filterMap (Visit.outline? rules m.name) =
    m.outline rules selected elements := by
  have hcalls : (m.visits selected elements).filterMap (Visit.outline? rules m.name) =
      ((m.visits selected elements).filter Visit.isCall).filterMap
        (Visit.outline? rules m.name) := by
    rw [List.filterMap_filter]
    refine List.filterMap_congr fun v _ => ?_
    cases v <;> rfl
  rw [hcalls, calls_visits, ElementKind.filterMap_pick, List.filterMap_map, List.filterMap_map]
  exact congrArg₂ _ (congrFun List.filterMap_eq_map _) (congrFun List.filterMap_eq_map _)

theorem map_fst_outline :
    (m.outline rules selected elements).map Prod.fst = m.paths selected elements := by
  rw [outline, ElementKind.map_pick, List.map_map, List.map_map]
  rfl

end outline

/-- Containers and lists that stand at one level, choices flattened, have different names. -/
def DistinctSiblings (m : Module Resolved) : Prop :=
  (Node.standing m.children).Nodup ∧
    ∀ i ∈ Node.interiors m.children, (Node.standing i.children).Nodup

instance (m : Module Resolved) : Decidable m.DistinctSiblings :=
  inferInstanceAs (Decidable (_ ∧ ∀ i ∈ Node.interiors m.children, _))

end Module

namespace Restconf

/-- The path of a place tells its names and the module that is gone through. -/
theorem names_of_dataPath {m m' : Module Resolved} (hm : m.NamedWithout separators)
    (hm' : m'.NamedWithout separators) {way : Way} {selected : List String} {p p' : Place}
    (hp : p ∈ m.visited way selected) (hp' : p' ∈ m'.visited way selected)
    (h : dataPath (p.segment m.name) = dataPath (p'.segment m'.name)) :
    m.name = m'.name ∧ p.names = p'.names := by
  have hfollows : (p.segment m.name).Follows m.name p.levels := Segment.follows_along ..
  have hfollows' : (p'.segment m'.name).Follows m'.name p'.levels := Segment.follows_along ..
  have hne : ∀ (owner : String) (p : Place), (p.segment owner).levels ≠ [] := by
    intro owner p
    simp [Place.segment, p.levels_eq, Segment.along_concat, Segment.pushNode, Segment.push]
  have hshown := dataPath_inj (hm.segment (by decide) hp) (hm'.segment (by decide) hp')
    (hne m.name p) (hne m'.name p') h
  constructor
  · obtain ⟨l, hl⟩ := List.exists_mem_of_ne_nil _ (hne m.name p)
    obtain ⟨l', hl', hsame⟩ := List.mem_map.1 (hshown ▸ List.mem_map_of_mem hl)
    have howner : l'.owner = l.owner := congrArg (fun e => e.2.1) hsame
    rw [← hfollows.owners l hl, ← howner, hfollows'.owners l' hl']
  · have hnames : (p.segment m.name).names = (p'.segment m'.name).names := by
      have hfirst := congrArg (List.map Prod.fst) hshown
      rwa [List.map_map, List.map_map] at hfirst
    rwa [hfollows.names, hfollows'.names] at hnames

end Restconf

namespace Generator

/-- The procedures of the selected modules, by module and name. -/
def procedures (g : Generator) : List (String × String) :=
  g.modules.flatMap fun m => m.rpcs.map fun r => (r.ownerIn m.name, r.name)

/-- The signs of paths stand in no name, and names tell modules, siblings and procedures apart. -/
structure Tells (g : Generator) : Prop where
  modules : g.moduleNames.Nodup
  names : ∀ m ∈ g.modules, m.NamedWithout Restconf.separators
  siblings : ∀ m ∈ g.modules, m.DistinctSiblings
  procedures : g.procedures.Nodup

def paths (g : Generator) : List String :=
  g.modules.flatMap (Module.paths g.moduleNames g.config.elements)

namespace Tells

variable {g : Generator}

theorem nodup_dataPaths (h : g.Tells) :
    (g.modules.flatMap (Module.dataPaths g.moduleNames)).Nodup := by
  have hmodules : g.modules.Pairwise fun m m' => m.name ≠ m'.name := List.pairwise_map.1 h.modules
  refine List.nodup_flatMap.2 ⟨fun m hm => ?_, ?_⟩
  · have hplaces : (m.visited .down g.moduleNames).Pairwise fun p q => p.names ≠ q.names :=
      (Node.pairwise_names (h.siblings m hm).1 (h.siblings m hm).2).filter _
    refine List.pairwise_map.2 (hplaces.imp_of_mem fun hp hq hne heq => hne ?_)
    exact (Restconf.names_of_dataPath (h.names m hm) (h.names m hm) hp hq heq).2
  · refine hmodules.imp_of_mem fun hm hm' hne path hpath hpath' => hne ?_
    obtain ⟨p, hp, rfl⟩ := List.mem_map.1 hpath
    obtain ⟨p', hp', heq⟩ := List.mem_map.1 hpath'
    exact (Restconf.names_of_dataPath (h.names _ hm) (h.names _ hm') hp hp' heq.symm).1

theorem nodup_operationPaths (h : g.Tells) : (g.modules.flatMap Module.operationPaths).Nodup := by
  have hpaths : g.modules.flatMap Module.operationPaths =
      g.procedures.map fun e => Restconf.operationPath e.1 e.2 := by
    simp only [Generator.procedures, List.map_flatMap, List.map_map]
    rfl
  have howner : ∀ e ∈ g.procedures, Text.Without [':'] e.1 := by
    intro e he
    obtain ⟨m, hm, he⟩ := List.mem_flatMap.1 he
    obtain ⟨r, hr, rfl⟩ := List.mem_map.1 he
    exact ((h.names m hm).rpcs r hr).mono (by decide)
  rw [hpaths]
  refine h.procedures.map_on fun e he e' he' heq => ?_
  obtain ⟨hfst, hsnd⟩ := Restconf.operationPath_inj (howner e he) (howner e' he') heq
  exact Prod.ext hfst hsnd

/-- No path is written twice. -/
theorem nodup_paths (h : g.Tells) : g.paths.Nodup := by
  have hpart : ∀ (p : Prop) [Decidable p] {f : Module Resolved → List String},
      (g.modules.flatMap f).Nodup → (g.modules.flatMap fun m => if p then f m else []).Nodup := by
    intro p _ f hf
    split
    · exact hf
    · rw [List.flatMap_eq_nil_iff.2 fun _ _ => rfl]
      exact List.nodup_nil
  have hdata := hpart (.data ∈ g.config.elements) h.nodup_dataPaths
  have hrpc := hpart (.rpc ∈ g.config.elements) h.nodup_operationPaths
  refine (List.flatMap_append_perm _ _ _).nodup_iff.1 (List.nodup_append'.2 ⟨hdata, hrpc, ?_⟩)
  intro path hpath hpath'
  obtain ⟨m, -, hpath⟩ := List.mem_flatMap.1 hpath
  obtain ⟨m', -, hpath'⟩ := List.mem_flatMap.1 hpath'
  split at hpath
  · split at hpath'
    · obtain ⟨p, -, rfl⟩ := List.mem_map.1 hpath
      obtain ⟨r, -, heq⟩ := List.mem_map.1 hpath'
      exact Restconf.dataPath_ne_operationPath _ _ _ heq.symm
    · cases hpath'
  · cases hpath

end Tells

/-- If no path is written twice, the draft has all that the modules write, one behind the other. -/
theorem outline_draft {g : Generator} (h : g.paths.Nodup) : g.draft.document.outline =
    g.modules.flatMap (Module.outline g.handler.rules g.moduleNames g.config.elements) := by
  have hall : g.visits.filterMap (fun v => v.2.outline? g.handler.rules v.1) =
      g.modules.flatMap (Module.outline g.handler.rules g.moduleNames g.config.elements) := by
    rw [visits, List.filterMap_flatMap]
    refine List.flatMap_congr fun m _ => ?_
    rw [List.filterMap_map]
    exact m.outline_visits _ _ _
  have hkeys : (g.visits.filterMap fun v => v.2.outline? g.handler.rules v.1).map Prod.fst =
      g.paths := by
    rw [hall, List.map_flatMap]
    exact List.flatMap_congr fun m _ => m.map_fst_outline _ _ _
  have hnew : ((Table.outline .empty ++
      g.visits.filterMap fun v => v.2.outline? g.handler.rules v.1).map Prod.fst).Nodup := by
    rw [List.map_append, hkeys]
    exact h
  rw [Document.outline, paths_draft]
  exact (Visit.outline_foldl_write g.handler.rules _ hnew).trans hall

namespace Tells

variable {g : Generator} {m : Module Resolved}

/-- Where names tell everything apart, a run writes every path once. -/
theorem outline_result (h : g.Tells) : g.result.outline =
    g.modules.flatMap (Module.outline g.handler.rules g.moduleNames g.config.elements) :=
  g.outline_result.trans (outline_draft h.nodup_paths)

theorem keys_result (h : g.Tells) : g.result.paths.keys = g.paths := by
  rw [Table.keys_eq_outline, ← Document.outline, h.outline_result, List.map_flatMap]
  exact List.flatMap_congr fun m _ => m.map_fst_outline _ _ _

theorem exists_item (h : g.Tells) (hm : m ∈ g.modules) {e : String × List (Method × Outline)}
    (he : e ∈ m.outline g.handler.rules g.moduleNames g.config.elements) :
    ∃ i, g.result.paths.get? e.1 = some i ∧ i.outline = e.2 :=
  Document.exists_of_mem_outline (h.outline_result ▸ List.mem_flatMap.2 ⟨m, hm, he⟩)

/-- A container or list can be read, and written unless something down to it is no configuration. -/
theorem methods_result (h : g.Tells) (hdata : .data ∈ g.config.elements) (hm : m ∈ g.modules)
    {p : Place} (hp : p ∈ m.visited .down g.moduleNames) :
    ∃ i, g.result.paths.get? (Restconf.dataPath (p.segment m.name)) = some i ∧
      i.methods = if ∃ e ∈ p.levels, e.1.config = false then [.get]
        else [.get, .put, .post, .delete] := by
  obtain ⟨i, hi, hitem⟩ := h.exists_item hm
    ((ElementKind.mem_pick ..).2 (.inl ⟨hdata, List.mem_map_of_mem hp⟩))
  refine ⟨i, hi, ?_⟩
  rw [PathItem.methods_eq, hitem]
  simp only [← (Segment.follows_along m.name p.levels).readOnly]
  exact Restconf.methods_dataOutline _ _

/-- A procedure can be invoked; its input makes the body, and its output decides on the code. -/
theorem operations_result (h : g.Tells) (hrpc : .rpc ∈ g.config.elements) (hm : m ∈ g.modules)
    {r : Rpc Resolved} (hr : r ∈ m.rpcs) :
    ∃ i o, g.result.paths.get? (Restconf.operationPath (r.ownerIn m.name) r.name) = some i ∧
      i.operations = [(.post, o)] ∧ (o.body?.isSome ↔ r.input.isSome) ∧
      o.responses.keys = if r.output.isSome then ["200"] else ["204"] := by
  obtain ⟨i, hi, hitem⟩ := h.exists_item hm
    ((ElementKind.mem_pick ..).2 (.inr ⟨hrpc, List.mem_map_of_mem hr⟩))
  obtain ⟨⟨method, o⟩, hoperations, ho⟩ := List.map_eq_singleton_iff.1 hitem
  obtain ⟨rfl, hsame⟩ := Prod.mk.inj ho
  refine ⟨i, o, hi, hoperations, ?_, ?_⟩
  · rw [Operation.isSome_body?_iff, hsame]
    exact Restconf.exists_body_invokeOutline ..
  · exact (congrArg Outline.responses hsame).trans (Restconf.responses_invokeOutline ..)

end Tells

/-- The document has exactly one path for each container and list that is gone through and for each
procedure, module by module in the order of the selection, with exactly its operations; strategy and
alias chains do not matter. -/
theorem paths_exact {c : Context} {names : List String} {config : Config} {g : Generator}
    (hg : ofNames c names config = .ok g) (hvalid : config.fault? = none)
    (hnames : ∀ m ∈ g.modules, m.NamedWithout Restconf.separators)
    (hsiblings : ∀ m ∈ g.modules, m.DistinctSiblings) (hprocedures : g.procedures.Nodup)
    (handler : PathHandler) :
    g.moduleNames = Text.distinct names ∧
      ∃ d ws, ({ g with handler } : Generator).generate = .ok (d, ws) ∧
        d.paths.keys = g.modules.flatMap (Module.paths g.moduleNames config.elements) ∧
        d.paths.keys.Nodup ∧
        (.data ∈ config.elements → ∀ m ∈ g.modules, ∀ p ∈ m.visited .down g.moduleNames,
          ∃ i, d.paths.get? (Restconf.dataPath (p.segment m.name)) = some i ∧
            i.methods = if ∃ e ∈ p.levels, e.1.config = false then [.get]
              else [.get, .put, .post, .delete]) ∧
        (.rpc ∈ config.elements → ∀ m ∈ g.modules, ∀ r ∈ m.rpcs,
          ∃ i o, d.paths.get? (Restconf.operationPath (r.ownerIn m.name) r.name) = some i ∧
            i.operations = [(.post, o)] ∧ (o.body?.isSome ↔ r.input.isSome) ∧
            o.responses.keys = if r.output.isSome then ["200"] else ["204"]) ∧
        ∀ (strategy : Strategy) (chains : Bool), ∃ d' ws',
          ({ g with handler, config := { config with strategy, collapseAliasChains := chains } } :
            Generator).generate = .ok (d', ws') ∧ d'.outline = d.outline := by
  obtain ⟨-, rfl, -⟩ := ofNames_fields hg
  have hselected := moduleNames_of_ofNames hg
  have hmodules : g.moduleNames.Nodup := hselected ▸ Text.nodup_distinct names
  set g' : Generator := { g with handler }
  have htells : g'.Tells := ⟨hmodules, hnames, hsiblings, hprocedures⟩
  obtain ⟨ws, hws⟩ := generate_of_valid (g := g') hvalid
  refine ⟨hselected, g'.result, ws, hws, htells.keys_result, g'.result.paths.nodup,
    fun hdata m hm p hp => htells.methods_result hdata hm hp,
    fun hrpc m hm r hr => htells.operations_result hrpc hm hr, fun strategy chains => ?_⟩
  set g'' : Generator :=
    { g with handler, config := { g.config with strategy, collapseAliasChains := chains } }
  have htells' : g''.Tells := ⟨hmodules, hnames, hsiblings, hprocedures⟩
  obtain ⟨ws', hws'⟩ := generate_of_valid (g := g'') hvalid
  exact ⟨g''.result, ws', hws', htells'.outline_result.trans htells.outline_result.symm⟩

theorem paths_exact_shop : ∃ c g d ws, Context.resolve shop = .ok c ∧
    ofNames c ["shop"] {} = .ok g ∧ g.generate = .ok (d, ws) ∧
    d.paths.keys = ["/data/shop:order=\x7bid\x7d", "/data/shop:order=\x7bid\x7d/change",
      "/operations/shop:cancel"] := by
  obtain ⟨c, g, hresolve, hg⟩ := exists_run_shop {}
  have hnames : ∀ m ∈ g.modules, m.NamedWithout Restconf.separators := by
    cases hresolve
    cases hg
    decide
  have hsiblings : ∀ m ∈ g.modules, m.DistinctSiblings := by
    cases hresolve
    cases hg
    decide
  have hprocedures : g.procedures.Nodup := by
    cases hresolve
    cases hg
    decide
  obtain ⟨-, d, ws, hgenerate, hkeys, -⟩ :=
    paths_exact hg (Config.fault?_of_choices ..) hnames hsiblings hprocedures g.handler
  refine ⟨c, g, d, ws, hresolve, hg, hgenerate, hkeys.trans ?_⟩
  cases hresolve
  cases hg
  decide

end Generator

end YangApi
