import YangApi.Generator
import YangApi.Proofs.Restconf.Operations

/-! What a whole run leaves in its draft: the definitions are those of sites, each with its needs
defined; whatever a visit defines is defined in the end; and the paths are written as if all names
had been known from the start. -/

namespace YangApi

open Draft

variable {c : Context} {name : SchemaPath → String} {reach : Site → Prop}
  {pending : List SchemaPath} {d d' : Draft}

theorem Adds.paths (h : Adds c name reach pending d d') : d'.document.paths = d.document.paths := by
  have hpaths := congrArg Document.paths h.others
  exact hpaths

theorem Grows.updatePath (h : Grows c name reach pending d d') (path : String)
    (f : PathItem → PathItem) :
    Grows c name reach pending d { d' with document := d'.document.updatePath path f } :=
  ⟨h.names, h.distinct, h.camel, h.order, h.retains, h.warnings, h.introduced⟩

theorem Adds.foldl {α : Type} {f : Draft → α → Draft}
    (h : ∀ d a, Adds c name reach pending d (f d a)) (l : List α) (d : Draft) :
    Adds c name reach pending d (l.foldl f d) := by
  induction l generalizing d with
  | nil => exact .refl d
  | cons a l ih => exact (h d a).trans (ih _)

theorem Node.primeCases_eq (key : Resolved → SchemaPath) (d : Draft) (ks : Cases Resolved) :
    primeCases key d ks = ks.foldl (fun d k => primeAll key d k.2) d := by
  induction ks generalizing d with
  | nil => rfl
  | cons k ks ih => rw [primeCases, ih, List.foldl_cons]

theorem Adds.primeAll (key : Resolved → SchemaPath) (ns : List (Node Resolved)) (d : Draft) :
    Adds c name reach pending d (Node.primeAll key d ns) := by
  induction ns using Node.levels generalizing d with
  | nil => exact .refl d
  | cons n ns ihn ihns => exact (ihn d).trans (ihns _)
  | inner r shape uses cs ih => exact (Adds.assignPath d _ _).trans (ih _)
  | choice r ks ih =>
    simp only [Node.primeAll, Node.prime, Node.primeCases_eq]
    induction ks generalizing d with
    | nil => exact .refl d
    | cons k ks ihks =>
      exact (ih k (List.mem_cons_self ..) d).trans
        (ihks (fun k' hk' => ih k' (List.mem_cons_of_mem _ hk')) _)
  | leaf | leafList | anyxml => exact .refl d

theorem Adds.primeData (key : Resolved → SchemaPath) (d : Draft) (m : Module Resolved) :
    Adds c name reach pending d (m.primeData key d) := by
  refine (Adds.primeAll key m.children d).trans (Adds.foldl (fun d r => ?_) _ _)
  have hbase : ∀ s : RpcSide Resolved, IsCamel (camelCase r.name ++ camelCase s.head.name) :=
    fun s => (isCamel_camelCase r.name).append (isCamel_camelCase s.head.name)
  exact Adds.foldl (fun d s => (Adds.assign d _ (hbase s) _).trans (Adds.primeAll key _ _)) _ _

theorem Strategy.prime_adds (s : Strategy) (d : Draft) (m : Module Resolved) :
    Adds c name reach pending d (s.prime d m) := by
  cases s with
  | unpacked => exact Adds.primeData _ d m
  | shared =>
    refine (Adds.foldl (fun d g => ?_) m.groupings d).trans (Adds.primeData _ _ m)
    exact (Adds.assignPath d _ _).trans (Adds.primeAll _ _ _)

namespace Restconf

variable {s : Strategy}

theorem side_of_mem_sides {r : Rpc Resolved} {side : RpcSide Resolved} (h : side ∈ r.sides) :
    r.input = some side ∨ r.output = some side := by
  simpa [Rpc.sides, eq_comm] using h

theorem defineSide_spec (hclosed : Site.Closed c reach) {r : Rpc Resolved} {direction : Direction}
    (hreach : ∀ side ∈ r.sides, reach (s.site side.interior)) (d : Draft)
    (hnamed : NamedBy name (defineSide s c d r direction).1) :
    Adds c name reach [] d (defineSide s c d r direction).1 ∧
      (defineSide s c d r direction).2 =
        (r.side direction).map (fun side => name (s.key side.head)) ∧
      ∀ side, r.side direction = some side →
        Settled [] (defineSide s c d r direction).1 (s.key side.head) := by
  unfold defineSide at hnamed ⊢
  cases hside : r.side direction with
  | none => exact ⟨.refl d, rfl, by simp⟩
  | some side =>
    simp only [hside, Strategy.nameOfSide] at hnamed ⊢
    have hassign : Adds c name reach [] (s.add c d side.interior)
        (s.nameOf (s.add c d side.interior) side.head).1 := Adds.assignPath _ _ _
    have hkey := (s.add c d side.interior).get?_assignPath (s.key side.head) side.head.name
    obtain ⟨hadds, hsettled⟩ := Strategy.add_spec hclosed (hreach side (mem_sides hside)) d
      (hnamed.shrink hassign.toGrows)
    refine ⟨hadds.trans hassign, congrArg some (hnamed _ _ hkey).symm, ?_⟩
    rintro _ ⟨⟩
    exact hsettled.grow hassign.toGrows

theorem visit_rpc (rules : List TagRule) (c : Context) (moduleName : String) (d : Draft)
    (r : Rpc Resolved) (segment : Segment) :
    visit rules s c moduleName d (.rpc r segment) =
      let input := defineSide s c d r .input
      let output := defineSide s c input.1 r .output
      { output.1 with
        document := output.1.document.updatePath (operationPath (r.ownerIn moduleName) r.name)
          (·.set .post (invoke rules segment r input.2 output.2)) } := rfl

/-- What a visit does when `name` is the naming it ends in. -/
structure Visits (c : Context) (name : SchemaPath → String) (reach : Site → Prop) (s : Strategy)
    (rules : List TagRule) (vs : List (String × Visit)) (d d' : Draft) : Prop where
  grows : Grows c name reach [] d d'
  settled : ∀ v ∈ vs, ∀ i ∈ v.2.defines, Settled [] d' (s.key i.head)
  paths : d'.document.paths =
    vs.foldl (fun t v => v.2.write rules (fun r => name (s.key r)) v.1 t) d.document.paths

theorem visit_spec (hclosed : Site.Closed c reach) (rules : List TagRule) (v : String × Visit)
    (hreach : ∀ i ∈ v.2.defines, reach (s.site i)) (d : Draft)
    (hnamed : NamedBy name (visit rules s c v.1 d v.2)) :
    Visits c name reach s rules [v] d (visit rules s c v.1 d v.2) := by
  obtain ⟨moduleName, v⟩ := v
  cases v with
  | path i segment =>
    have hkey := d.get?_assignPath (s.key i.head) i.head.name
    have hassign : Adds c name reach [] d (s.nameOf d i.head).1 := Adds.assignPath _ _ _
    refine ⟨hassign.toGrows.updatePath _ _, by simp [Visit.defines], ?_⟩
    simp only [List.foldl_cons, List.foldl_nil, Visit.write, hnamed _ _ hkey, ← hassign.paths]
    rfl
  | define i =>
    obtain ⟨hadds, hsettled⟩ :=
      Strategy.add_spec hclosed (hreach i (List.mem_singleton_self i)) d hnamed
    refine ⟨hadds.toGrows, ?_, hadds.paths⟩
    simp only [List.mem_singleton, forall_eq, Visit.defines]
    exact hsettled
  | rpc r segment =>
    have hsides : ∀ side ∈ r.sides, reach (s.site side.interior) :=
      fun side hside => hreach _ (List.mem_map_of_mem hside)
    dsimp only at hnamed ⊢
    rw [visit_rpc] at hnamed ⊢
    have hnamed : NamedBy name (defineSide s c (defineSide s c d r .input).1 r .output).1 := hnamed
    obtain ⟨haddsOut, hnameOut, hsettledOut⟩ := defineSide_spec hclosed hsides _ hnamed
    obtain ⟨haddsIn, hnameIn, hsettledIn⟩ :=
      defineSide_spec hclosed hsides d (hnamed.shrink haddsOut.toGrows)
    refine ⟨(haddsIn.trans haddsOut).toGrows.updatePath _ _, ?_, ?_⟩
    · simp only [List.mem_singleton, forall_eq, Visit.defines, List.forall_mem_map]
      intro side hside
      rcases side_of_mem_sides hside with h | h
      · have hin := (hsettledIn side h).grow haddsOut.toGrows
        exact hin
      · exact hsettledOut side h
    · dsimp only
      rw [hnameIn, hnameOut, Document.updatePath, (haddsIn.trans haddsOut).paths]
      rfl

theorem Visits.nil (rules : List TagRule) (d : Draft) : Visits c name reach s rules [] d d :=
  ⟨(Adds.refl d).toGrows, by simp, rfl⟩

theorem Visits.append {rules : List TagRule} {vs ws : List (String × Visit)} {d d' d'' : Draft}
    (h : Visits c name reach s rules vs d d') (h' : Visits c name reach s rules ws d' d'') :
    Visits c name reach s rules (vs ++ ws) d d'' where
  grows := h.grows.trans h'.grows
  settled v hv i hi := by
    rcases List.mem_append.1 hv with hv | hv
    · exact (h.settled v hv i hi).grow h'.grows
    · exact h'.settled v hv i hi
  paths := by rw [h'.paths, h.paths, List.foldl_append]

theorem foldl_visit_spec (hclosed : Site.Closed c reach) (rules : List TagRule)
    (vs : List (String × Visit)) (hreach : ∀ v ∈ vs, ∀ i ∈ v.2.defines, reach (s.site i))
    (d : Draft) (hnamed : NamedBy name (vs.foldl (fun d v => visit rules s c v.1 d v.2) d)) :
    Visits c name reach s rules vs d (vs.foldl (fun d v => visit rules s c v.1 d v.2) d) := by
  induction vs generalizing d with
  | nil => exact .nil rules d
  | cons v vs ih =>
    rw [List.foldl_cons] at hnamed ⊢
    have hrest := ih (fun w hw => hreach w (List.mem_cons_of_mem _ hw)) _ hnamed
    have hfirst := visit_spec hclosed rules v (hreach v (List.mem_cons_self ..)) d
      (hnamed.shrink hrest.grows)
    exact hfirst.append hrest

end Restconf

namespace Generator

/-- The draft in which everything has its name and nothing is defined. -/
def primed (g : Generator) : Draft :=
  g.modules.foldl g.config.strategy.prime { document := g.emptyDocument }

/-- The names that the draft ends with. -/
def finalName (g : Generator) (p : SchemaPath) : String := (g.draft.names.get? p).getD ""

variable {g : Generator} {i : Interior} {p : SchemaPath}

theorem namedBy_draft (g : Generator) : NamedBy g.finalName g.draft := by
  intro p n hn
  simp [finalName, hn]

theorem primed_adds (g : Generator) (reach : Site → Prop) :
    Adds g.context g.finalName reach [] { document := g.emptyDocument } g.primed :=
  Adds.foldl (fun d m => Strategy.prime_adds _ d m) _ _

theorem draft_eq (g : Generator) : g.draft =
    g.visits.foldl
      (fun d v => Restconf.visit g.handler.rules g.config.strategy g.context v.1 d v.2)
      g.primed := by
  unfold draft visits primed
  dsimp only
  generalize List.foldl g.config.strategy.prime _ _ = d
  induction g.modules generalizing d with
  | nil => rfl
  | cons m ms ih =>
    rw [List.flatMap_cons, List.foldl_append, List.foldl_cons, List.foldl_map, ih]
    rfl

/-- All visits of a run, for any closed set of sites that holds what is visited. -/
theorem visits_spec (hclosed : Site.Closed g.context reach)
    (hreach : ∀ i, g.Visited i → reach (g.config.strategy.site i)) :
    Restconf.Visits g.context g.finalName reach g.config.strategy g.handler.rules g.visits
      g.primed g.draft := by
  have hnamed := g.namedBy_draft
  have hdefines : ∀ v ∈ g.visits, ∀ i ∈ v.2.defines, reach (g.config.strategy.site i) :=
    fun v hv i hi => hreach i (visited_iff_defines.2 ⟨v, hv, hi⟩)
  rw [draft_eq] at hnamed ⊢
  exact Restconf.foldl_visit_spec hclosed g.handler.rules g.visits hdefines g.primed hnamed

theorem paths_draft (g : Generator) : g.draft.document.paths =
    g.visits.foldl (fun t v => v.2.write g.handler.rules
      (fun r => g.finalName (g.config.strategy.key r)) v.1 t) .empty := by
  rw [(visits_spec (Site.Closed.all g.context) fun _ _ => trivial).paths,
    (g.primed_adds fun _ => True).paths]
  rfl

/-- What a call writes on a path for a method. -/
def writtenBy (g : Generator) (p : String) (m : Method) (v : String × Visit) : Option Operation :=
  v.2.written? g.handler.rules (fun r => g.finalName (g.config.strategy.key r)) p m v.1

theorem operation?_draft_eq (g : Generator) (p : String) (m : Method) :
    g.draft.document.paths.operation? p m = g.visits.reverse.findSome? (g.writtenBy p m) := by
  rw [paths_draft, Visit.operation?_foldl_write]
  exact Option.or_none

theorem exists_writtenBy {g : Generator} {p : String} {m : Method} {o : Operation}
    (h : g.draft.document.paths.operation? p m = some o) :
    ∃ v ∈ g.visits, g.writtenBy p m v = some o := by
  rw [operation?_draft_eq] at h
  obtain ⟨v, hv, hwritten⟩ := List.exists_of_findSome?_eq_some h
  exact ⟨v, List.mem_reverse.1 hv, hwritten⟩

theorem draft_grows (hclosed : Site.Closed g.context reach)
    (hreach : ∀ i, g.Visited i → reach (g.config.strategy.site i)) :
    Grows g.context g.finalName reach [] { document := g.emptyDocument } g.draft :=
  (g.primed_adds reach).toGrows.trans (visits_spec hclosed hreach).grows

theorem distinct_draft (g : Generator) : g.draft.names.Distinct :=
  (draft_grows (Site.Closed.all g.context) fun _ _ => trivial).distinct Registry.distinct_empty

theorem camel_draft (g : Generator) : g.draft.names.Camel :=
  (draft_grows (Site.Closed.all g.context) fun _ _ => trivial).camel Registry.camel_empty

theorem written_draft (hclosed : Site.Closed g.context reach)
    (hreach : ∀ i, g.Visited i → reach (g.config.strategy.site i)) {k : String} {m : Model}
    (hm : g.draft.document.definition? k = some m) :
    Written g.context g.finalName reach [] g.draft k m :=
  (draft_grows hclosed hreach).introduced k m hm rfl

theorem settled_draft (hi : g.Visited i) : Settled [] g.draft (g.config.strategy.key i.head) := by
  obtain ⟨v, hv, hi⟩ := visited_iff_defines.1 hi
  exact (visits_spec (Site.Closed.all g.context) fun _ _ => trivial).settled v hv i hi

theorem get?_of_settled (h : Settled [] g.draft p) :
    g.draft.names.get? p = some (g.finalName p) ∧
      g.draft.document.hasDefinition (g.finalName p) := by
  obtain ⟨n, hn, hdef⟩ := h
  rw [g.namedBy_draft p n hn]
  exact ⟨hn, hdef.resolve_right List.not_mem_nil⟩

theorem site_of_settled (hclosed : Site.Closed g.context reach)
    (hreach : ∀ i, g.Visited i → reach (g.config.strategy.site i)) (h : Settled [] g.draft p) :
    ∃ s, reach s ∧ s.key = p ∧
      g.draft.document.definition? (g.finalName p) = some (s.model g.context g.finalName) ∧
      ∀ q ∈ s.needs g.context, Settled [] g.draft q := by
  obtain ⟨hname, hdef⟩ := get?_of_settled h
  obtain ⟨m, hm⟩ := Document.hasDefinition_iff.1 hdef
  obtain ⟨s, hs, hkey, rfl, hneeds, -⟩ := written_draft hclosed hreach hm
  exact ⟨s, hs, g.distinct_draft _ _ _ hkey hname, hm, hneeds⟩

theorem reach_of_visited (hmodules : ∀ m ∈ g.modules, m ∈ g.context.modules) (hi : g.Visited i) :
    g.config.strategy.Reach g.context (g.config.strategy.site i) := by
  cases g.config.strategy with
  | unpacked => exact ⟨i, trivial, rfl⟩
  | shared => exact .interior i (hi.mem_interiors hmodules)

/-- Before aliases are collapsed, every reference names a definition. -/
theorem closed_draft (g : Generator) : g.draft.document.Closed := by
  have hclosed := Site.Closed.all g.context
  intro r hr
  rcases List.mem_append.1 hr with hr | hr
  · obtain ⟨m, hm, hr⟩ := List.mem_flatMap.1 hr
    obtain ⟨k, hk⟩ := Table.mem_values.1 hm
    rw [← Document.definition?_eq] at hk
    obtain ⟨s, -, -, rfl, hneeds, -⟩ := written_draft hclosed (fun _ _ => trivial) hk
    obtain ⟨p, hp, rfl⟩ := Site.refs_model hr
    exact (get?_of_settled (hneeds p hp)).2
  · obtain ⟨o, ho, hr⟩ := List.mem_flatMap.1 hr
    obtain ⟨p, m, hpath⟩ := Document.mem_operations.1 ho
    obtain ⟨v, hv, hwritten⟩ := exists_writtenBy hpath
    obtain ⟨i, hi, rfl⟩ := Visit.refs_written? hwritten hr
    exact (get?_of_settled (settled_draft ⟨v, hv, hi⟩)).2

/-- The document of a run. -/
def result (g : Generator) : Document :=
  let d := ({ g.draft.document with info := g.info }.collapse g.config.collapseAliasChains).1
  { d with tags := d.declaredTags }

theorem generate_of_valid (h : g.config.fault? = none) : ∃ ws, g.generate = .ok (g.result, ws) := by
  unfold generate Config.validate
  rw [h]
  exact ⟨_, rfl⟩

theorem generate_of_ofNames {c : Context} {names : List String} {config : Config} {g : Generator}
    (hg : ofNames c names config = .ok g) (hvalid : config.fault? = none) :
    ∃ ws, g.generate = .ok (g.result, ws) := by
  obtain ⟨-, rfl, -⟩ := ofNames_fields hg
  exact generate_of_valid hvalid

theorem result_of_generate {g : Generator} {d : Document} {ws : List Warning}
    (h : g.generate = .ok (d, ws)) : d = g.result := by
  unfold generate at h
  obtain ⟨_, -, h⟩ := bind_eq_ok.1 h
  exact (congrArg Prod.fst (pure_eq_ok.1 h)).symm

end Generator

theorem Config.fault?_of_choices (strategy : Strategy) (chains : Bool) (tags : List TagStrategy) :
    ({ strategy, collapseAliasChains := chains, tags } : Config).fault? = none := by
  simp [fault?]

end YangApi
