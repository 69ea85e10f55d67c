import YangApi.Proofs.Schema.Paths
import YangApi.Proofs.Selection
import YangApi.Proofs.Unpacked

/-! Which names definitions have. Every container, list and side of a procedure of the selected
modules is named before anything is defined, so that two of them share a name exactly if they share
the path by which they are named, and none has the name of a grouping at another path. -/

namespace YangApi

open Draft

def Model.plain? : Model → Option Plain
  | .plain m => some m
  | _ => none

def Draft.Named (d : Draft) (p : SchemaPath) : Prop := (d.names.get? p).isSome

section named

variable {d d' : Draft} {p : SchemaPath}

theorem Draft.named_assign (d : Draft) (p : SchemaPath) (base : String) (qualifiers : List String) :
    (d.assign p base qualifiers).1.Named p :=
  Option.isSome_of_eq_some (Registry.get?_assign d.names p base qualifiers)

theorem Draft.Named.grow (h : d.Named p) (hnames : d.names.Within d'.names) : d'.Named p := by
  obtain ⟨n, hn⟩ := Option.isSome_iff_exists.1 h
  exact Option.isSome_of_eq_some (hnames p n hn)

theorem Draft.within_foldl {α : Type} {f : Draft → α → Draft}
    (h : ∀ (d : Draft) a, d.names.Within (f d a).names) (l : List α) (d : Draft) :
    d.names.Within (l.foldl f d).names := by
  induction l generalizing d with
  | nil => exact .refl _
  | cons a l ih => exact (h d a).trans (ih _)

theorem Draft.named_foldl {α : Type} {f : Draft → α → Draft}
    (hgrows : ∀ (d : Draft) a, d.names.Within (f d a).names) {l : List α} {a : α} (ha : a ∈ l)
    (h : ∀ d, (f d a).Named p) (d : Draft) : (l.foldl f d).Named p := by
  induction l generalizing d with
  | nil => cases ha
  | cons b l ih =>
    rcases List.mem_cons.1 ha with rfl | ha
    · exact (h d).grow (within_foldl hgrows l _)
    · exact ih ha _

end named

section primed

variable {key : Resolved → SchemaPath} {i : Interior}

theorem Node.within_primeAll (key : Resolved → SchemaPath) (d : Draft)
    (ns : List (Node Resolved)) : d.names.Within (primeAll key d ns).names := by
  have h : Adds ⟨[]⟩ (fun _ => "") (fun _ => True) [] d (primeAll key d ns) := .primeAll key ns d
  exact h.names

theorem Node.named_primeAll {ns : List (Node Resolved)} (hi : i ∈ interiors ns) (d : Draft) :
    (primeAll key d ns).Named (key i.head) := by
  induction ns using Node.levels generalizing d with
  | nil => simp [interiors, preorderAll] at hi
  | cons n ns ihn ihns =>
    rw [interiors_cons, List.mem_append] at hi
    have hfirst : primeAll key d (n :: ns) = primeAll key (primeAll key d [n]) ns := rfl
    rw [hfirst]
    rcases hi with hi | hi
    · exact (ihn hi d).grow (within_primeAll key _ ns)
    · exact ihns hi _
  | inner r shape uses cs ih =>
    rw [interiors_inner, List.mem_cons] at hi
    rcases hi with rfl | hi
    · exact (named_assign d _ _ _).grow (within_primeAll key _ cs)
    · exact ih hi _
  | choice r ks ih =>
    rw [interiors_choice] at hi
    obtain ⟨k, hk, hi⟩ := List.mem_flatMap.1 hi
    have hcases : primeAll key d [.choice r ks] = primeCases key d ks := rfl
    rw [hcases, primeCases_eq]
    exact named_foldl (fun d k => within_primeAll key d k.2) hk (ih k hk hi) d
  | leaf | leafList | anyxml => simp [interiors, preorder, interior?] at hi

theorem RpcSide.within_prime (key : Resolved → SchemaPath) (rpcName : String) (d : Draft)
    (s : RpcSide Resolved) : d.names.Within (s.prime key rpcName d).names := by
  have hassign : d.names.Within (d.assign s.head.path (camelCase rpcName ++ camelCase s.head.name)
      s.head.path.parent.qualifiers).1.names := Registry.within_assign _ _ _ _
  exact hassign.trans (Node.within_primeAll key _ s.children)

theorem RpcSide.named_prime {s : RpcSide Resolved} (hkey : key s.head = s.head.path)
    (hi : i ∈ s.interiors) (rpcName : String) (d : Draft) :
    (s.prime key rpcName d).Named (key i.head) := by
  rcases List.mem_cons.1 hi with rfl | hi
  · have hhead : key s.interior.head = s.head.path := hkey
    rw [hhead]
    exact (named_assign d _ _ _).grow (Node.within_primeAll key _ _)
  · exact Node.named_primeAll hi _

theorem Rpc.within_prime (key : Resolved → SchemaPath) (d : Draft) (r : Rpc Resolved) :
    d.names.Within (r.prime key d).names :=
  within_foldl (RpcSide.within_prime key r.name) _ d

theorem Module.named_primeData {m : Module Resolved}
    (hkey : ∀ r ∈ m.rpcs, ∀ s ∈ r.sides, key s.head = s.head.path) (hi : i ∈ m.dataInteriors)
    (d : Draft) : (m.primeData key d).Named (key i.head) := by
  rcases List.mem_append.1 hi with hi | hi
  · exact (Node.named_primeAll hi d).grow (within_foldl (Rpc.within_prime key) _ _)
  · obtain ⟨r, hr, hi⟩ := List.mem_flatMap.1 hi
    obtain ⟨s, hs, hi⟩ := List.mem_flatMap.1 hi
    refine named_foldl (Rpc.within_prime key) hr (fun d => ?_) _
    exact named_foldl (RpcSide.within_prime key r.name) hs
      (RpcSide.named_prime (hkey r hr s hs) hi r.name) d

theorem Strategy.named_prime (s : Strategy) {m : Module Resolved} (hplaced : m.Placed)
    (hi : i ∈ m.dataInteriors) (d : Draft) : (s.prime d m).Named (s.key i.head) := by
  cases s with
  | unpacked => exact Module.named_primeData (fun _ _ _ _ => rfl) hi d
  | shared =>
    refine Module.named_primeData (fun r hr s hs => ?_) hi _
    rw [Shared.key, Resolved.definitionPath, (hplaced.sides r hr s hs).1, Option.getD_none]

theorem Strategy.within_prime (s : Strategy) (d : Draft) (m : Module Resolved) :
    d.names.Within (s.prime d m).names := by
  have h : Adds ⟨[]⟩ (fun _ => "") (fun _ => True) [] d (s.prime d m) := s.prime_adds d m
  exact h.names

end primed

namespace Generator

variable {g : Generator} {i j : Interior}

theorem named_draft (hplaced : ∀ m ∈ g.modules, m.Placed) (hi : i ∈ g.dataInteriors) :
    g.draft.Named (g.config.strategy.key i.head) := by
  obtain ⟨m, hm, hi⟩ := List.mem_flatMap.1 hi
  have hprimed : g.primed.Named (g.config.strategy.key i.head) :=
    named_foldl g.config.strategy.within_prime hm
      (g.config.strategy.named_prime (hplaced m hm) hi) _
  exact hprimed.grow (visits_spec (Site.Closed.all g.context) fun _ _ => trivial).grows.names

theorem get?_modelName (hplaced : ∀ m ∈ g.modules, m.Placed) (hi : i ∈ g.dataInteriors) :
    g.draft.names.get? (g.config.strategy.key i.head) = some (g.modelName i.head) := by
  obtain ⟨n, hn⟩ := Option.isSome_iff_exists.1 (named_draft hplaced hi)
  rw [hn]
  exact congrArg some (congrArg Prod.snd (Registry.assign_eq hn _ _)).symm

/-- Two nodes share a name exactly if they share the path by which they are named. -/
theorem modelName_eq_iff (hplaced : ∀ m ∈ g.modules, m.Placed) (hi : i ∈ g.dataInteriors)
    (hj : j ∈ g.dataInteriors) : g.modelName i.head = g.modelName j.head ↔
      g.config.strategy.key i.head = g.config.strategy.key j.head := by
  have hnamei := get?_modelName hplaced hi
  have hnamej := get?_modelName hplaced hj
  constructor
  · intro he
    rw [← he] at hnamej
    exact g.distinct_draft _ _ _ hnamei hnamej
  · intro he
    rw [← he, hnamei] at hnamej
    exact Option.some.inj hnamej

theorem nodup_dataPaths (hnames : g.moduleNames.Nodup) (hplaced : ∀ m ∈ g.modules, m.Placed)
    (hapart : ∀ m ∈ g.modules, m.Apart Resolved.name) (hsides : ∀ m ∈ g.modules, m.SidesApart) :
    (g.dataInteriors.map fun i => i.head.path).Nodup := by
  refine Interior.Through.nodup_flatMap (fun m hm => (hplaced m hm).through_module) ?_
    fun m hm => (hplaced m hm).nodup_paths (hapart m hm) (hsides m hm)
  rw [← List.map_eq_flatMap]
  exact hnames

/-- Under the unpacking strategy two nodes have one definition name exactly if they have one path,
whatever modules they belong to. So all names are different if siblings have different local names
and the sides of a procedure are named differently. -/
theorem modelNames_unpacked {ms : List (Module Declared)} {c : Context} {names : List String}
    {config : Config} {g : Generator} (hresolve : Context.resolve ms = .ok c)
    (hg : ofNames c names config = .ok g) (hstrategy : config.strategy = .unpacked)
    (handler : PathHandler) :
    let run : Generator := { g with handler }
    (∀ i ∈ run.dataInteriors, ∀ j ∈ run.dataInteriors,
      run.modelName i.head = run.modelName j.head ↔ i.head.path = j.head.path) ∧
      ((∀ m ∈ g.modules, m.Apart Resolved.name ∧ m.SidesApart) →
        (run.dataInteriors.map fun i => run.modelName i.head).Nodup) := by
  obtain ⟨rfl, rfl, hmodules⟩ := ofNames_fields hg
  intro run
  have hplaced : ∀ m ∈ run.modules, m.Placed := fun m hm =>
    Context.placed_of_resolve hresolve (hmodules m hm)
  have hiff : ∀ i ∈ run.dataInteriors, ∀ j ∈ run.dataInteriors,
      run.modelName i.head = run.modelName j.head ↔ i.head.path = j.head.path := by
    intro i hi j hj
    rw [modelName_eq_iff hplaced hi hj, show run.config.strategy = .unpacked from hstrategy]
    rfl
  refine ⟨hiff, fun hapart => ?_⟩
  have hnames : run.moduleNames.Nodup := by
    have hdistinct : g.moduleNames = Text.distinct names := moduleNames_of_ofNames hg
    change g.moduleNames.Nodup
    rw [hdistinct]
    exact Text.nodup_distinct names
  have hpaths := nodup_dataPaths hnames hplaced (fun m hm => (hapart m hm).1)
    fun m hm => (hapart m hm).2
  have hinj : ∀ i ∈ run.dataInteriors, ∀ j ∈ run.dataInteriors,
      run.modelName i.head = run.modelName j.head → i = j := fun i hi j hj he =>
    List.inj_on_of_nodup_map hpaths hi hj ((hiff i hi j hj).1 he)
  exact (hpaths.of_map _).map_on hinj

theorem modelNames_unpacked_shop : ∃ c g, Context.resolve shop = .ok c ∧
    ofNames c ["shop"] { strategy := .unpacked } = .ok g ∧
    (∀ m ∈ g.modules, m.Apart Resolved.name ∧ m.SidesApart) ∧
    (g.dataInteriors.map fun i => g.modelName i.head).Nodup := by
  obtain ⟨c, g, hresolve, hg⟩ := exists_run_shop { strategy := .unpacked }
  have hapart : ∀ m ∈ g.modules, m.Apart Resolved.name ∧ m.SidesApart := by
    cases hresolve
    cases hg
    decide
  obtain ⟨-, hnodup⟩ := modelNames_unpacked hresolve hg rfl g.handler
  exact ⟨c, g, hresolve, hg, hapart, hnodup hapart⟩

/-- A container with two children of one name, which two other modules brought in. -/
def guests : List (Module Declared) :=
  let head (name : String) (owner : Option String) : Declared := ⟨name, owner, none, none, none⟩
  let guest (owner content : String) : Node Declared :=
    .inner (head "ext" (some owner)) (.container false) []
      [.leaf (head content none) .string false none]
  [{ name := "net", xmlNamespace := none, abbreviation := none, revision := none
     description := none
     children := [.inner (head "top" none) (.container false) [] [guest "alpha" "x", guest "beta" "y"]]
     rpcs := []
     groupings := [] }]

/-- Local names may not be shared: the owners of two siblings do not tell their definitions apart,
and what the second one holds is lost. -/
theorem modelNames_guests : ∃ c g d ws, Context.resolve guests = .ok c ∧
    (∀ m ∈ c.modules, (m.Apart fun r => (r.owner, r.name)) ∧ m.SidesApart) ∧
    ofNames c ["net"] { strategy := .unpacked } = .ok g ∧
    ¬ (g.dataInteriors.map fun i => g.modelName i.head).Nodup ∧ g.generate = .ok (d, ws) ∧
    d.table.keys = ["Ext", "Top"] ∧
    ((d.definition? "Ext").bind Model.plain?).map (fun m => m.table.keys) = some ["x"] := by
  obtain ⟨c, g, hresolve, hg⟩ : ∃ c g, Context.resolve guests = .ok c ∧
      ofNames c ["net"] { strategy := .unpacked } = .ok g := ⟨_, _, rfl, rfl⟩
  have hapart : ∀ m ∈ c.modules, (m.Apart fun r => (r.owner, r.name)) ∧ m.SidesApart := by
    cases hresolve
    decide
  have hshared : ¬ (g.dataInteriors.map fun i => g.modelName i.head).Nodup := by
    cases hresolve
    cases hg
    decide +kernel
  obtain ⟨ws, hws⟩ := generate_of_ofNames hg (Config.fault?_of_choices ..)
  have hkeys : g.result.table.keys = ["Ext", "Top"] := by
    cases hresolve
    cases hg
    decide +kernel
  have hcontent :
      ((g.result.definition? "Ext").bind Model.plain?).map (fun m => m.table.keys) = some ["x"] := by
    cases hresolve
    cases hg
    decide +kernel
  exact ⟨c, g, g.result, ws, hresolve, hapart, hg, hshared, hws, hkeys, hcontent⟩

def groupingName (g : Generator) (reference owner : String) : String :=
  (Shared.nameOfGrouping g.draft reference owner).2

/-- A name that a path would be given is not that of another path. -/
theorem path_eq_of_groupingName {reference owner : String} {p : SchemaPath}
    (h : g.draft.names.get? p = some (g.groupingName reference owner)) :
    p = (GroupingRef.read reference owner).path := by
  have hkey := g.draft.get?_assignPath (GroupingRef.read reference owner).path
    (GroupingRef.read reference owner).name
  refine (g.distinct_draft.assign _ _ _) _ _ _ ?_ hkey
  exact Registry.within_assign _ _ _ _ _ _ h

/-- As long as no top node and no procedure takes the word that marks groupings, a grouping shares
its name with nothing else. What stands under the name is the grouping's own definition, and it
stands there whenever the document refers to it. -/
theorem groupingNames_apart {ms : List (Module Declared)} {c : Context} {names : List String}
    {config : Config} {g : Generator} (hresolve : Context.resolve ms = .ok c)
    (hspares : c.SparesGroupings) (hg : ofNames c names config = .ok g)
    (hstrategy : config.strategy = .shared) (handler : PathHandler) (reference owner : String) :
    let run : Generator := { g with handler }
    let document := run.draft.document
    (∀ i ∈ run.dataInteriors, run.groupingName reference owner ≠ run.modelName i.head) ∧
      (run.groupingName reference owner ∈ document.refs ∨
          document.hasDefinition (run.groupingName reference owner) →
        ∃ x, c.grouping? reference owner = some x ∧
          document.definition? (run.groupingName reference owner) =
            some ((Site.ofGrouping (.read reference owner) x).model c run.finalName)) := by
  obtain ⟨rfl, rfl, hmodules⟩ := ofNames_fields hg
  intro run document
  have hplaced : ∀ m ∈ g.context.modules, m.Placed := fun m hm =>
    Context.placed_of_resolve hresolve hm
  have hshared : run.config.strategy = .shared := hstrategy
  refine ⟨fun i hi he => ?_, fun h => ?_⟩
  · have hname := get?_modelName (g := run) (fun m hm => hplaced m (hmodules m hm)) hi
    rw [← he, hshared] at hname
    have hcontext := mem_interiors_of_mem_dataInteriors (g := run) hmodules hi
    exact hspares.definitionPath_ne hplaced hcontext _ (path_eq_of_groupingName hname)
  · have hdef : document.hasDefinition (run.groupingName reference owner) :=
      h.elim (run.closed_draft _) id
    obtain ⟨m, hm⟩ := Document.hasDefinition_iff.1 hdef
    obtain ⟨s, hs, hkey, rfl, -⟩ := written_draft (Strategy.closed_reach run.context _)
      (fun i hi => reach_of_visited hmodules hi) hm
    have hpath := path_eq_of_groupingName hkey
    rw [hshared] at hs
    cases hs with
    | interior i hi => exact absurd hpath (hspares.definitionPath_ne hplaced hi _)
    | grouping a x hx =>
      obtain rfl := GroupingRef.path_inj hpath
      exact ⟨x, hx, hm⟩

theorem groupingNames_apart_shop : ∃ c g x, Context.resolve shop = .ok c ∧ c.SparesGroupings ∧
    ofNames c ["shop"] {} = .ok g ∧ c.grouping? "address" "shop" = some x ∧
    (∀ i ∈ g.dataInteriors, g.groupingName "address" "shop" ≠ g.modelName i.head) ∧
    g.draft.document.definition? (g.groupingName "address" "shop") =
      some ((Site.ofGrouping (.read "address" "shop") x).model c g.finalName) := by
  obtain ⟨c, g, hresolve, hg⟩ := exists_run_shop {}
  have hspares := sparesGroupings_shop hresolve
  have hdef : g.draft.document.hasDefinition (g.groupingName "address" "shop") := by
    cases hresolve
    cases hg
    decide +kernel
  obtain ⟨hnames, hown⟩ :=
    groupingNames_apart hresolve hspares hg rfl g.handler "address" "shop"
  obtain ⟨x, hx, hmodel⟩ := hown (.inr hdef)
  exact ⟨c, g, x, hresolve, hspares, hg, hx, hnames, hmodel⟩

/-- A container that is named by the word that marks groupings, with a child that is named like a
grouping of the module. -/
def annex : List (Module Declared) :=
  let head (name : String) (origin : Option String) : Declared := ⟨name, none, none, none, origin⟩
  let text (name : String) (origin : Option String) : Node Declared :=
    .leaf (head name origin) .string false none
  [{ name := "net", xmlNamespace := none, abbreviation := none, revision := none
     description := none
     children := [.inner (head "grouping" none) (.container false) []
         [.inner (head "unit" none) (.container false) [] [text "serial" none]],
       .inner (head "top" none) (.container false) ["unit"]
         [text "label" (some "unit"), text "size" none]]
     rpcs := []
     groupings := [⟨"unit", none, [text "label" none], []⟩] }]

/-- The word may not be taken, even if all names are distinct: the child is defined under the name
of the grouping, whose own content is nowhere in the document. -/
theorem groupingName_annex : ∃ c g d ws, Context.resolve annex = .ok c ∧
    (∀ m ∈ c.modules, m.Apart Resolved.name ∧ (m.groupings.map Grouping.name).Nodup ∧
      ∀ x ∈ m.groupings, ':' ∉ x.name.toList) ∧
    ofNames c ["net"] {} = .ok g ∧
    (∃ i ∈ g.dataInteriors, g.groupingName "unit" "net" = g.modelName i.head) ∧
    g.generate = .ok (d, ws) ∧
    ((d.definition? (g.groupingName "unit" "net")).bind Model.plain?).map (fun m => m.table.keys) =
      some ["serial"] := by
  obtain ⟨c, g, hresolve, hg⟩ : ∃ c g, Context.resolve annex = .ok c ∧
      ofNames c ["net"] {} = .ok g := ⟨_, _, rfl, rfl⟩
  have hapart : ∀ m ∈ c.modules, m.Apart Resolved.name ∧ (m.groupings.map Grouping.name).Nodup ∧
      ∀ x ∈ m.groupings, ':' ∉ x.name.toList := by
    cases hresolve
    decide
  have hshared : ∃ i ∈ g.dataInteriors, g.groupingName "unit" "net" = g.modelName i.head := by
    cases hresolve
    cases hg
    decide +kernel
  obtain ⟨ws, hws⟩ := generate_of_ofNames hg (Config.fault?_of_choices ..)
  have hcontent : ((g.result.definition? (g.groupingName "unit" "net")).bind Model.plain?).map
      (fun m => m.table.keys) = some ["serial"] := by
    cases hresolve
    cases hg
    decide +kernel
  exact ⟨c, g, g.result, ws, hresolve, hapart, hg, hshared, hws, hcontent⟩

end Generator

end YangApi
