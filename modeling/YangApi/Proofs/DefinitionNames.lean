import YangApi.Proofs.Alias.Stable
import YangApi.Proofs.Definitions.Legible
import YangApi.Proofs.Instances

/-! What definitions are called. Whatever a strategy is asked over a context, in whatever order, the
names that it gives are in camel case, and none is empty that is given to something with an ASCII
letter or digit in its name. -/

namespace YangApi

open Draft Text

/-- `n` is in camel case, and is empty only if `word` has no ASCII letter or digit. -/
def Text.Names (word n : String) : Prop := IsCamel n ∧ (Worded word → n ≠ "")

/-- What a request speaks of belongs to a context. A grouping need not exist. -/
def Request.In (c : Context) : Request → Prop
  | .name r => ∃ i ∈ c.interiors, i.head = r
  | .side r _ => ∃ m ∈ c.modules, r ∈ m.rpcs
  | .grouping _ _ => True
  | .add _ i => i ∈ c.interiors

/-- What a strategy can come to over a context: modules are primed and requests served as often as
one likes, in any order, and the document may be exchanged at any time. -/
inductive Strategy.Reached (s : Strategy) (c : Context) : Draft → Prop
  | start : Reached s c {}
  | document {d : Draft} (h : Reached s c d) (x : Document) : Reached s c { d with document := x }
  | prime {d : Draft} (h : Reached s c d) (m : Module Resolved) (hm : m ∈ c.modules) :
    Reached s c (s.prime d m)
  | serve {d : Draft} (h : Reached s c d) (request : Request) (hin : request.In c) :
    Reached s c (s.serve c d request)

theorem Context.side_mem_interiors {c : Context} {m : Module Resolved} (hm : m ∈ c.modules)
    {r : Rpc Resolved} (hr : r ∈ m.rpcs) {direction : Direction} {side : RpcSide Resolved}
    (hside : r.side direction = some side) : side.interior ∈ c.interiors := by
  refine List.mem_flatMap.2 ⟨m, hm, List.mem_append_left _ (List.mem_append_right _ ?_)⟩
  refine List.mem_flatMap.2 ⟨r, hr, List.mem_flatMap.2 ⟨side, Restconf.mem_sides hside, ?_⟩⟩
  exact List.mem_cons_self ..

namespace Strategy

variable {s : Strategy} {c : Context} {d : Draft}

theorem legible_serve (s : Strategy) (hc : ∀ i ∈ c.interiors, i.head.Ends) {request : Request}
    (hin : request.In c) (h : d.names.Legible) : (s.serve c d request).names.Legible := by
  cases request with
  | name r =>
    obtain ⟨i, hi, rfl⟩ := hin
    exact s.legible_nameOf (hc i hi) h
  | side r direction =>
    obtain ⟨m, hm, hr⟩ := hin
    simp only [serve, nameOfSide]
    cases hside : r.side direction with
    | none => exact h
    | some side => exact s.legible_nameOf (hc _ (Context.side_mem_interiors hm hr hside)) h
  | grouping reference owner =>
    cases s with
    | shared => exact legible_nameOfGrouping h reference owner
    | unpacked => exact h
  | add x i => exact s.legible_add hc hin h

theorem Reached.legible {ms : List (Module Declared)} (hresolve : Context.resolve ms = .ok c)
    (h : s.Reached c d) : d.names.Legible := by
  induction h with
  | start => exact Registry.legible_empty
  | document _ _ ih => exact ih
  | prime _ m hm ih => exact s.legible_prime (Context.placed_of_resolve hresolve hm) ih
  | serve _ request hin ih => exact s.legible_serve (Context.ends_of_resolve hresolve) hin ih

theorem names_assignPath (h : d.names.Legible) {key : SchemaPath} {name : String}
    (hkey : key.last? = some name) : Names name (d.assignPath key name).2 := by
  have hlegible := legible_assignPath h hkey
  have hname := d.get?_assignPath key name
  exact ⟨hlegible.camel _ _ hname, hlegible.ne_empty _ _ _ hname hkey⟩

theorem Reached.visit (h : s.Reached c d) (rules : List TagRule) (moduleName : String) {v : Visit}
    (hmentions : ∀ i ∈ v.mentions, i ∈ c.interiors) (hdefines : ∀ i ∈ v.defines, i ∈ c.interiors) :
    s.Reached c (Restconf.visit rules s c moduleName d v) := by
  cases v with
  | path i segment =>
    have hi : (Request.name i.head).In c := ⟨i, hmentions i (List.mem_singleton_self i), rfl⟩
    exact (h.serve _ hi).document _
  | define i =>
    have hi : (Request.add d.document i).In c := hdefines i (List.mem_singleton_self i)
    exact h.serve _ hi
  | rpc r segment =>
    have hside : ∀ (d : Draft) (direction : Direction), s.Reached c d →
        s.Reached c (Restconf.defineSide s c d r direction).1 := by
      intro d direction h
      unfold Restconf.defineSide
      cases hside : r.side direction with
      | none => exact h
      | some side =>
        have hmem : side.interior ∈ c.interiors :=
          hdefines _ (List.mem_map_of_mem (Restconf.mem_sides hside))
        simp only [nameOfSide, hside]
        have hadd : s.Reached c (s.add c d side.interior) := h.serve (.add d.document _) hmem
        exact hadd.serve (.name side.head) ⟨_, hmem, rfl⟩
    rw [Restconf.visit_rpc]
    exact (hside _ .output (hside d .input h)).document _

end Strategy

namespace Generator

variable {g : Generator}

/-- So does a whole run. -/
theorem reached_draft (hmodules : ∀ m ∈ g.modules, m ∈ g.context.modules) :
    g.config.strategy.Reached g.context g.draft := by
  have hprimed : g.config.strategy.Reached g.context g.primed :=
    List.foldlRecOn (motive := g.config.strategy.Reached g.context) g.modules _
      (Strategy.Reached.start.document _) fun d hd m hm => hd.prime m (hmodules m hm)
  rw [draft_eq]
  refine List.foldlRecOn (motive := g.config.strategy.Reached g.context) g.visits _ hprimed
    fun d hd v hv => hd.visit g.handler.rules v.1 (fun i hi => ?_) fun i hi => ?_
  · exact Visited.mem_interiors hmodules ⟨v, hv, hi⟩
  · exact (visited_iff_defines.2 ⟨v, hv, hi⟩).mem_interiors hmodules

theorem exists_path_of_hasDefinition {k : String} (h : g.result.hasDefinition k) :
    ∃ p, g.draft.names.get? p = some k := by
  -- Collapsing takes definitions away and adds none.
  have hdraft : ∃ x, g.draft.document.definition? k = some x := by
    obtain ⟨x, hx⟩ := Document.hasDefinition_iff.1 h
    rw [Document.definition?_eq] at hx
    have hcollapse := Document.get?_table_collapse { g.draft.document with info := g.info }
      g.config.collapseAliasChains k
    have hsome := hcollapse.symm.trans hx
    split at hsome
    · cases hsome
    · obtain ⟨y, hy, -⟩ := Option.map_eq_some_iff.1 hsome
      exact ⟨y, (Document.definition?_eq _ _).trans hy⟩
  obtain ⟨x, hx⟩ := hdraft
  obtain ⟨site, -, hkey, -⟩ := written_draft (Site.Closed.all g.context) (fun _ _ => trivial) hx
  exact ⟨_, hkey⟩

/-- Camel case leaves of a text its ASCII letters and digits, and puts those in upper case that
begin a run of them. It is empty only if there are none, a second time it changes nothing, and with
any other sign between two texts each is read for itself. Therefore, whatever a strategy is asked
over a context, containers, lists, sides of procedures and groupings get names in camel case, and
none is empty that is given to something with an ASCII letter or digit in its name. What counts of a
grouping is what a reference says behind the first colon, and all of it if there is no colon. The
definitions of a document are among these names. -/
theorem definitionNames_camel :
    (∀ s : String,
      camelCase s = String.ofList ((runs s).flatMap capitalized) ∧
      camelCase s = String.ofList
        (((preceded s.toList).filter fun e => e.2.isAlphanum).map fun e =>
          if e.1.any Char.isAlphanum then e.2 else e.2.toUpper) ∧
      IsCamel (camelCase s) ∧ (camelCase s ≠ "" ↔ Worded s) ∧
      camelCase (camelCase s) = camelCase s) ∧
    (∀ (s t : String) (sign : Char), ¬ sign.isAlphanum →
      camelCase (s ++ String.singleton sign ++ t) = camelCase s ++ camelCase t) ∧
    ∀ (ms : List (Module Declared)) (c : Context), Context.resolve ms = .ok c →
      (∀ (s : Strategy) (d : Draft), s.Reached c d →
        d.names.Legible ∧
        (∀ i ∈ c.interiors, Names i.head.name (s.nameOf d i.head).2) ∧
        (∀ m ∈ c.modules, ∀ r ∈ m.rpcs, ∀ direction side, r.side direction = some side →
          ∃ n, (s.nameOfSide d r direction).2 = some n ∧ Names side.head.name n) ∧
        ∀ reference owner,
          let n := (Shared.nameOfGrouping d reference owner).2
          Names (GroupingRef.read reference owner).name n ∧
            (':' ∉ reference.toList → Names reference n)) ∧
      ∀ names config g, ofNames c names config = .ok g → ∀ handler : PathHandler,
        let run : Generator := { g with handler }
        config.strategy.Reached c run.draft ∧
          ∀ d ws, run.generate = .ok (d, ws) → ∀ k, d.hasDefinition k →
            ∃ p, run.draft.names.get? p = some k := by
  refine ⟨fun s => ⟨camelCase_eq_runs s, camelCase_eq_preceded s, isCamel_camelCase s,
    camelCase_ne_empty_iff, camelCase_eq_self_iff.2 (isCamel_camelCase s)⟩,
    fun s t sign hsign => camelCase_append_sign hsign s t, fun ms c hresolve => ⟨?_, ?_⟩⟩
  · intro s d hd
    have hlegible := hd.legible hresolve
    have hends := Context.ends_of_resolve hresolve
    have hname : ∀ i ∈ c.interiors, Names i.head.name (s.nameOf d i.head).2 :=
      fun i hi => Strategy.names_assignPath hlegible (s.last?_key (hends i hi))
    refine ⟨hlegible, hname, fun m hm r hr direction side hside => ?_, fun reference owner => ?_⟩
    · refine ⟨_, ?_, hname _ (Context.side_mem_interiors hm hr hside)⟩
      simp only [Strategy.nameOfSide, hside]
      rfl
    · have hread : Names (GroupingRef.read reference owner).name
          (Shared.nameOfGrouping d reference owner).2 :=
        Strategy.names_assignPath hlegible (GroupingRef.read reference owner).last?_path
      refine ⟨hread, fun hplain => ?_⟩
      rwa [GroupingRef.read_of_notMem hplain] at hread
  · intro names config g hg handler run
    obtain ⟨rfl, rfl, hmodules⟩ := ofNames_fields hg
    refine ⟨reached_draft (g := run) hmodules, fun d ws hgenerate k hk => ?_⟩
    obtain rfl := result_of_generate hgenerate
    exact exists_path_of_hasDefinition hk

/-- An identifier is cut at its hyphens. The orders have a name, the cancellation's side too, and
what the cancellation takes is in the document under the name of a path. -/
theorem definitionNames_camel_shop :
    camelCase ("evc" ++ String.singleton '-' ++ "id") = camelCase "evc" ++ camelCase "id" ∧
    ∃ c g d ws, Context.resolve shop = .ok c ∧ ofNames c ["shop"] {} = .ok g ∧
      g.generate = .ok (d, ws) ∧ Strategy.shared.Reached c g.draft ∧
      (∃ i ∈ c.interiors, i.head.name = "order" ∧
        Names "order" (Strategy.shared.nameOf g.draft i.head).2 ∧
        (Strategy.shared.nameOf g.draft i.head).2 ≠ "") ∧
      (∃ m ∈ c.modules, ∃ r ∈ m.rpcs, ∃ n,
        (Strategy.shared.nameOfSide g.draft r .input).2 = some n ∧ Names "input" n) ∧
      d.hasDefinition "CancelInput" ∧ ∃ p, g.draft.names.get? p = some "CancelInput" := by
  obtain ⟨-, hcut, hrun⟩ := definitionNames_camel
  obtain ⟨c, g, hresolve, hg⟩ := exists_run_shop {}
  obtain ⟨hgiven, hruns⟩ := hrun shop c hresolve
  obtain ⟨hreached, hdefined⟩ := hruns _ _ _ hg g.handler
  obtain ⟨-, hnames, hsides, -⟩ := hgiven _ _ hreached
  obtain ⟨ws, hws⟩ := generate_of_ofNames hg (Config.fault?_of_choices ..)
  obtain ⟨i, hi, horder⟩ : ∃ i ∈ c.interiors, i.head.name = "order" := by
    cases hresolve
    decide
  obtain ⟨m, hm, r, hr, side, hside, hinput⟩ : ∃ m ∈ c.modules, ∃ r ∈ m.rpcs, ∃ side,
      r.side .input = some side ∧ side.head.name = "input" := by
    cases hresolve
    exact ⟨_, List.mem_cons_self .., _, List.mem_cons_self .., _, rfl, rfl⟩
  obtain ⟨n, hn, hside⟩ := hsides m hm r hr .input side hside
  have hcancel : g.result.hasDefinition "CancelInput" := by
    cases hresolve
    cases hg
    decide +kernel
  have horderName := horder ▸ hnames i hi
  exact ⟨hcut "evc" "id" '-' (by decide), c, g, g.result, ws, hresolve, hg, hws, hreached,
    ⟨i, hi, horder, horderName, horderName.2 (by decide)⟩,
    ⟨m, hm, r, hr, n, hn, hinput ▸ hside⟩, hcancel, hdefined _ ws hws _ hcancel⟩

/-- A grouping with a colon at the end of its name. -/
def colon : List (Module Declared) :=
  [{ name := "net", xmlNamespace := none, abbreviation := none, revision := none
     description := none
     children := []
     rpcs := []
     groupings :=
       [⟨"unit:", none, [.leaf ⟨"label", none, none, none, none⟩ .string false none], []⟩] }]

/-- It is not the whole name of a grouping that counts: what a module declares is read as a
reference is, and behind the colon there is nothing to name the definition after. -/
theorem groupingName_colon : ∃ c, Context.resolve colon = .ok c ∧
    ∃ m ∈ c.modules, ∃ x ∈ m.groupings, Worded x.name ∧
      (Shared.nameOfGrouping (Strategy.shared.primed c.modules) x.name m.name).2 = "" ∧
      (Strategy.shared.primed c.modules).names.get? (GroupingRef.read x.name m.name).path =
        some "" := by
  obtain ⟨c, hresolve⟩ : ∃ c, Context.resolve colon = .ok c := ⟨_, rfl⟩
  refine ⟨c, hresolve, ?_⟩
  cases hresolve
  exact ⟨_, List.mem_cons_self .., _, List.mem_cons_self .., by decide, by decide, by decide⟩

end Generator

end YangApi
