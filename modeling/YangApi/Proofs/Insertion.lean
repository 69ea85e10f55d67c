import YangApi.Proofs.Definitions.Lookup
import YangApi.Proofs.Run
import YangApi.Proofs.Schema.Inheritance

/-! Modules that are not selected do not matter. A context with further modules finds every module
and every grouping that was found before, so each visit of a run does what it did; and what a run
does is its visits. -/

namespace YangApi

namespace Context

variable {c c' : Context}

/-- `c'` is `c` with modules of other names put in, at whatever positions. -/
def Extends (c' c : Context) : Prop :=
  c'.modules.filter (fun m => m.name ∈ c.modules.map Module.name) = c.modules

/-- Modules that are put into the input are put into the context. -/
theorem extends_of_resolve {ms ms' : List (Module Declared)} (h : resolve ms = .ok c)
    (h' : resolve ms' = .ok c')
    (hinserted : ms'.filter (fun m => m.name ∈ ms.map Module.name) = ms) : c'.Extends c := by
  have hmodules := eq_map_of_mapM (resolve_eq_ok.1 h).2 fun m _ _ => Module.eq_inPlace_of_resolve
  have hmodules' := eq_map_of_mapM (resolve_eq_ok.1 h').2 fun m _ _ => Module.eq_inPlace_of_resolve
  have hnames : c.modules.map Module.name = ms.map Module.name := by
    rw [hmodules, List.map_map]
    rfl
  rw [Extends, hnames, hmodules, hmodules', List.filter_map]
  exact congrArg (List.map Module.inPlace) hinserted

theorem Extends.module? (h : c'.Extends c) {name : String} {m : Module Resolved}
    (hm : c.module? name = some m) : c'.module? name = some m := by
  have hname : name ∈ c.modules.map Module.name := by
    have hsame : m.name = name := by simpa using List.find?_some hm
    exact List.mem_map.2 ⟨m, List.mem_of_find?_eq_some hm, hsame⟩
  unfold Context.module? at hm ⊢
  rw [← h, List.find?_filter] at hm
  rw [← hm]
  refine congrArg (List.find? · c'.modules) (funext fun m' => ?_)
  by_cases hsame : m'.name = name
  · rw [hsame]
    simp [hname]
  · simp [hsame]

theorem Extends.findsAll (h : c'.Extends c) : c'.FindsAll c where
  grouping reference owner g hg := by
    obtain ⟨m, hm, hg⟩ := Option.bind_eq_some_iff.1 hg
    exact Option.bind_eq_some_iff.2 ⟨m, h.module? hm, hg⟩
  count := by
    have hsub : c.modules.Sublist c'.modules := by
      rw [← h]
      exact List.filter_sublist
    exact (hsub.flatMap Module.groupings).length_le

end Context

namespace Restconf

variable {c c' : Context} {s : Strategy}

theorem defineSide_congr (hadd : ∀ i ∈ c.interiors, ∀ d, s.add c d i = s.add c' d i)
    {r : Rpc Resolved} {direction : Direction}
    (hsides : ∀ side ∈ r.sides, side.interior ∈ c.interiors) (d : Draft) :
    defineSide s c d r direction = defineSide s c' d r direction := by
  unfold defineSide
  cases hside : r.side direction with
  | none => rfl
  | some side =>
    dsimp only
    rw [hadd _ (hsides side (mem_sides hside))]

theorem visit_congr (hadd : ∀ i ∈ c.interiors, ∀ d, s.add c d i = s.add c' d i)
    (rules : List TagRule) (moduleName : String) {v : Visit}
    (hv : ∀ i ∈ v.defines, i ∈ c.interiors) (d : Draft) :
    visit rules s c moduleName d v = visit rules s c' moduleName d v := by
  cases v with
  | path i segment => rfl
  | define i => exact hadd i (hv i (List.mem_singleton_self i)) d
  | rpc r segment =>
    have hsides : ∀ side ∈ r.sides, side.interior ∈ c.interiors :=
      fun side hside => hv _ (List.mem_map_of_mem hside)
    rw [visit_rpc, visit_rpc, defineSide_congr hadd hsides]
    dsimp only
    rw [defineSide_congr hadd hsides]

end Restconf

theorem Strategy.add_congr {c c' : Context} (hfinds : c'.FindsAll c) (huses : c.UsesExist)
    (s : Strategy) {i : Interior} (hi : i ∈ c.interiors) (d : Draft) :
    s.add c d i = s.add c' d i := by
  cases s with
  | shared => exact Shared.add_congr hfinds huses hi d
  | unpacked => rfl

namespace Generator

variable {g : Generator} {c : Context}

def inContext (g : Generator) (c : Context) : Generator := { g with context := c }

theorem addAllTags_inContext (g : Generator) (c : Context) (rs : List TagRule) :
    (g.inContext c).addAllTags rs = (g.addAllTags rs).inContext c := by
  unfold addAllTags
  induction rs generalizing g with
  | nil => rfl
  | cons r rs ih => exact ih (g.addTags r)

theorem select_extends {c c' : Context} (h : c'.Extends c) {names : List String}
    {ms : List (Module Resolved)} (hms : select c names = .ok ms) : select c' names = .ok ms := by
  induction names generalizing ms with
  | nil => exact hms
  | cons name names ih =>
    unfold select at hms ⊢
    split at hms
    · cases hms
    · next m hm =>
      obtain ⟨rest, hrest, hms⟩ := bind_eq_ok.1 hms
      rw [h.module? hm]
      exact bind_eq_ok.2 ⟨rest, ih hrest, hms⟩

theorem ofNames_extends {c c' : Context} (h : c'.Extends c) {names : List String} {config : Config}
    (hg : ofNames c names config = .ok g) : ofNames c' names config = .ok (g.inContext c') := by
  obtain ⟨ms, hms, hg⟩ := bind_eq_ok.1 hg
  refine bind_eq_ok.2 ⟨ms, select_extends h hms, ?_⟩
  dsimp only at hg ⊢
  split
  · next hempty =>
    rw [if_pos hempty] at hg
    cases hg
  · next hempty =>
    rw [if_neg hempty] at hg
    obtain rfl := pure_eq_ok.1 hg
    exact congrArg _ (addAllTags_inContext { context := c, modules := ms, config } c' _)

theorem draft_inContext {c' : Context} (hmodules : ∀ m ∈ g.modules, m ∈ g.context.modules)
    (hfinds : c'.FindsAll g.context) (huses : g.context.UsesExist) :
    (g.inContext c').draft = g.draft := by
  rw [draft_eq, draft_eq]
  refine List.foldl_ext _ _ _ fun d v hv => ?_
  obtain ⟨m, hm, -, hvm⟩ := mem_visits.1 hv
  refine (Restconf.visit_congr (fun i hi d => Strategy.add_congr hfinds huses _ hi d) _ _ ?_ d).symm
  intro i hi
  exact List.mem_flatMap.2 ⟨m, hmodules m hm,
    List.mem_append_left _ (Module.mem_dataInteriors_of_defines hvm hi)⟩

theorem generate_inContext {c' : Context} (hdraft : (g.inContext c').draft = g.draft) :
    (g.inContext c').generate = g.generate := by
  unfold generate
  rw [hdraft]
  rfl

/-- What is not selected has no influence. If every grouping that is used is there, then further
modules change neither the document nor the warnings, whatever is selected and configured and
whatever rules give tags. -/
theorem generate_extends {c c' : Context} (h : c'.Extends c) (huses : c.UsesExist)
    {names : List String} {config : Config} {g : Generator} (hg : ofNames c names config = .ok g)
    (hvalid : config.fault? = none) (extra : List TagRule) :
    ∃ g' d ws, ofNames c' names config = .ok g' ∧ (g.addAllTags extra).generate = .ok (d, ws) ∧
      (g'.addAllTags extra).generate = .ok (d, ws) := by
  have hg' := ofNames_extends h hg
  obtain ⟨rfl, rfl, hmodules⟩ := ofNames_fields hg
  obtain ⟨hcontext, hconfig, hms⟩ := addAllTags_fields g extra
  obtain ⟨ws, hws⟩ := generate_of_valid (g := g.addAllTags extra) (by rw [hconfig]; exact hvalid)
  refine ⟨g.inContext c', _, ws, hg', hws, ?_⟩
  have hdraft : ((g.addAllTags extra).inContext c').draft = (g.addAllTags extra).draft := by
    refine draft_inContext ?_ ?_ ?_
    · rw [hms, hcontext]
      exact hmodules
    · rw [hcontext]
      exact h.findsAll
    · rw [hcontext]
      exact huses
  rw [addAllTags_inContext, generate_inContext hdraft]
  exact hws

/-- A module that is put before the shop, with a grouping of a name that the shop has as well. -/
theorem generate_extends_shop : ∃ ms' c c' g, Context.resolve shop = .ok c ∧
    Context.resolve ms' = .ok c' ∧ shop.length < ms'.length ∧ c'.Extends c ∧ c.UsesExist ∧
    ofNames c ["shop"] {} = .ok g ∧ ∃ g' d ws, ofNames c' ["shop"] {} = .ok g' ∧
      (g.addAllTags [.module]).generate = .ok (d, ws) ∧
      (g'.addAllTags [.module]).generate = .ok (d, ws) := by
  let log : Module Declared :=
    { name := "log", xmlNamespace := none, abbreviation := none, revision := none
      description := none
      children := [.inner ⟨"audit", none, none, none, none⟩ (.container false) ["address"] []]
      rpcs := []
      groupings := [⟨"address", none, [], []⟩] }
  obtain ⟨c, g, hresolve, hg⟩ := exists_run_shop {}
  obtain ⟨c', hresolve'⟩ : ∃ c', Context.resolve (log :: shop) = .ok c' := ⟨_, rfl⟩
  have hextends : c'.Extends c := Context.extends_of_resolve hresolve hresolve' rfl
  have huses := usesExist_shop hresolve
  exact ⟨log :: shop, c, c', g, hresolve, hresolve', by decide, hextends, huses, hg,
    generate_extends hextends huses hg (Config.fault?_of_choices ..) [.module]⟩

end Generator

end YangApi
