import Mathlib.Logic.Relation
import YangApi.Proofs.Agreement

/-! The plain models of a definition, which its parts hold and the definitions behind its references.
They are the own models of the site that wrote it and of the groupings that are used there, and used
by those, at any depth. Groupings may use each other in circles. -/

namespace YangApi

open Relation

/-- The plain models of a definition, its parts included and references followed. -/
inductive Document.Holds (d : Document) : Model → Plain → Prop
  | own {m : Plain} : Holds d (.plain m) m
  | part {x : Option String} {parts : List Model} {interfaces : List String} {p : Model} {m : Plain}
    (hp : p ∈ parts) (h : Holds d p m) : Holds d (.composed x parts interfaces) m
  | ref {n : String} {x : Model} {m : Plain} (hn : d.definition? n = some x)
    (h : Holds d x m) : Holds d (.ref n) m

theorem Document.holds_plain {d : Document} {m p : Plain} : d.Holds (.plain m) p ↔ p = m := by
  constructor
  · intro h
    cases h with
    | own => rfl
  · rintro rfl
    exact .own

namespace Site

variable {c : Context} {name : SchemaPath → String} {s : Site}

inductive Draws (c : Context) (s : Site) : Site → Prop
  | used {u : String} {x : Grouping Resolved} (hu : u ∈ s.source.uses)
    (hx : c.groupingAt? (.read u s.source.owner) = some x) :
    Draws c s (.ofGrouping (.read u s.source.owner) x)

def parts (c : Context) (name : SchemaPath → String) (s : Site) : List Model :=
  ((s.parents c).map name).map .ref ++
    if (s.ownModel name).isEmpty then [] else [.plain (s.ownModel name)]

theorem model_of_parents (h : s.parents c ≠ []) (name : SchemaPath → String) :
    s.model c name =
      .composed s.source.description (s.parts c name) ((s.parents c).map name) := by
  simp [model, parts, h]

theorem mem_parts {p : Model} : p ∈ s.parts c name ↔ (∃ q ∈ s.parents c, .ref (name q) = p) ∨
    (¬ (s.ownModel name).isEmpty ∧ p = .plain (s.ownModel name)) := by
  unfold parts
  by_cases hempty : (s.ownModel name).isEmpty <;> simp [hempty]

/-- A document in which settled paths of groupings have the groupings' definitions. -/
def GroupingsDefined (c : Context) (name : SchemaPath → String) (settled : SchemaPath → Prop)
    (d : Document) : Prop :=
  ∀ a x, c.groupingAt? a = some x → settled a.path →
    d.definition? (name a.path) = some ((ofGrouping a x).model c name) ∧
      ∀ q ∈ (ofGrouping a x).parents c, settled q

/-- A model is the definition of a site, or refers to a grouping. -/
inductive StandsFor (c : Context) (name : SchemaPath → String) (settled : SchemaPath → Prop) :
    Model → Site → Prop
  | definition {m : Model} {s : Site} (hm : m = s.model c name)
    (hsettled : ∀ q ∈ s.parents c, settled q) : StandsFor c name settled m s
  | reference {a : GroupingRef} {x : Grouping Resolved} (hx : c.groupingAt? a = some x)
    (ha : settled a.path) : StandsFor c name settled (.ref (name a.path)) (ofGrouping a x)

variable {settled : SchemaPath → Prop} {d : Document}

/-- The induction is on how the plain model is found. -/
theorem StandsFor.exists_drawn (hdefined : GroupingsDefined c name settled d) {x : Model} {m : Plain}
    (hs : StandsFor c name settled x s) (h : d.Holds x m) :
    ∃ t, ReflTransGen (Draws c) s t ∧ m = { t.ownModel name with description := m.description } := by
  induction h generalizing s with
  | @own m =>
    cases hs with
    | definition hm =>
      by_cases hparents : s.parents c = []
      · rw [model_of_parents_nil hparents] at hm
        cases hm
        exact ⟨s, .refl, rfl⟩
      · rw [model_of_parents hparents] at hm
        cases hm
  | @part y parts interfaces p m hp h ih =>
    cases hs with
    | definition hm hsettled =>
      by_cases hparents : s.parents c = []
      · rw [model_of_parents_nil hparents] at hm
        cases hm
      · rw [model_of_parents hparents] at hm
        cases hm
        rcases mem_parts.1 hp with ⟨q, hq, rfl⟩ | ⟨-, rfl⟩
        · obtain ⟨u, hu, x, hx, rfl⟩ := mem_parents.1 hq
          obtain ⟨t, ht, hm⟩ := ih (.reference hx (hsettled _ hq))
          exact ⟨t, .head (.used hu hx) ht, hm⟩
        · obtain rfl := Document.holds_plain.1 h
          exact ⟨s, .refl, rfl⟩
  | @ref n y m hn h ih =>
    cases hs with
    | definition hm =>
      by_cases hparents : s.parents c = []
      · rw [model_of_parents_nil hparents] at hm
        cases hm
      · rw [model_of_parents hparents] at hm
        cases hm
    | reference hx ha =>
      obtain ⟨hdef, hnext⟩ := hdefined _ _ hx ha
      exact ih (.definition (Option.some.inj (hn.symm.trans hdef)) hnext)

/-- The own model of a site is held by its definition, if it says anything. -/
theorem holds_ownModel (hempty : ¬ (s.ownModel name).isEmpty) :
    ∃ m, d.Holds (s.model c name) m ∧ m = { s.ownModel name with description := m.description } := by
  by_cases hparents : s.parents c = []
  · rw [model_of_parents_nil hparents]
    exact ⟨_, .own, rfl⟩
  · rw [model_of_parents hparents]
    exact ⟨_, .part (mem_parts.2 (.inr ⟨hempty, rfl⟩)) .own, rfl⟩

/-- So are those of all sites that are drawn on. -/
theorem holds_drawn (hdefined : GroupingsDefined c name settled d) {t : Site}
    (h : ReflTransGen (Draws c) s t) (hsettled : ∀ q ∈ s.parents c, settled q)
    (hempty : ¬ (t.ownModel name).isEmpty) :
    ∃ m, d.Holds (s.model c name) m ∧ m = { t.ownModel name with description := m.description } := by
  induction h using ReflTransGen.head_induction_on with
  | refl => exact holds_ownModel hempty
  | head hdraws _ ih =>
    cases hdraws with
    | used hu hx =>
      have hparent := mem_parents.2 ⟨_, hu, _, hx, rfl⟩
      obtain ⟨hdef, hnext⟩ := hdefined _ _ hx (hsettled _ hparent)
      obtain ⟨m, hm, hown⟩ := ih hnext
      rw [model_of_parents (List.ne_nil_of_mem hparent)]
      exact ⟨m, .part (mem_parts.2 (.inl ⟨_, hparent, rfl⟩)) (.ref hdef hm), hown⟩

/-- What holds of some plain model of a definition holds of an own model that the site draws on,
provided that descriptions do not matter and that it does not hold of models which say nothing. -/
theorem exists_holds_model {P : Plain → Prop} (hdefined : GroupingsDefined c name settled d)
    (hsettled : ∀ q ∈ s.parents c, settled q) (hP : ∀ m x, P { m with description := x } ↔ P m)
    (hempty : ∀ t : Site, (t.ownModel name).isEmpty → ¬ P (t.ownModel name)) :
    (∃ m, d.Holds (s.model c name) m ∧ P m) ↔
      ∃ t, ReflTransGen (Draws c) s t ∧ P (t.ownModel name) := by
  constructor
  · rintro ⟨m, hm, h⟩
    obtain ⟨t, ht, hown⟩ := (StandsFor.definition rfl hsettled).exists_drawn hdefined hm
    rw [hown] at h
    exact ⟨t, ht, (hP _ _).1 h⟩
  · rintro ⟨t, ht, h⟩
    obtain ⟨m, hm, hown⟩ := holds_drawn hdefined ht hsettled fun he => hempty t he h
    refine ⟨m, hm, ?_⟩
    rw [hown]
    exact (hP _ _).2 h

end Site

namespace Generator

open Draft

variable {g : Generator} {i : Interior}

/-- The definition of what is visited was written for a node with the same key, and the groupings that
this one draws on are defined. When groupings are shared, no node may have the key of one. -/
theorem definition?_visited (hmodules : ∀ m ∈ g.modules, m ∈ g.context.modules)
    (hapart : g.config.strategy = .shared → ∀ j ∈ g.context.interiors, ∀ a x,
      g.context.groupingAt? a = some x → j.head.definitionPath ≠ a.path)
    (hi : g.Visited i) : ∃ j ∈ g.context.interiors,
      g.config.strategy.key j.head = g.config.strategy.key i.head ∧
      g.draft.document.definition? (g.modelName i.head) =
        some ((g.config.strategy.site j).model g.context g.finalName) ∧
      ∃ settled, Site.GroupingsDefined g.context g.finalName settled g.draft.document ∧
        ∀ q ∈ (g.config.strategy.site j).parents g.context, settled q := by
  have hsettled := settled_draft hi
  rw [modelName_eq hsettled]
  cases hstrategy : g.config.strategy with
  | shared =>
    rw [hstrategy] at hsettled
    obtain ⟨s, hs, hkey, hdef, hneeds⟩ := siteOf_of_settled hstrategy hmodules hsettled
    cases hs with
    | interior j hj =>
      refine ⟨j, hj, hkey, hdef, Settled [] g.draft, fun a x hx ha => ?_,
        fun q hq => hneeds q (List.mem_append_left _ hq)⟩
      obtain ⟨hdef, hneeds⟩ := definition?_of_grouping hstrategy hmodules (hapart hstrategy) hx ha
      exact ⟨hdef, fun q hq => hneeds q (List.mem_append_left _ hq)⟩
    | grouping a x hx =>
      exact absurd hkey.symm (hapart hstrategy i (hi.mem_interiors hmodules) a x hx)
  | unpacked =>
    rw [hstrategy] at hsettled
    obtain ⟨_, ⟨j, hj, rfl⟩, hkey, hdef, -⟩ := site_of_settled g.closed_coveredSite
      (fun i hi => coveredSite_of_visited hstrategy hi) hsettled
    -- nothing is used, so no grouping has to be defined
    exact ⟨j, mem_interiors_of_mem_dataInteriors hmodules hj.mem_dataInteriors, hkey, hdef,
      fun _ => False, fun _ _ _ h => h.elim, fun _ hq => absurd hq List.not_mem_nil⟩

end Generator

end YangApi
