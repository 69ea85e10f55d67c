import YangApi.Proofs.Restconf.Stamps
import YangApi.Proofs.Selection

/-! Where the tags of a document come from. A run keeps its tag rules twice, in its handler and for
handlers that come later; both copies say the same whatever a caller sets, so each rule is applied
once. What the rules make of the segment of an operation is listed by first use. -/

namespace YangApi

namespace Text

variable {α : Type} [DecidableEq α] {xs ys : List α}

/-- `ys` has all that `xs` has, each once, in the order of first use. -/
structure FirstUses (xs ys : List α) : Prop where
  mem : ∀ a, a ∈ ys ↔ a ∈ xs
  order : ys.Pairwise fun a b => xs.idxOf a < xs.idxOf b

theorem firstUses_distinct (xs : List α) : FirstUses xs (distinct xs) where
  mem _ := mem_distinct
  order := by
    induction xs with
    | nil => exact .nil
    | cons x xs ih =>
      have hlater : ∀ {a}, a ∈ (distinct xs).filter (fun y => y ≠ x) →
          (x :: xs).idxOf a = xs.idxOf a + 1 := by
        intro a ha
        have hne : a ≠ x := by simpa using (List.mem_filter.1 ha).2
        exact List.idxOf_cons_ne xs (Ne.symm hne)
      rw [distinct_cons]
      refine List.pairwise_cons.2 ⟨fun b hb => ?_, (ih.filter _).imp_of_mem fun ha hb hlt => ?_⟩
      · rw [List.idxOf_cons_self, hlater hb]
        omega
      · rw [hlater ha, hlater hb]
        omega

theorem FirstUses.nodup (h : FirstUses xs ys) : ys.Nodup :=
  h.order.imp fun hlt heq => hlt.ne (congrArg (xs.idxOf ·) heq)

/-- There is one such list only. -/
theorem firstUses_iff : FirstUses xs ys ↔ ys = distinct xs := by
  constructor
  · intro h
    have hdistinct := firstUses_distinct xs
    have hperm : ys.Perm (distinct xs) := (List.perm_ext_iff_of_nodup h.nodup hdistinct.nodup).2
      fun a => (h.mem a).trans (hdistinct.mem a).symm
    exact hperm.eq_of_pairwise (fun a b _ _ hab hba => absurd hab hba.asymm) h.order
      hdistinct.order
  · rintro rfl
    exact firstUses_distinct xs

end Text

/-- What a caller asks of a run before it starts: one more tag rule, or a new handler, which has no
rules of its own. -/
inductive Setting where
  | tags (rule : TagRule)
  | handler

def Setting.rule? : Setting → Option TagRule
  | .tags rule => some rule
  | .handler => none

theorem PathHandler.foldl_add (h : PathHandler) (rs : List TagRule) :
    rs.foldl add h = ⟨h.rules ++ rs⟩ := by
  induction rs generalizing h with
  | nil => simp
  | cons r rs ih => rw [List.foldl_cons, ih, add, List.append_assoc, List.singleton_append]

namespace Generator

variable {g : Generator}

def set (g : Generator) : Setting → Generator
  | .tags rule => g.addTags rule
  | .handler => g.withHandler {}

/-- The run with these rules in its handler, and remembered. -/
def withRules (g : Generator) (rules : List TagRule) : Generator :=
  { g with handler := ⟨rules⟩, rules }

theorem set_withRules (g : Generator) (rules : List TagRule) (s : Setting) :
    (g.withRules rules).set s = g.withRules (rules ++ s.rule?.toList) := by
  cases s with
  | tags rule => rfl
  | handler =>
    rw [set, withHandler, PathHandler.foldl_add]
    simp [withRules, Setting.rule?]

theorem foldl_set_withRules (g : Generator) (rules : List TagRule) (settings : List Setting) :
    settings.foldl set (g.withRules rules) =
      g.withRules (rules ++ settings.filterMap Setting.rule?) := by
  induction settings generalizing rules with
  | nil => rw [List.foldl_nil, List.filterMap_nil, List.append_nil]
  | cons s settings ih =>
    rw [List.foldl_cons, set_withRules, ih, List.append_assoc]
    cases s <;> rfl

theorem addAllTags_withRules (g : Generator) (rules added : List TagRule) :
    (g.withRules rules).addAllTags added = g.withRules (rules ++ added) := by
  have hset := foldl_set_withRules g rules (added.map .tags)
  have hadded : (added.map Setting.tags).filterMap Setting.rule? = added := by
    simp [List.filterMap_map, Function.comp_def, Setting.rule?]
  rwa [List.foldl_map, hadded] at hset

theorem eq_withRules_of_ofNames {c : Context} {names : List String} {config : Config}
    (h : ofNames c names config = .ok g) : g = g.withRules (config.tags.map config.tagRule) := by
  obtain ⟨modules, -, h⟩ := bind_eq_ok.1 h
  dsimp only at h
  split at h
  · cases h
  · have hall : addAllTags { context := c, modules, config } (config.tags.map config.tagRule) = _ :=
      addAllTags_withRules { context := c, modules, config } [] _
    obtain rfl := pure_eq_ok.1 h
    rw [hall]
    rfl

theorem tags_result (g : Generator) (p : String) (m : Method) :
    Option.Rel (fun o s => Text.FirstUses (g.handler.rules.flatMap fun r => r.tags s) o.tags)
      (g.result.paths.operation? p m) (g.segmentFor? p m) := by
  have hstamp := g.stamp_result p m
  cases ho : g.result.paths.operation? p m <;> cases hs : g.segmentFor? p m <;>
    rw [ho, hs] at hstamp
  case none.none => exact .none
  case some.some o s =>
    have htags := congrArg Operation.Stamp.tags (Option.some.inj hstamp)
    exact .some (Text.firstUses_iff.2 htags)
  all_goals cases hstamp

theorem declared_result (g : Generator) :
    Text.FirstUses (g.result.operations.flatMap Operation.tags) (g.result.tags.map Tag.name) := by
  have hnames : g.result.tags.map Tag.name =
      Text.distinct (g.result.operations.flatMap Operation.tags) :=
    (List.map_map ..).trans (List.map_id _)
  exact Text.firstUses_iff.2 hnames

/-- Whatever a caller sets and in whatever order, the handler has the rules of the configuration and
those that were added, each where it was added. They make the tags of an operation, and the tags of
all operations are declared. -/
theorem tags_exact {c : Context} {names : List String} {config : Config}
    (hg : ofNames c names config = .ok g) (settings : List Setting) :
    let rules := config.tags.map config.tagRule ++ settings.filterMap Setting.rule?
    (settings.foldl set g).handler.rules = rules ∧
      (config.fault? = none → ∃ d ws, (settings.foldl set g).generate = .ok (d, ws) ∧
        (∀ p m, Option.Rel (fun o s => Text.FirstUses (rules.flatMap fun r => r.tags s) o.tags)
          (d.paths.operation? p m) (g.segmentFor? p m)) ∧
        Text.FirstUses (d.operations.flatMap Operation.tags) (d.tags.map Tag.name)) := by
  intro rules
  have hset : settings.foldl set g = g.withRules rules := by
    rw [eq_withRules_of_ofNames hg, foldl_set_withRules]
    rfl
  obtain ⟨-, rfl, -⟩ := ofNames_fields hg
  rw [hset]
  refine ⟨rfl, fun hvalid => ?_⟩
  set g' := g.withRules rules
  obtain ⟨ws, hws⟩ := generate_of_valid (g := g') hvalid
  exact ⟨g'.result, ws, hws, g'.tags_result, g'.declared_result⟩

theorem tags_exact_shop :
    let settings : List Setting :=
      [.handler, .tags .module, .handler, .tags (.ofDepth 1), .tags (.ofDepth 2)]
    ∃ c g d ws o, Context.resolve shop = .ok c ∧
      ofNames c ["shop"] { tags := [.segment] } = .ok g ∧
      (settings.foldl set g).generate = .ok (d, ws) ∧
      d.paths.operation? "/data/shop:order=\x7bid\x7d/change" .put = some o ∧
      o.tags = ["order", "shop", "order.change"] ∧ o.tags ⊆ d.tags.map Tag.name := by
  intro settings
  obtain ⟨c, g, hresolve, hg⟩ := exists_run_shop { tags := [.segment] }
  obtain ⟨s, hs, hnames, howner⟩ : ∃ s,
      g.segmentFor? "/data/shop:order=\x7bid\x7d/change" .put = some s ∧
        s.names = ["order", "change"] ∧ s.owner = "shop" := by
    cases hresolve
    cases hg
    exact ⟨_, rfl, rfl, rfl⟩
  obtain ⟨-, hdocument⟩ := tags_exact hg settings
  obtain ⟨d, ws, hgenerate, htags, hdeclared⟩ := hdocument (Config.fault?_of_choices ..)
  obtain ⟨o, ho, huses⟩ : ∃ o,
      d.paths.operation? "/data/shop:order=\x7bid\x7d/change" .put = some o ∧
        Text.FirstUses ([TagRule.ofDepth 1, .module, .ofDepth 1, .ofDepth 2].flatMap
          fun r => r.tags s) o.tags := by
    have hrel := htags "/data/shop:order=\x7bid\x7d/change" .put
    rw [hs] at hrel
    generalize d.paths.operation? _ _ = o? at hrel ⊢
    cases hrel with
    | some huses => exact ⟨_, rfl, huses⟩
  have hown : o.tags = ["order", "shop", "order.change"] := by
    rw [Text.firstUses_iff.1 huses]
    simp [TagRule.ofDepth, TagRule.module, hnames, howner, Text.distinct, Text.pushNew]
  refine ⟨c, g, d, ws, o, hresolve, hg, hgenerate, ho, hown, fun t ht => (hdeclared.mem t).2 ?_⟩
  exact List.mem_flatMap.2 ⟨o, Document.mem_operations.2 ⟨_, _, ho⟩, ht⟩

end Generator

end YangApi
