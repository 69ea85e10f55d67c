import Mathlib.Data.List.Find
import YangApi.Proofs.Restconf.Items
import YangApi.Proofs.SingleLevel
import YangApi.Proofs.Substring

/-! What operations call the definition that they return. References to aliases are exchanged by
name, but texts by search: in a text the first alias that occurs anywhere is exchanged, wherever it
occurs. The words around a name cannot contain an alias, since names are in camel case, so that a
text follows its reference unless an alias is part of another name. -/

namespace YangApi

open Text

/-- No capital letters and no digits stand in a text. -/
def Text.small (s : String) : Bool := s.toList.all fun c => !c.isAlphanum || c.isLower

theorem IsCamel.misses {n w : String} (hn : IsCamel n) (hne : n ≠ "") (hw : small w) :
    Misses n w := by
  cases hchars : n.toList with
  | nil => exact absurd (String.toList_eq_nil_iff.1 hchars) hne
  | cons a as =>
    have ha : ¬ a.isLower := hn.first a (by rw [hchars]; rfl)
    have halnum : a.isAlphanum := hn.chars a (by rw [hchars]; exact List.mem_cons_self ..)
    refine ⟨a, as, hchars, fun hmem => ?_⟩
    have hsmall := List.all_eq_true.1 hw a hmem
    simp [halnum, ha] at hsmall

namespace AliasMap

variable {a : AliasMap} {n s w : String}

/-- A text in which no alias begins stays in front of another one. -/
theorem retargetText_append (h : ∀ e ∈ a, Misses e.1 w) :
    a.retargetText (w ++ s) = w ++ a.retargetText s := by
  have hfind : a.find? (fun e => occurs e.1 (w ++ s)) = a.find? fun e => occurs e.1 s :=
    List.find?_congr fun e he => (h e he).occurs_append
  unfold retargetText
  rw [hfind]
  cases hfirst : a.find? fun e => occurs e.1 s with
  | none => rfl
  | some e => exact (h e (List.mem_of_find?_eq_some hfirst)).replaceAll_append

/-- If no other alias comes first, a name becomes what it stands for. -/
theorem retargetText_eq_target
    (h : ∀ e, a.find? (fun e => occurs e.1 n) = some e → e.1 = n) :
    a.retargetText n = a.target n := by
  unfold retargetText target get?
  cases hfirst : a.find? fun e => occurs e.1 n with
  | none =>
    have hnone : a.find? (fun e => e.1 = n) = none := by
      rw [List.find?_eq_none] at hfirst ⊢
      intro e he hname
      exact hfirst e he (by rw [of_decide_eq_true hname]; exact occurs_self n)
    rw [hnone]
    rfl
  | some e =>
    have hname := h e hfirst
    obtain ⟨-, before, after, hsplit, hbefore⟩ := List.find?_eq_some_iff_append.1 hfirst
    have hsame : a.find? (fun e => e.1 = n) = some e := by
      refine List.find?_eq_some_iff_append.2 ⟨by simpa using hname, before, after, hsplit, ?_⟩
      intro e' he'
      have hmiss := hbefore e' he'
      rw [Bool.not_eq_true', decide_eq_false_iff_not]
      rintro rfl
      simp [occurs_self] at hmiss
    rw [hsame]
    obtain ⟨old, new⟩ := e
    obtain rfl : old = n := hname
    exact replaceAll_self old new

theorem renameIn_self (a : AliasMap) (n : String) : a.renameIn n n = a.target n := by
  unfold renameIn target
  cases a.get? n with
  | none => rfl
  | some new => exact replaceAll_self n new

theorem renameIn_self_append (h : n ∈ a.names → Misses n w) :
    a.renameIn n (n ++ w) = a.target n ++ w := by
  unfold renameIn target
  cases hget : a.get? n with
  | none => rfl
  | some new =>
    have hname : n ∈ a.names := by
      by_contra hn
      rw [get?_eq_none_iff.2 hn] at hget
      cases hget
    exact (h hname).replaceAll_self_append

/-- All aliases are names in camel case, and none is empty. -/
def Proper (a : AliasMap) : Prop := ∀ k ∈ a.names, IsCamel k ∧ k ≠ ""

theorem Proper.misses (ha : a.Proper) (hw : small w) {k : String} (hk : k ∈ a.names) :
    Misses k w :=
  (ha k hk).1.misses (ha k hk).2 hw

end AliasMap

theorem Method.small_phrase (m : Method) : small m.phrase := by
  cases m <;> decide

namespace Operation

variable {o : Operation} {m : Method} {a : AliasMap} {n : String}

theorem retarget_body (ha : a.Proper) {w : String} (hw : small w) :
    BodyParam.retarget a ⟨"body", some (n ++ w), true, .ref n⟩ =
      ⟨"body", some (a.target n ++ w), true, .ref (a.target n)⟩ := by
  have htext : a.renameIn n (n ++ w) = a.target n ++ w :=
    AliasMap.renameIn_self_append fun hn => ha.misses hw hn
  rw [← htext]
  rfl

theorem retarget_returning (a : AliasMap) (n : String) :
    (Restconf.returning n n).retarget a = Restconf.returning (a.target n) (a.target n) := by
  have htext : (Restconf.returning n n).retarget a =
      Restconf.returning (a.renameIn n n) (a.target n) := rfl
  rw [htext, AliasMap.renameIn_self]

theorem Carries.retarget (h : o.Carries n m) (ha : a.Proper) :
    (o.retarget a).Carries (a.target n) m := by
  cases m with
  | get =>
    have hresponse : o.responses.get? "200" = _ := h
    rw [Carries, get?_responses_retarget, hresponse, Option.map_some, retarget_returning]
  | put | post =>
    have hbody : o.body? = _ := h
    rw [Carries, body?_retarget, hbody, Option.map_some, retarget_body ha (by decide)]
  | delete => trivial
  | patch => exact h

theorem Describes.retarget (h : o.Describes n n m) (ha : a.Proper) :
    (o.retarget a).Describes (a.target n) (a.retargetText n) m where
  itself := by
    have hmisses : ∀ e ∈ a, Misses e.1 m.phrase := fun e he =>
      ha.misses m.small_phrase (List.mem_map_of_mem he)
    rw [Operation.retarget, h.itself, Option.map_some, AliasMap.retargetText_append hmisses]
  content := h.content.retarget ha

/-- The operation describes what the definition `n` stands for. Where it describes itself it has what
becomes of the name `n` as a text, which is the same unless another alias is found there first. -/
structure DescribesFor (a : AliasMap) (n : String) (o : Operation) (m : Method) : Prop where
  describes : o.Describes (a.target n) (a.retargetText n) m
  agrees : (∀ e, a.find? (fun e => occurs e.1 n) = some e → e.1 = n) →
    o.Describes (a.target n) (a.target n) m

theorem Describes.retarget_for (h : o.Describes n n m) (ha : a.Proper) :
    (o.retarget a).DescribesFor a n m where
  describes := h.retarget ha
  agrees hfirst := AliasMap.retargetText_eq_target hfirst ▸ h.retarget ha

end Operation

theorem Document.exists_of_mem_aliases {t : Table Model} {chains : Bool} {k : String}
    (h : k ∈ (aliases chains t).names) : ∃ x, t.get? k = some x := by
  rw [names_aliases] at h
  by_contra hnone
  refine AliasMap.notMem_names_of_aliasTarget? ?_ h
  rw [Option.eq_none_iff_forall_ne_some.2 fun x hx => hnone ⟨x, hx⟩]
  rfl

namespace Generator

variable {g : Generator} {i : Interior} {p : String}

/-- Definitions have names in camel case, and so do aliases, which were definitions. -/
theorem proper_aliases (h : "" ∉ g.aliases.names) : g.aliases.Proper := by
  intro k hk
  obtain ⟨x, hx⟩ := Document.exists_of_mem_aliases hk
  rw [← Document.definition?_eq] at hx
  obtain ⟨s, -, hkey, -⟩ := written_draft (Site.Closed.all g.context) (fun _ _ => trivial) hx
  exact ⟨g.camel_draft s.key k hkey, fun hempty => h (hempty ▸ hk)⟩

/-- Operation texts name what they return, as long as no alias is without a name. On a data path every
operation describes what the definition of a container or list with this path stands for, and all of
them describe the same if those with the path are alike. -/
theorem operations_describe (hvalid : g.config.fault? = none) (hi : g.Writes p i)
    (hempty : "" ∉ g.aliases.names) : ∃ d ws item, g.generate = .ok (d, ws) ∧
      d.paths.get? p = some item ∧
      (item.Offers fun o m => ∃ j, g.Writes p j ∧ o.DescribesFor g.aliases (g.modelName j.head) m) ∧
      (g.Alike p → ∃ j, g.Writes p j ∧
        item.Offers (Operation.DescribesFor g.aliases (g.modelName j.head))) := by
  have hproper := proper_aliases hempty
  obtain ⟨ws, hws⟩ := generate_of_valid hvalid
  obtain ⟨item, hitem, hoffers⟩ := offers_draft hi
  refine ⟨g.result, ws, item.map (Operation.retarget g.aliases), hws, ?_, ?_, fun halike => ?_⟩
  · rw [get?_paths_result, hitem]
    rfl
  · exact hoffers.map fun o m ⟨j, hj, hdescribes⟩ => ⟨j, hj, hdescribes.retarget_for hproper⟩
  · obtain ⟨j, hj, hsame⟩ := offers_draft_of_alike hi halike hitem
    exact ⟨j, hj, hsame.map fun o m hdescribes => hdescribes.retarget_for hproper⟩

theorem operations_describe_relay : ∃ c g i, Context.resolve relay = .ok c ∧
    ofNames c ["net"] {} = .ok g ∧ g.Writes "/data/net:top" i ∧ "" ∉ g.aliases.names ∧
    ∃ d ws item, g.generate = .ok (d, ws) ∧ d.paths.get? "/data/net:top" = some item ∧
      item.Offers (Operation.Describes "Wrapper" "Wrapper") := by
  obtain ⟨c, g, hresolve, hg⟩ := exists_run_relay {}
  obtain ⟨i, hi⟩ : ∃ i, g.Writes "/data/net:top" i := by
    cases hresolve
    cases hg
    exact ⟨_, _, ⟨_, List.mem_cons_self ..⟩, by decide⟩
  have hvalid : g.config.fault? = none :=
    (ofNames_fields hg).2.1 ▸ Config.fault?_of_choices ..
  have hdefined : ∀ e ∈ g.draft.document.table.entries, e.1 ∈ ["Base", "Wrapper", "Top"] := by
    cases hresolve
    cases hg
    decide +kernel
  have haliases : ∀ k ∈ g.aliases.names, k ∈ ["Base", "Wrapper", "Top"] := by
    intro k hk
    obtain ⟨x, hx⟩ := Document.exists_of_mem_aliases hk
    exact hdefined (k, x) (Table.get?_eq_some_iff.1 hx)
  have hempty : "" ∉ g.aliases.names := fun h => absurd (haliases _ h) (by decide)
  have hnames : ∀ j ∈ c.interiors, g.modelName j.head = "Top" := by
    cases hresolve
    cases hg
    decide +kernel
  have hname : ∀ j, g.Writes "/data/net:top" j → g.modelName j.head = "Top" := by
    intro j hj
    obtain ⟨-, -, hmodules⟩ := ofNames_fields hg
    have hdata : j ∈ g.dataInteriors := List.mem_flatMap.2 hj.visited.mem_dataInteriors
    exact hnames j (mem_interiors_of_mem_dataInteriors hmodules hdata)
  have halike : g.Alike "/data/net:top" := fun j s k t hj hk =>
    .inl ((hname j ⟨s, hj⟩).trans (hname k ⟨t, hk⟩).symm)
  obtain ⟨d, ws, item, hws, hitem, -, hdescribes⟩ := operations_describe hvalid hi hempty
  obtain ⟨j, hj, hoffers⟩ := hdescribes halike
  rw [hname j hj] at hoffers
  have htarget : g.aliases.target "Top" = "Wrapper" := by
    have hmodel : (g.draft.document.table.get? "Top").bind Model.aliasTarget? = some "Wrapper" := by
      cases hresolve
      cases hg
      decide +kernel
    have hsingle : g.config.collapseAliasChains = false := by rw [(ofNames_fields hg).2.1]
    exact target_aliases_of_step hsingle (AliasMap.step_of_aliasTarget? hmodel (by decide))
  have hfirst : ∀ e, g.aliases.find? (fun e => occurs e.1 "Top") = some e → e.1 = "Top" := by
    have honly : ∀ k ∈ ["Base", "Wrapper", "Top"], occurs k "Top" → k = "Top" := by decide
    intro e he
    exact honly e.1 (haliases e.1 (List.mem_map_of_mem (List.mem_of_find?_eq_some he)))
      (List.find?_some (p := fun e : String × String => occurs e.1 "Top") he)
  refine ⟨c, g, i, hresolve, hg, hi, hempty, d, ws, item, hws, hitem, hoffers.read, ?_⟩
  intro m o ho
  exact htarget ▸ (hoffers.operations m o ho).agrees hfirst

end Generator

/-- All operations on the path `p` describe the definition that its data is returned with. -/
def Document.NamesReturned (d : Document) (p : String) : Prop :=
  ∀ read definition, d.paths.operation? p .get = some read → read.RefersTo definition .get →
    ∀ m o, d.paths.operation? p m = some o → o.Describes definition definition m

theorem Document.not_namesReturned {d : Document} {p : String} (m : Method)
    (definition text : String)
    (h : ((d.paths.operation? p .get).bind fun o => (o.responses.get? "200").bind Response.schema) =
        some (.ref definition none) ∧
      (d.paths.operation? p m).bind Operation.description = some text)
    (hne : text ≠ m.phrase ++ definition) : ¬ d.NamesReturned p := by
  intro hnames
  obtain ⟨read, hread, hschema⟩ := Option.bind_eq_some_iff.1 h.1
  obtain ⟨o, ho, hdescription⟩ := Option.bind_eq_some_iff.1 h.2
  have hitself := (hnames read definition hread hschema m o ho).itself
  exact hne (Option.some.inj (hdescription.symm.trans hitself))

/-- The port stands for the unit it uses, and its name begins the name of another container. The slot
is there twice, once for reading only, which is how the unit has it. -/
def rack : List (Module Declared) :=
  let head (name : String) (origin : Option String) : Declared := ⟨name, none, none, none, origin⟩
  let text (name : String) (origin : Option String) : Node Declared :=
    .leaf (head name origin) .string false none
  [{ name := "net", xmlNamespace := none, abbreviation := none, revision := none
     description := none
     children := [.inner (head "port" none) (.container false) ["unit"] [text "label" (some "unit")],
       .inner (head "port-state" none) (.container false) [] [text "up" none],
       .inner (head "slot" none) (.container false) [] [text "up" none],
       .inner { head "slot" (some "unit") with config := some false } (.list []) []
         [text "label" none]]
     rpcs := []
     groupings := [⟨"unit", none, [text "label" none,
       .inner (head "slot" none) (.container false) [] [text "label" none]], []⟩] }]

/-- A container whose name has no letters stands for the unit it uses. -/
def blank : List (Module Declared) :=
  let text (origin : Option String) : Node Declared :=
    .leaf ⟨"label", none, none, none, origin⟩ .string false none
  [{ name := "net", xmlNamespace := none, abbreviation := none, revision := none
     description := none
     children := [.inner ⟨"_", none, none, none, none⟩ (.container false) ["unit"]
       [text (some "unit")]]
     rpcs := []
     groupings := [⟨"unit", none, [text none], []⟩] }]

/-- Texts may go wrong: reading the state of a port returns `PortState` and says "returns UnitState",
reading the slot returns `Slot` where writing takes `NetSlot`, and an alias without a name is found in
all texts. -/
theorem misnamed_rack : (∃ c g d ws, Context.resolve rack = .ok c ∧
    Generator.ofNames c ["net"] {} = .ok g ∧ g.generate = .ok (d, ws) ∧
    ¬ d.NamesReturned "/data/net:port-state" ∧ ¬ d.NamesReturned "/data/net:slot") ∧
    ∃ c g d ws, Context.resolve blank = .ok c ∧ Generator.ofNames c ["net"] {} = .ok g ∧
      g.generate = .ok (d, ws) ∧ ¬ d.NamesReturned "/data/net:_" := by
  constructor
  · obtain ⟨c, g, hresolve, hg⟩ : ∃ c g, Context.resolve rack = .ok c ∧
        Generator.ofNames c ["net"] {} = .ok g := ⟨_, _, rfl, rfl⟩
    obtain ⟨ws, hws⟩ := Generator.generate_of_ofNames hg (Config.fault?_of_choices ..)
    have hpart : ¬ g.result.NamesReturned "/data/net:port-state" := by
      refine Document.not_namesReturned .get "PortState" "returns UnitState" ?_ (by decide)
      cases hresolve
      cases hg
      decide +kernel
    have htwice : ¬ g.result.NamesReturned "/data/net:slot" := by
      refine Document.not_namesReturned .put "Slot" "creates or updates NetSlot" ?_ (by decide)
      cases hresolve
      cases hg
      decide +kernel
    exact ⟨c, g, g.result, ws, hresolve, hg, hws, hpart, htwice⟩
  · obtain ⟨c, g, hresolve, hg⟩ : ∃ c g, Context.resolve blank = .ok c ∧
        Generator.ofNames c ["net"] {} = .ok g := ⟨_, _, rfl, rfl⟩
    obtain ⟨ws, hws⟩ := Generator.generate_of_ofNames hg (Config.fault?_of_choices ..)
    have hnameless : ¬ g.result.NamesReturned "/data/net:_" := by
      refine Document.not_namesReturned .get "Unit" "UnitrUniteUnittUnituUnitrUnitnUnitsUnit Unit" ?_
        (by decide)
      cases hresolve
      cases hg
      decide +kernel
    exact ⟨c, g, g.result, ws, hresolve, hg, hws, hnameless⟩

end YangApi
