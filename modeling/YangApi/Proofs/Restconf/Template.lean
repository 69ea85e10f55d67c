import YangApi.Proofs.Restconf.Layout
import YangApi.Proofs.Restconf.Outline

/-! Paths and their parameters. The placeholders of a path are read off its text, from each opening
brace to the next closing one; they are the path parameters of all operations on the path. -/

namespace YangApi

namespace Restconf

/-- The placeholders of a text, outside of braces or inside of them, behind what was read since the
opening one. -/
def placeholdersFrom : Option (List Char) → List Char → List String
  | _, [] => []
  | none, c :: cs => placeholdersFrom (if c = '\x7b' then some [] else none) cs
  | some read, c :: cs =>
    if c = '\x7d' then String.ofList read :: placeholdersFrom none cs
    else placeholdersFrom (some (read ++ [c])) cs

def placeholders (s : String) : List String := placeholdersFrom none s.toList

def braces : List Char := ['\x7b', '\x7d']

/-- A text has these placeholders, whatever stands behind it. -/
def Shows (s : String) (params : List String) : Prop :=
  ∀ rest, placeholdersFrom none (s.toList ++ rest) = params ++ placeholdersFrom none rest

namespace Shows

variable {s t : String} {params params' : List String}

theorem placeholders_eq (h : Shows s params) : placeholders s = params := by
  have hall := h []
  simpa [placeholders, placeholdersFrom] using hall

theorem plain (h : '\x7b' ∉ s.toList) : Shows s [] := by
  intro rest
  generalize s.toList = cs at h
  induction cs with
  | nil => rfl
  | cons c cs ih =>
    rw [List.mem_cons, not_or] at h
    rw [List.cons_append, placeholdersFrom, if_neg (Ne.symm h.1)]
    exact ih h.2

theorem of_without (h : Text.Without braces s) : Shows s [] := plain (h '\x7b' (by decide))

theorem placeholder {param : String} (h : '\x7d' ∉ param.toList) :
    Shows (placeholder param) [param] := by
  have hclose : ∀ (cs read rest : List Char), '\x7d' ∉ cs →
      placeholdersFrom (some read) (cs ++ '\x7d' :: rest) =
        String.ofList (read ++ cs) :: placeholdersFrom none rest := by
    intro cs
    induction cs with
    | nil => simp [placeholdersFrom]
    | cons c cs ih =>
      intro read rest hcs
      rw [List.mem_cons, not_or] at hcs
      rw [List.cons_append, placeholdersFrom, if_neg (Ne.symm hcs.1), ih _ _ hcs.2]
      simp
  intro rest
  have hstep := hclose param.toList [] rest h
  simpa [Restconf.placeholder, placeholdersFrom] using hstep

theorem append (hs : Shows s params) (ht : Shows t params') :
    Shows (s ++ t) (params ++ params') := by
  intro rest
  rw [String.toList_append, List.append_assoc, hs, ht, List.append_assoc]

/-- Separators have no part in what a line of texts shows. -/
theorem intercalate (hs : Shows s []) {texts : List String} {shown : List (List String)}
    (h : List.Forall₂ Shows texts shown) : Shows (s.intercalate texts) shown.flatten := by
  induction h with
  | nil => exact plain (by simp)
  | cons hfirst hrest ih =>
    cases hrest with
    | nil => simpa using hfirst
    | cons _ _ =>
      rw [String.intercalate_cons_cons, List.flatten_cons]
      simpa using (hfirst.append hs).append ih

end Shows

theorem shows_part {above : Option String} {l : Level} (h : l.Without braces) :
    Shows (part above l) l.params := by
  have hname : Shows (if above = some l.owner then l.name else l.owner ++ ":" ++ l.name) [] := by
    split
    · exact .of_without h.name
    · exact .of_without ((h.owner.append (by decide)).append h.name)
  have hparams : Shows (",".intercalate (l.params.map placeholder)) l.params := by
    have hall : List.Forall₂ Shows (l.params.map placeholder) (l.params.map fun p => [p]) := by
      rw [List.forall₂_map_left_iff, List.forall₂_map_right_iff, List.forall₂_same]
      exact fun p hp => .placeholder (h.params p hp '\x7d' (by decide))
    simpa [← List.flatMap_def] using Shows.intercalate (.plain (by decide)) hall
  unfold part
  dsimp only
  split
  · next hempty =>
    rw [List.isEmpty_iff.1 hempty]
    exact hname
  · exact (hname.append (.plain (by decide))).append hparams

theorem shows_parts {above : Option String} {ls : List Level} (h : ∀ l ∈ ls, l.Without braces) :
    List.Forall₂ Shows (parts above ls) (ls.map Level.params) := by
  induction ls generalizing above with
  | nil => exact .nil
  | cons l ls ih =>
    rw [List.forall_mem_cons] at h
    exact .cons (shows_part h.1) (ih h.2)

/-- The placeholders of a data path are the parameters of its segment, in order. -/
theorem placeholders_dataPath {s : Segment} (h : ∀ l ∈ s.levels, l.Without braces) :
    placeholders (dataPath s) = s.params := by
  have hparts : Shows ("/".intercalate (parts none s.levels)) s.params :=
    Shows.intercalate (.plain (by decide)) (shows_parts h)
  exact (Shows.append (.plain (by decide)) hparts).placeholders_eq

example : placeholders "/data/shop:order=\x7bid\x7d/line=\x7bline-id\x7d,\x7bn\x7d" =
    ["id", "line-id", "n"] := by
  decide

theorem placeholders_operationPath {owner name : String} (howner : Text.Without braces owner)
    (hname : Text.Without braces name) : placeholders (operationPath owner name) = [] := by
  have hstart : Text.Without braces "/operations/" := by decide
  have hall : Text.Without braces (operationPath owner name) :=
    ((hstart.append howner).append (by decide)).append hname
  exact (Shows.of_without hall).placeholders_eq

end Restconf

/-- The operation's path parameters are the placeholders of the path, and none stands twice. -/
def Operation.Fits (path : String) (o : Operation) : Prop :=
  o.pathParams.Nodup ∧ Restconf.placeholders path = o.pathParams

def Table.Fits (paths : Table PathItem) : Prop :=
  ∀ path i, paths.get? path = some i → ∀ m o, i.get? m = some o → o.Fits path

def Visit.Templated (moduleName : String) : Visit → Prop
  | .path _ s => s.params.Nodup ∧ Restconf.placeholders (Restconf.dataPath s) = s.params
  | .define _ => True
  | .rpc r s => s.params.Nodup ∧
    Restconf.placeholders (Restconf.operationPath (r.ownerIn moduleName) r.name) = s.params

theorem Visit.Templated.fits {rules : List TagRule} {nameOf : Resolved → String} {p : String}
    {m : Method} {moduleName : String} {v : Visit} {o : Operation} (hv : v.Templated moduleName)
    (h : v.written? rules nameOf p m moduleName = some o) : o.Fits p := by
  cases v with
  | define i => cases h
  | path i s =>
    obtain ⟨rfl, hset⟩ := Option.ite_none_right_eq_some.1 h
    rw [Operation.Fits, Restconf.pathParams_setData _ _ hset]
    exact hv
  | rpc r s =>
    obtain ⟨⟨rfl, -⟩, hset⟩ := Option.ite_none_right_eq_some.1 h
    obtain rfl := Option.some.inj hset
    rw [Operation.Fits, Restconf.pathParams_invoke]
    exact hv

theorem Document.fits_of_outline_eq {d d' : Document} (h : d.paths.Fits)
    (heq : d'.outline = d.outline) : d'.paths.Fits := by
  intro path i' hi' m o' ho'
  obtain ⟨i, hi, hitem⟩ := exists_of_mem_outline (heq ▸ mem_outline hi')
  have hmem : (m, o'.outline) ∈ i.outline := by
    rw [hitem]
    exact PathItem.mem_outline.2 ⟨o', ho', rfl⟩
  obtain ⟨o, ho, houtline⟩ := PathItem.mem_outline.1 hmem
  have hfits := h path i hi m o ho
  rwa [Operation.Fits, Operation.pathParams_eq, ← houtline, ← Operation.pathParams_eq]

theorem Module.templated_of_mem_visits {m : Module Resolved} (hm : m.NamedWithout Restconf.braces)
    (hrpcs : ∀ r ∈ m.rpcs, Text.Without Restconf.braces r.name) {selected : List String}
    {elements : List ElementKind} {v : Visit} (hv : v ∈ m.visits selected elements) :
    v.Templated m.name := by
  by_cases hcall : v.isCall
  · rcases visit_of_isCall hv hcall with ⟨p, hp, rfl⟩ | ⟨r, hr, rfl⟩
    · exact ⟨Segment.nodup_params _ _,
        Restconf.placeholders_dataPath (hm.segment (by decide) hp)⟩
    · exact ⟨List.nodup_nil, Restconf.placeholders_operationPath (hm.rpcs r hr) (hrpcs r hr)⟩
  · cases v with
    | define i => trivial
    | path | rpc => exact absurd rfl hcall

namespace Generator

theorem fits_draft {g : Generator} (h : ∀ m ∈ g.modules, m.NamedWithout Restconf.braces ∧
    ∀ r ∈ m.rpcs, Text.Without Restconf.braces r.name) : g.draft.document.paths.Fits := by
  intro path i hi method o ho
  obtain ⟨v, hv, hwritten⟩ := exists_writtenBy (Option.bind_eq_some_iff.2 ⟨i, hi, ho⟩)
  obtain ⟨m, hm, hname, hvisit⟩ := mem_visits.1 hv
  have htemplated : v.2.Templated v.1 :=
    hname ▸ Module.templated_of_mem_visits (h m hm).1 (h m hm).2 hvisit
  exact htemplated.fits hwritten

/-- On a chain, each key has a parameter of its own and named for it. Hence, from names without
braces, the path parameters of every operation are distinct, and they are the placeholders of the
path that it is stored under, in order. -/
theorem placeholders_exact :
    (∀ (root : String) (ps : List Segment.Push),
      ((Segment.ofModule root).pushAll ps).params.Nodup ∧
        List.Forall₂ Segment.NamedFor (Segment.Push.entries ps)
          ((Segment.ofModule root).pushAll ps).params) ∧
      ∀ (g : Generator) (d : Document) (ws : List Warning),
        (∀ m ∈ g.modules, m.NamedWithout Restconf.braces ∧
          ∀ r ∈ m.rpcs, Text.Without Restconf.braces r.name) →
        g.generate = .ok (d, ws) → d.paths.Fits := by
  refine ⟨fun root ps => ⟨Segment.nodup_params root ps, Segment.namedFor_params root ps⟩, ?_⟩
  intro g d ws hnames hgenerate
  obtain rfl := result_of_generate hgenerate
  exact Document.fits_of_outline_eq (fits_draft hnames) g.outline_result

theorem placeholders_exact_shop : ∃ c g d ws, Context.resolve shop = .ok c ∧
    ofNames c ["shop"] {} = .ok g ∧ g.generate = .ok (d, ws) ∧ d.paths.Fits := by
  obtain ⟨c, g, hresolve, hg⟩ := exists_run_shop {}
  have hnames : ∀ m ∈ g.modules, m.NamedWithout Restconf.braces ∧
      ∀ r ∈ m.rpcs, Text.Without Restconf.braces r.name := by
    cases hresolve
    cases hg
    decide
  obtain ⟨ws, hws⟩ := generate_of_ofNames hg (Config.fault?_of_choices ..)
  exact ⟨c, g, g.result, ws, hresolve, hg, hws, placeholders_exact.2 g g.result ws hnames hws⟩

end Generator

end YangApi
