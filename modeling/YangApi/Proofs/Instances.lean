import Mathlib.Data.List.TakeWhile
import YangApi.Proofs.Definitions.Addition
import YangApi.Proofs.Priming

/-! Instances of a grouping. What a grouping holds and what was copied from it have one definition
path, at every depth, however references and choices are written on either side. So they have one
name when groupings are shared, and are defined once. -/

namespace YangApi

open Draft

namespace Node

/-- The containers and lists of a level that neither were copied nor stand in a choice that was. -/
def unmarked (ns : List (Node Resolved)) : List Interior :=
  (kept true (flattenAll false ns)).filterMap interior?

variable {ns : List (Node Resolved)} {i : Interior}

theorem kept_flatMap {α : Type} (ownOnly : Bool) (l : List α)
    (f : α → List (Node Resolved × Bool)) :
    kept ownOnly (l.flatMap f) = l.flatMap fun a => kept ownOnly (f a) := by
  simp only [kept, List.filter_flatMap, List.map_flatMap]

theorem kept_flattenAll_true (ns : List (Node Resolved)) : kept true (flattenAll true ns) = [] := by
  induction ns using Node.levels with
  | nil => rfl
  | cons n ns ihn ihns => rw [flattenAll_cons, kept_append, ihn, ihns, List.append_nil]
  | choice r ks ih =>
    rw [flattenAll_singleton, flatten, flattenCases_eq, kept_flatMap, Bool.true_or,
      List.flatMap_eq_nil_iff]
    exact ih
  | inner | leaf | leafList | anyxml => rfl

theorem unmarked_cons (n : Node Resolved) (ns : List (Node Resolved)) :
    unmarked (n :: ns) = unmarked [n] ++ unmarked ns := by
  rw [unmarked, flattenAll_cons, kept_append, List.filterMap_append]
  rfl

theorem mem_unmarked_inner {r : Resolved} {shape : Shape} {uses : List String}
    {cs : List (Node Resolved)} : i ∈ unmarked [.inner r shape uses cs] ↔
      r.grouping = none ∧ i = ⟨r, shape, uses, cs⟩ := by
  cases h : r.grouping <;> simp [unmarked, kept, flatten, head, interior?, h]

theorem mem_unmarked_choice {r : Resolved} {ks : Cases Resolved} :
    i ∈ unmarked [.choice r ks] ↔ r.grouping = none ∧ ∃ k ∈ ks, i ∈ unmarked k.2 := by
  have hchoice : unmarked [.choice r ks] = ks.flatMap fun k =>
      (kept true (flattenAll r.grouping.isSome k.2)).filterMap interior? := by
    rw [unmarked, flattenAll_singleton, flatten, flattenCases_eq, kept_flatMap,
      List.filterMap_flatMap, Bool.false_or]
  rw [hchoice]
  cases r.grouping with
  | none => simp [unmarked]
  | some mark => simp [kept_flattenAll_true]

theorem unmarked_subset (ns : List (Node Resolved)) : unmarked ns ⊆ interiors ns := by
  intro i hi
  obtain ⟨n, hn, hi⟩ := List.mem_filterMap.1 hi
  obtain ⟨e, he, rfl⟩ := List.mem_map.1 hn
  exact mem_interiors_of_mem_flat (mem_flat_of_mem_flattenAll (List.mem_filter.1 he).1) hi

end Node

namespace Placed

variable {s : Scope} {ns : List (Node Resolved)} {i : Interior}

theorem exists_resolve (h : Placed s ns) (hi : i ∈ Node.interiors ns) :
    (∃ s' d, i.head = Scope.resolve s' d) ∧ Placed i.head.scope i.children := by
  induction h with
  | nil s => simp [Node.interiors, Node.preorderAll] at hi
  | cons hn hns ihn ihns =>
    rw [Node.interiors_cons, List.mem_append] at hi
    exact hi.elim ihn ihns
  | @inner s cs d shape uses hcs ih =>
    rw [Node.interiors_inner, List.mem_cons] at hi
    rcases hi with rfl | hi
    · exact ⟨⟨s, d, rfl⟩, hcs⟩
    · exact ih hi
  | choice d hks ih =>
    rw [Node.interiors_choice] at hi
    obtain ⟨k, hk, hi⟩ := List.mem_flatMap.1 hi
    exact ih k hk hi
  | leaf | leafList | anyxml => simp [Node.interiors, Node.preorder, Node.interior?] at hi

/-- A mark is read by the owner of the node that carries it. -/
theorem origin_of_marked (h : Placed s ns) (hi : i ∈ Node.interiors ns) {mark : String}
    (hmark : i.head.grouping = some mark) :
    i.head.origin = some ((GroupingRef.read mark i.head.owner).path.child i.head.name) := by
  obtain ⟨⟨s', d, hd⟩, -⟩ := h.exists_resolve hi
  rw [hd] at hmark ⊢
  have hdeclared : d.grouping = some mark := hmark
  simp only [Scope.resolve, hdeclared]

/-- Without a mark, a node goes on where its level stands, whatever choices are around it. -/
theorem origin_of_unmarked (h : Placed s ns) (hi : i ∈ Node.unmarked ns) :
    i.head.origin = s.origin.map (·.child i.head.name) := by
  induction h with
  | nil s => cases hi
  | cons hn hns ihn ihns =>
    rw [Node.unmarked_cons, List.mem_append] at hi
    exact hi.elim ihn ihns
  | inner d shape uses hcs =>
    obtain ⟨hnone, rfl⟩ := Node.mem_unmarked_inner.1 hi
    have hdeclared : d.grouping = none := hnone
    simp only [Scope.resolve, hdeclared]
  | @choice s ks d hks ih =>
    obtain ⟨hnone, k, hk, hi⟩ := Node.mem_unmarked_choice.1 hi
    have hdeclared : d.grouping = none := hnone
    have horigin : ((s.resolve d).choiceScope s).origin = s.origin := by
      simp [Resolved.choiceScope, Scope.resolve, hdeclared, Function.comp_def,
        SchemaPath.parent_child]
    rw [← horigin]
    exact ih k hk hi
  | leaf | leafList | anyxml =>
    have hnone := Node.unmarked_subset _ hi
    simp [Node.interiors, Node.preorder, Node.interior?] at hnone

end Placed

/-- The containers and lists of a module: those of its data, those below the sides of its
procedures, and those of its groupings. The sides are none; no mark makes them copies. -/
def Module.nodes (m : Module Resolved) : List Interior :=
  Node.interiors m.children ++
    (m.rpcs.flatMap fun r => r.sides.flatMap fun s => s.interior.below) ++
      m.groupings.flatMap fun g => Node.interiors g.children

theorem Module.Placed.exists_tree {m : Module Resolved} (h : m.Placed) {i : Interior}
    (hi : i ∈ m.nodes) : ∃ s ns, YangApi.Placed s ns ∧ i ∈ Node.interiors ns ∧
      Node.interiors ns ⊆ m.nodes := by
  rcases List.mem_append.1 hi with hi | hi
  · rcases List.mem_append.1 hi with hi | hi
    · refine ⟨_, _, h.children, hi, fun j hj => ?_⟩
      exact List.mem_append_left _ (List.mem_append_left _ hj)
    · obtain ⟨r, hr, hi⟩ := List.mem_flatMap.1 hi
      obtain ⟨side, hside, hi⟩ := List.mem_flatMap.1 hi
      refine ⟨_, _, (h.sides r hr side hside).2.2, hi, fun j hj => ?_⟩
      refine List.mem_append_left _ (List.mem_append_right _ (List.mem_flatMap.2 ⟨r, hr, ?_⟩))
      exact List.mem_flatMap.2 ⟨side, hside, hj⟩
  · obtain ⟨g, hg, hi⟩ := List.mem_flatMap.1 hi
    refine ⟨_, _, h.groupings g hg, hi, fun j hj => ?_⟩
    exact List.mem_append_right _ (List.mem_flatMap.2 ⟨g, hg, hj⟩)

/-- The name of a grouping is one when nothing in it looks like the name of a module. -/
theorem GroupingRef.read_of_notMem {name : String} (h : ':' ∉ name.toList) (owner : String) :
    read name owner = ⟨owner, name⟩ := by
  have hall : ∀ x ∈ name.toList, decide (x ≠ ':') = true := by
    intro x hx
    exact decide_eq_true fun hcolon => h (hcolon ▸ hx)
  rw [read, List.span_eq_takeWhile_dropWhile, List.dropWhile_eq_nil_iff.2 hall]

namespace Context

variable {ms : List (Module Declared)} {c : Context} {a : GroupingRef} {names : List String}
  {i j : Interior}

def nodes (c : Context) : List Interior := c.modules.flatMap Module.nodes

theorem exists_tree (hplaced : ∀ m ∈ c.modules, m.Placed) (hi : i ∈ c.nodes) :
    ∃ s ns, Placed s ns ∧ i ∈ Node.interiors ns ∧ Node.interiors ns ⊆ c.nodes := by
  obtain ⟨m, hm, hi⟩ := List.mem_flatMap.1 hi
  obtain ⟨s, ns, hs, hi, hsub⟩ := (hplaced m hm).exists_tree hi
  exact ⟨s, ns, hs, hi, fun j hj => List.mem_flatMap.2 ⟨m, hm, hsub hj⟩⟩

/-- What stands for the container or list that a grouping has at the path `names`: what is there
itself, and every copy, marked with a reference to the grouping or inside one that is. The path goes
on with unmarked nodes only and passes over choices. -/
inductive Instance (c : Context) (a : GroupingRef) : List String → Interior → Prop
  | own {g : Grouping Resolved} {i : Interior} (hg : c.groupingAt? a = some g)
      (hi : i ∈ Node.unmarked g.children) : Instance c a [i.head.name] i
  | copy {mark : String} {i : Interior} (hi : i ∈ c.nodes) (hmark : i.head.grouping = some mark)
      (hread : GroupingRef.read mark i.head.owner = a) : Instance c a [i.head.name] i
  | inside {names : List String} {i j : Interior} (hi : Instance c a names i)
      (hj : j ∈ Node.unmarked i.children) : Instance c a (names ++ [j.head.name]) j

/-- No module has a grouping whose name reads like a reference into another module. -/
def PlainGroupings (c : Context) : Prop :=
  ∀ m ∈ c.modules, ∀ g ∈ m.groupings, ':' ∉ g.name.toList

instance (c : Context) : Decidable c.PlainGroupings :=
  inferInstanceAs (Decidable (∀ m ∈ c.modules, ∀ g ∈ m.groupings, _))

namespace Instance

theorem mem_nodes (hplaced : ∀ m ∈ c.modules, m.Placed) (h : c.Instance a names i) :
    i ∈ c.nodes := by
  induction h with
  | own hg hi =>
    obtain ⟨m, hm, -, hg, -⟩ := mem_of_groupingAt? hg
    refine List.mem_flatMap.2 ⟨m, hm, List.mem_append_right _ (List.mem_flatMap.2 ⟨_, hg, ?_⟩)⟩
    exact Node.unmarked_subset _ hi
  | copy hi => exact hi
  | @inside names i j _ hj ih =>
    obtain ⟨s, ns, -, hi, hsub⟩ := exists_tree hplaced ih
    exact hsub (Interior.below_subset hi (Node.unmarked_subset _ hj))

theorem origin_eq (hplaced : ∀ m ∈ c.modules, m.Placed) (hplain : c.PlainGroupings)
    (h : c.Instance a names i) : i.head.origin = some ⟨a.path.names ++ names⟩ := by
  induction h with
  | own hg hi =>
    obtain ⟨m, hm, ho, hmem, hn⟩ := mem_of_groupingAt? hg
    rw [((hplaced m hm).groupings _ hmem).origin_of_unmarked hi, Scope.ofGrouping,
      GroupingRef.read_of_notMem (hplain m hm _ hmem), ho, hn]
    rfl
  | copy hi hmark hread =>
    obtain ⟨s, ns, hs, hi, -⟩ := exists_tree hplaced hi
    rw [hs.origin_of_marked hi hmark, hread]
    rfl
  | @inside names i j hi hj ih =>
    obtain ⟨s, ns, hs, hi', -⟩ := exists_tree hplaced (hi.mem_nodes hplaced)
    have hbelow := (hs.exists_resolve hi').2.origin_of_unmarked hj
    rw [hbelow, Resolved.scope, ih]
    simp [SchemaPath.child]

theorem getLast?_names (h : c.Instance a names i) : names.getLast? = some i.head.name := by
  cases h <;> simp

theorem definitionPath_eq (hplaced : ∀ m ∈ c.modules, m.Placed) (hplain : c.PlainGroupings)
    (h : c.Instance a names i) : i.head.definitionPath = ⟨a.path.names ++ names⟩ := by
  rw [Resolved.definitionPath, h.origin_eq hplaced hplain, Option.getD_some]

end Instance

end Context

namespace Strategy

variable {s : Strategy} {c : Context} {d : Draft}

/-- What is defined stays defined whatever is added. -/
theorem settled_foldl_add {p : SchemaPath} (h : Settled [] d p) (others : List Interior) :
    Settled [] (others.foldl (s.add c) d) p := by
  induction others generalizing d with
  | nil => exact h
  | cons i others ih =>
    obtain ⟨_, hadds, -⟩ := s.exists_adds c d i
    exact ih (h.grow hadds.toGrows)

theorem hasDefinition_of_settled {r : Resolved} (h : Settled [] d (s.key r)) :
    d.document.hasDefinition (s.nameOf d r).2 := by
  obtain ⟨n, hn, hdef⟩ := h
  rw [nameOf_of_within (.refl _) hn]
  exact hdef.resolve_right List.not_mem_nil

end Strategy

/-- Two nodes that stand for the same container or list of a grouping have one definition path, that
of the node in the grouping, and one name, whatever else is asked in between. Once the first is
defined there is nothing to add for the second, and there is one definition for both in a document,
if any. -/
theorem Context.instances_share {ms : List (Module Declared)} {c : Context}
    (hresolve : Context.resolve ms = .ok c) (hplain : c.PlainGroupings) {a : GroupingRef}
    {names : List String} {i j : Interior} (hi : c.Instance a names i) (hj : c.Instance a names j) :
    (i.head.definitionPath = ⟨a.path.names ++ names⟩ ∧
        j.head.definitionPath = i.head.definitionPath) ∧
      (∀ d : Draft, let named := Strategy.shared.nameOf d i.head
        Strategy.shared.nameOf d j.head = named ∧ ∀ requests : List Request,
          (Strategy.shared.nameOf (requests.foldl (Strategy.shared.serve c) named.1) j.head).2 =
            named.2) ∧
      (∀ (d : Draft) (others : List Interior),
        let d' := others.foldl (Strategy.shared.add c) (Strategy.shared.add c d i)
        d'.document.hasDefinition (Strategy.shared.nameOf d' j.head).2 ∧
          Strategy.shared.add c d' j = d') ∧
      ∀ (g : Generator) (d : Document) (ws : List Warning), g.context = c →
        g.config.strategy = .shared → g.generate = .ok (d, ws) →
          g.modelName j.head = g.modelName i.head ∧ ∀ e ∈ d.table.entries, ∀ e' ∈ d.table.entries,
            e.1 = g.modelName i.head → e'.1 = g.modelName j.head → e = e' := by
  have hplaced : ∀ m ∈ c.modules, m.Placed := fun m hm => placed_of_resolve hresolve hm
  have hpathi := hi.definitionPath_eq hplaced hplain
  have hpath : j.head.definitionPath = i.head.definitionPath :=
    (hj.definitionPath_eq hplaced hplain).trans hpathi.symm
  have hlast : j.head.name = i.head.name :=
    Option.some.inj (hj.getLast?_names.symm.trans hi.getLast?_names)
  have hkey : Strategy.shared.key j.head = Strategy.shared.key i.head := hpath
  have hsame : ∀ d : Draft, Strategy.shared.nameOf d j.head = Strategy.shared.nameOf d i.head := by
    intro d
    rw [Strategy.nameOf, Strategy.nameOf, hkey, hlast]
  refine ⟨⟨hpathi, hpath⟩, fun d => ⟨hsame d, fun requests => ?_⟩, fun d others => ?_,
    fun g d ws _ hstrategy _ => ?_⟩
  · rw [hsame]
    exact Strategy.nameOf_foldl_serve _ _ _ _ _
  · obtain ⟨_, -, hadded⟩ := Strategy.shared.exists_adds c d i
    rw [← hkey] at hadded
    have hsettled := Strategy.settled_foldl_add (s := .shared) (c := c) hadded others
    exact ⟨Strategy.hasDefinition_of_settled hsettled, Strategy.add_of_settled hsettled⟩
  · have hname : g.modelName j.head = g.modelName i.head := by
      rw [Generator.modelName, Generator.modelName, hstrategy, hsame]
    refine ⟨hname, fun e he e' he' hk hk' => ?_⟩
    exact List.inj_on_of_nodup_map d.table.nodup he he' (by rw [hk, hk', hname])

/-- A grouping is used in its own module and in another one; the choice in the grouping is gone in
the copies, and one of them has a choice of its own. -/
def depot : List (Module Declared) :=
  let head (name : String) (mark : Option String) : Declared := ⟨name, none, none, none, mark⟩
  let box (name : String) (mark : Option String) (children : List (Node Declared)) :=
    Node.inner (head name mark) (.container false) [] children
  let label : Node Declared := .leaf (head "label" none) .string false none
  let crate : Node Declared := box "crate" none [label]
  let base (name : String) (children : List (Node Declared))
      (groupings : List (Grouping Declared)) : Module Declared :=
    { name, xmlNamespace := none, abbreviation := none, revision := none, description := none
      children, rpcs := [], groupings }
  [base "store" [.inner (head "hall" none) (.container false) ["shelf"]
      [box "rack" (some "shelf") [crate]]]
      [⟨"shelf", none, [.choice (head "kind" none) [("high", [box "rack" none [crate]])]], []⟩],
    base "dock" [.inner (head "yard" none) (.container false) ["store:shelf"]
      [box "rack" (some "store:shelf") [.choice (head "place" none) [("left", [crate])]]]] []]

theorem Context.instances_share_depot : ∃ (c : Context) (i j k : Interior),
    Context.resolve depot = .ok c ∧
    i.head.path.names = ["store", "grouping", "shelf", "rack", "crate"] ∧
    j.head.path.names = ["store", "hall", "rack", "crate"] ∧
    k.head.path.names = ["dock", "yard", "rack", "crate"] ∧
    j.head.definitionPath = i.head.definitionPath ∧ k.head.definitionPath = j.head.definitionPath ∧
    ∀ d, Strategy.shared.add c (Strategy.shared.add c d j) k = Strategy.shared.add c d j := by
  obtain ⟨c, hresolve⟩ : ∃ c, Context.resolve depot = .ok c := ⟨_, rfl⟩
  have hplain : c.PlainGroupings := by
    cases hresolve
    decide
  let shelf : GroupingRef := ⟨"store", "shelf"⟩
  have hinside : ∀ {r i : Interior}, c.Instance shelf [r.head.name] r → r.head.name = "rack" →
      i ∈ Node.unmarked r.children → i.head.name = "crate" →
        c.Instance shelf ["rack", "crate"] i := by
    intro r i hr hrack hi hcrate
    have hstep := hr.inside hi
    rw [hrack, hcrate] at hstep
    exact hstep
  obtain ⟨g, hg, r, hr, hrack, i, hi, hcrate, hpathi⟩ : ∃ g, c.groupingAt? shelf = some g ∧
      ∃ r ∈ Node.unmarked g.children, r.head.name = "rack" ∧ ∃ i ∈ Node.unmarked r.children,
        i.head.name = "crate" ∧
          i.head.path.names = ["store", "grouping", "shelf", "rack", "crate"] := by
    cases hresolve
    refine ⟨_, rfl, ?_⟩
    decide +kernel
  have howni := hinside (.own hg hr) hrack hi hcrate
  have hcopy : ∀ mark path, (∃ r ∈ c.nodes, r.head.grouping = some mark ∧
      GroupingRef.read mark r.head.owner = shelf ∧ r.head.name = "rack" ∧
        ∃ i ∈ Node.unmarked r.children, i.head.name = "crate" ∧ i.head.path.names = path) →
      ∃ i, c.Instance shelf ["rack", "crate"] i ∧ i.head.path.names = path := by
    rintro mark path ⟨r, hr, hmark, hread, hrack, i, hi, hcrate, hpath⟩
    exact ⟨i, hinside (.copy hr hmark hread) hrack hi hcrate, hpath⟩
  obtain ⟨j, hj, hpathj⟩ := hcopy "shelf" ["store", "hall", "rack", "crate"] (by
    cases hresolve
    decide +kernel)
  obtain ⟨k, hk, hpathk⟩ := hcopy "store:shelf" ["dock", "yard", "rack", "crate"] (by
    cases hresolve
    decide +kernel)
  obtain ⟨⟨-, hown⟩, -⟩ := instances_share hresolve hplain howni hj
  obtain ⟨⟨-, hcopies⟩, -, hadd, -⟩ := instances_share hresolve hplain hj hk
  exact ⟨c, i, j, k, hresolve, hpathi, hpathj, hpathk, hown, hcopies, fun d => (hadd d []).2⟩

end YangApi
