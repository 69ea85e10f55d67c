import YangApi.Definitions.Shared
import YangApi.Proofs.Schema.Uses

/-! Sites: what definitions are written from. A site is a container, list or side of a procedure,
or a grouping; once every path has its name, the site alone decides its definition. -/

namespace YangApi

def Node.key? : Node Resolved → Option SchemaPath
  | .inner r _ _ _ => some (Shared.key r)
  | _ => none

theorem Node.key?_eq_some {n : Node Resolved} {p : SchemaPath} :
    n.key? = some p ↔ ∃ i, n.interior? = some i ∧ Shared.key i.head = p := by
  cases n <;> simp [key?, interior?]

/-- Those of a flattened level that a model speaks of: all, or only what no grouping brought. -/
def Node.kept (ownOnly : Bool) (es : List (Node Resolved × Bool)) : List (Node Resolved) :=
  (es.filter fun e => !(ownOnly && e.2)).map Prod.fst

theorem Node.kept_append (ownOnly : Bool) (es fs : List (Node Resolved × Bool)) :
    kept ownOnly (es ++ fs) = kept ownOnly es ++ kept ownOnly fs := by
  simp [kept]

theorem Node.kept_singleton (ownOnly b : Bool) (n : Node Resolved) :
    kept ownOnly [(n, b)] = if ownOnly && b then [] else [n] := by
  cases ownOnly <;> cases b <;> rfl

structure Site where
  key : SchemaPath
  source : Shared.Source
  children : List (Node Resolved)

def Interior.site (i : Interior) : Site :=
  ⟨Shared.key i.head, Shared.Source.ofHead i.head i.shape i.uses, i.children⟩

def Site.ofGrouping (a : GroupingRef) (g : Grouping Resolved) : Site :=
  ⟨a.path, ⟨a.owner, [], g.uses, g.description⟩, g.children⟩

namespace Site

/-- What stands in the definition itself. A site that uses groupings leaves to them what came from
any. -/
def own (s : Site) : List (Node Resolved) :=
  Node.kept (!s.source.uses.isEmpty) (Node.flattenAll false s.children)

/-- Where the used groupings are defined, those left out that do not exist. -/
def parents (c : Context) (s : Site) : List SchemaPath :=
  s.source.uses.filterMap fun u =>
    (c.grouping? u s.source.owner).map fun _ => (GroupingRef.read u s.source.owner).path

/-- All paths whose names stand in the definition. -/
def needs (c : Context) (s : Site) : List SchemaPath := s.parents c ++ s.own.filterMap Node.key?

def extend (name : SchemaPath → String) (p : Parent) (m : Plain) (ns : List (Node Resolved)) :
    Plain :=
  ns.foldl (fun m n => m.addChild p n (n.key?.map name)) m

def ownModel (name : SchemaPath → String) (s : Site) : Plain :=
  extend name s.source.parent {} s.own

def model (c : Context) (name : SchemaPath → String) (s : Site) : Model :=
  let own := s.ownModel name
  let parents := (s.parents c).map name
  if parents.isEmpty then .plain { own with description := s.source.description }
  else
    let inline := if own.isEmpty then [] else [Model.plain own]
    .composed s.source.description (parents.map .ref ++ inline) parents

theorem own_subset_flat (s : Site) : s.own ⊆ Node.flat s.children := by
  intro n hn
  obtain ⟨e, he, rfl⟩ := List.mem_map.1 hn
  exact Node.mem_flat_of_mem_flattenAll (List.mem_filter.1 he).1

theorem mem_parents {c : Context} {s : Site} {p : SchemaPath} :
    p ∈ s.parents c ↔ ∃ u ∈ s.source.uses, ∃ g,
      c.groupingAt? (.read u s.source.owner) = some g ∧
        (GroupingRef.read u s.source.owner).path = p := by
  simp only [parents, List.mem_filterMap, Option.map_eq_some_iff, Context.grouping?_eq]

theorem extend_append (name : SchemaPath → String) (p : Parent) (m : Plain)
    (ns ms : List (Node Resolved)) :
    extend name p m (ns ++ ms) = extend name p (extend name p m ns) ms :=
  List.foldl_append

/-- A set of sites that holds with each site those whose names stand in its definition. -/
structure Closed (c : Context) (reach : Site → Prop) : Prop where
  child : ∀ s, reach s → ∀ n ∈ s.own, ∀ i, n.interior? = some i → reach i.site
  parent : ∀ s, reach s → ∀ u ∈ s.source.uses, ∀ g,
    c.grouping? u s.source.owner = some g → reach (.ofGrouping (.read u s.source.owner) g)

theorem Closed.all (c : Context) : Closed c fun _ => True :=
  ⟨fun _ _ _ _ _ _ => trivial, fun _ _ _ _ _ _ => trivial⟩

/-- The sites of a context: its containers, lists and sides of procedures, and the groupings that
a reference can find. -/
inductive Of (c : Context) : Site → Prop
  | interior (i : Interior) (h : i ∈ c.interiors) : Of c i.site
  | grouping (a : GroupingRef) (g : Grouping Resolved) (h : c.groupingAt? a = some g) :
    Of c (.ofGrouping a g)

theorem interiors_children_of {c : Context} {s : Site} (h : Of c s) :
    Node.interiors s.children ⊆ c.interiors := by
  cases h with
  | interior i h => exact Context.below_subset_interiors h
  | grouping a g h => exact Context.interiors_of_groupingAt? h

theorem closed_of (c : Context) : Closed c (Of c) where
  child _ hs _ hn i hi :=
    .interior i (interiors_children_of hs
      (Node.mem_interiors_of_mem_flat (own_subset_flat _ hn) hi))
  parent _ _ _ _ g hg := .grouping _ g hg

end Site

end YangApi
