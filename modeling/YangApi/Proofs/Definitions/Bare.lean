import YangApi.Definitions.Strategy
import YangApi.Proofs.Definitions.Build

/-! Sharing nothing is sharing in a tree without groupings: definitions that write everything out
are the shared definitions of the bare tree, in which nothing is copied and nothing is used. -/

namespace YangApi

/-- The node as if it had been written where it stands. -/
def Resolved.bare (r : Resolved) : Resolved := { r with grouping := none, origin := none }

mutual

def Node.bare : Node Resolved → Node Resolved
  | .inner r shape _ cs => .inner r.bare shape [] (Node.bareAll cs)
  | .choice r ks => .choice r.bare (Node.bareCases ks)
  | .leaf r t m v => .leaf r.bare t m v
  | .leafList r t => .leafList r.bare t
  | .anyxml r => .anyxml r.bare

def Node.bareAll : List (Node Resolved) → List (Node Resolved)
  | [] => []
  | n :: ns => n.bare :: Node.bareAll ns

def Node.bareCases : Cases Resolved → Cases Resolved
  | [] => []
  | (name, ns) :: ks => (name, Node.bareAll ns) :: Node.bareCases ks

end

def Interior.bare (i : Interior) : Interior :=
  ⟨i.head.bare, i.shape, [], Node.bareAll i.children⟩

namespace Node

theorem bareCases_eq (ks : Cases Resolved) :
    bareCases ks = ks.map fun k => (k.1, bareAll k.2) := by
  induction ks with
  | nil => rfl
  | cons k ks ih => rw [bareCases, List.map_cons, ih]

theorem bareAll_cons (n : Node Resolved) (ns : List (Node Resolved)) :
    bareAll (n :: ns) = bareAll [n] ++ bareAll ns := rfl

theorem bareAll_singleton (n : Node Resolved) : bareAll [n] = [n.bare] := rfl

theorem interior?_bare (n : Node Resolved) : n.bare.interior? = n.interior?.map Interior.bare := by
  cases n <;> rfl

theorem flatten_append (b : Bool) (ns ms : List (Node Resolved)) :
    flattenAll b (ns ++ ms) = flattenAll b ns ++ flattenAll b ms := by
  induction ns with
  | nil => rfl
  | cons n ns ih => rw [List.cons_append, flattenAll, ih, flattenAll, List.append_assoc]

/-- In a bare tree no node of a level counts as copied. -/
theorem flattenAll_bareAll (ns : List (Node Resolved)) :
    flattenAll false (bareAll ns) = (flat ns).map fun n => (n.bare, false) := by
  induction ns using Node.levels with
  | nil => rfl
  | cons n ns ihn ihns =>
    rw [bareAll_cons, flatten_append, ihn, ihns, flat_cons n ns, List.map_append]
  | choice r ks ih =>
    rw [bareAll_singleton, bare, flattenAll_singleton, flatten, flattenCases_eq, bareCases_eq,
      flat_choice, List.map_flatMap, List.flatMap_map]
    exact List.flatMap_congr ih
  | inner | leaf | leafList | anyxml => simp [bareAll, bare, flatten, flat, head, Resolved.bare]

theorem kept_bareAll (ownOnly : Bool) (ns : List (Node Resolved)) :
    kept ownOnly (flattenAll false (bareAll ns)) = (flat ns).map bare := by
  rw [flattenAll_bareAll]
  simp [kept, List.filter_map, Function.comp_def]

theorem propertyName_bare (p : Parent) (n : Node Resolved) :
    p.propertyName n.bare.head = p.propertyName n.head := by
  cases n <;> rfl

end Node

theorem Plain.addChild_bare (m : Plain) (p : Parent) (n : Node Resolved) (k : Option String) :
    m.addChild p n.bare k = m.addChild p n k := by
  cases n with
  | inner r shape => cases shape <;> rfl
  | _ => rfl

theorem Plain.addChild_withDescription (m : Plain) (x : Option String) (p : Parent)
    (n : Node Resolved) (k : Option String) :
    ({ m with description := x } : Plain).addChild p n k =
      { m.addChild p n k with description := x } := by
  unfold addChild
  cases n.property? k with
  | none => rfl
  | some q => by_cases h : p.requires n <;> simp [h, addRequired, addProperty]

namespace Unpacked

theorem fillCases_eq (p : Parent) (acc : Draft × Plain) (ks : Cases Resolved) :
    fillCases p acc ks = ks.foldl (fun acc k => fillAll p acc k.2) acc := by
  induction ks generalizing acc with
  | nil => rfl
  | cons k ks ih => rw [fillCases, ih, List.foldl_cons]

theorem fillAll_cons (p : Parent) (acc : Draft × Plain) (n : Node Resolved)
    (ns : List (Node Resolved)) :
    fillAll p acc (n :: ns) = fillAll p (fillAll p acc [n]) ns := rfl

theorem fillAll_withDescription (p : Parent) (x : Option String) (d : Draft) (m : Plain)
    (ns : List (Node Resolved)) :
    fillAll p (d, { m with description := x }) ns =
      ((fillAll p (d, m) ns).1, { (fillAll p (d, m) ns).2 with description := x }) := by
  induction ns using Node.levels generalizing d m with
  | nil => rfl
  | cons n ns ihn ihns => rw [fillAll_cons, ihn, ihns, ← fillAll_cons]
  | inner r shape uses cs =>
    simp only [fillAll, fill, Plain.addChild_withDescription]
  | choice r ks ih =>
    simp only [fillAll, fill, fillCases_eq]
    induction ks generalizing d m with
    | nil => rfl
    | cons k ks ihks =>
      rw [List.foldl_cons, List.foldl_cons, ih k (List.mem_cons_self ..)]
      exact ihks (fun k' hk' => ih k' (List.mem_cons_of_mem _ hk')) _ _
  | leaf | leafList | anyxml => simp only [fillAll, fill, Plain.addChild_withDescription]

end Unpacked

namespace Shared

theorem fillCases_eq (use : Use) (p : Parent) (ownOnly inherited : Bool) (acc : Draft × Plain)
    (ks : Cases Resolved) :
    fillCases use p ownOnly inherited acc ks =
      ks.foldl (fun acc k => fillAll use p ownOnly inherited acc k.2) acc := by
  induction ks generalizing acc with
  | nil => rfl
  | cons k ks ih => rw [fillCases, ih, List.foldl_cons]

theorem fillAll_append (use : Use) (p : Parent) (ownOnly inherited : Bool) (acc : Draft × Plain)
    (ns ms : List (Node Resolved)) :
    fillAll use p ownOnly inherited acc (ns ++ ms) =
      fillAll use p ownOnly inherited (fillAll use p ownOnly inherited acc ns) ms := by
  induction ns generalizing acc with
  | nil => rfl
  | cons n ns ih => rw [List.cons_append, fillAll, ih, fillAll]

/-- Nothing is used in a bare tree, so a definition is a plain model of all children. -/
theorem register_bare (use : Use) (r : Resolved) (shape : Shape) (cs : List (Node Resolved))
    (hbelow : ∀ acc, fillAll use ⟨r.owner, shape.keys⟩ false false acc (Node.bareAll cs) =
      Unpacked.fillAll ⟨r.owner, shape.keys⟩ acc cs) (d : Draft) :
    register use r.bare (Source.ofHead r.bare shape [])
        (fun ownOnly acc =>
          fillAll use ⟨r.owner, shape.keys⟩ ownOnly false acc (Node.bareAll cs)) d =
      Unpacked.register r (fun acc => Unpacked.fillAll ⟨r.owner, shape.keys⟩ acc cs) d := by
  have hbuild : ∀ d, build use (Source.ofHead r.bare shape [])
      (fun ownOnly acc =>
        fillAll use ⟨r.owner, shape.keys⟩ ownOnly false acc (Node.bareAll cs)) d =
      ((Unpacked.fillAll ⟨r.owner, shape.keys⟩ (d, { description := r.description }) cs).1,
        .plain (Unpacked.fillAll ⟨r.owner, shape.keys⟩
          (d, { description := r.description }) cs).2) := by
    intro d
    rw [build_of_isEmpty use rfl]
    dsimp only
    rw [hbelow, Unpacked.fillAll_withDescription _ r.description d {}]
    rfl
  unfold register Unpacked.register
  rw [funext hbuild]
  rfl

theorem fillAll_bareAll (use : Use) (p : Parent) (inherited : Bool) (acc : Draft × Plain)
    (ns : List (Node Resolved)) :
    fillAll use p false inherited acc (Node.bareAll ns) = Unpacked.fillAll p acc ns := by
  induction ns using Node.levels generalizing p inherited acc with
  | nil => rfl
  | cons n ns ihn ihns =>
    rw [Node.bareAll_cons, fillAll_append, ihn, ihns, Unpacked.fillAll_cons p acc n ns]
  | inner r shape uses cs ih =>
    have hreg := register_bare use r shape cs (fun acc => ih _ _ acc) acc.1
    have hchild := Plain.addChild_bare acc.2 p (.inner r shape uses cs)
    simp only [Node.bareAll_singleton, Node.bare, fillAll, fill, Bool.false_and, Bool.false_eq_true,
      if_false, Unpacked.fillAll, Unpacked.fill] at hchild ⊢
    rw [← hreg, hchild]
    rfl
  | choice r ks ih =>
    simp only [Node.bareAll_singleton, Node.bare, fillAll, fill, fillCases_eq, Node.bareCases_eq,
      List.foldl_map, Unpacked.fillAll, Unpacked.fill, Unpacked.fillCases_eq]
    exact List.foldl_ext _ _ _ fun acc k hk => ih k hk _ _ _
  | leaf | leafList | anyxml => rfl

/-- Writing everything out is sharing in the bare tree. -/
theorem add_bare (c : Context) (d : Draft) (i : Interior) :
    add c d i.bare = Unpacked.add d i := by
  have hreg := register_bare (useGrouping c c.groupingCount []) i.head i.shape i.children
    (fun acc => fillAll_bareAll _ _ _ acc _) d
  exact congrArg Prod.fst hreg

end Shared

namespace Strategy

def view : Strategy → Interior → Interior
  | .shared, i => i
  | .unpacked, i => i.bare

/-- The site that a strategy makes of a container or list. -/
def site (s : Strategy) (i : Interior) : Site := (s.view i).site

theorem key_eq (s : Strategy) (i : Interior) : s.key i.head = (s.site i).key := by
  cases s <;> rfl

theorem add_eq (s : Strategy) (c : Context) (d : Draft) (i : Interior) :
    s.add c d i = Shared.add c d (s.view i) := by
  cases s
  · rfl
  · exact (Shared.add_bare c d i).symm

theorem own_unpacked (i : Interior) : (unpacked.site i).own = (Node.flat i.children).map Node.bare :=
  Node.kept_bareAll _ _

/-- What a site of the unpacking strategy refers to is the site of something inside. -/
theorem inside_of_own_unpacked {i j : Interior} {n : Node Resolved}
    (hn : n ∈ (unpacked.site i).own) (hj : n.interior? = some j) :
    ∃ j' ∈ i.inside, unpacked.site j' = j.site := by
  rw [own_unpacked] at hn
  obtain ⟨n', hn', rfl⟩ := List.mem_map.1 hn
  rw [Node.interior?_bare] at hj
  obtain ⟨j', hj', rfl⟩ := Option.map_eq_some_iff.1 hj
  exact ⟨j', List.mem_filterMap.2 ⟨n', hn', hj'⟩, rfl⟩

theorem needs_unpacked (c : Context) {i j : Interior} (h : j ∈ i.inside) :
    j.head.path ∈ (unpacked.site i).needs c := by
  obtain ⟨n, hn, hj⟩ := List.mem_filterMap.1 h
  refine List.mem_append_right _ (List.mem_filterMap.2 ⟨n.bare, ?_, ?_⟩)
  · rw [own_unpacked]
    exact List.mem_map_of_mem hn
  · exact Node.key?_eq_some.2 ⟨j.bare, by rw [Node.interior?_bare, hj, Option.map_some], rfl⟩

theorem closed_unpacked (c : Context) {D : Interior → Prop} (hD : ∀ i, D i → ∀ j ∈ i.inside, D j) :
    Site.Closed c fun s => ∃ i, D i ∧ unpacked.site i = s where
  child := by
    rintro _ ⟨i, hi, rfl⟩ n hn j hj
    obtain ⟨j', hinside, hsite⟩ := inside_of_own_unpacked hn hj
    exact ⟨j', hD i hi j' hinside, hsite⟩
  parent := by
    rintro _ ⟨i, -, rfl⟩ u hu
    exact absurd hu List.not_mem_nil

/-- The sites that a strategy can meet in a context. -/
def Reach (c : Context) : Strategy → Site → Prop
  | .shared => Site.Of c
  | .unpacked => fun s => ∃ i, True ∧ unpacked.site i = s

theorem closed_reach (c : Context) (s : Strategy) : Site.Closed c (s.Reach c) := by
  cases s with
  | shared => exact Site.closed_of c
  | unpacked => exact closed_unpacked c fun _ _ _ _ => trivial

variable {c : Context} {name : SchemaPath → String} {reach : Site → Prop}

theorem add_spec (hclosed : Site.Closed c reach) {s : Strategy} {i : Interior} (hs : reach (s.site i))
    (d : Draft) (hnamed : (s.add c d i).NamedBy name) :
    Adds c name reach [] d (s.add c d i) ∧ (s.add c d i).Settled [] (s.key i.head) := by
  rw [add_eq] at hnamed ⊢
  rw [key_eq]
  exact Shared.add_spec hclosed hs d hnamed

end Strategy

end YangApi
