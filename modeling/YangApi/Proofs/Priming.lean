import YangApi.Proofs.ModelNames

/-! Names are fixed before anything is defined. Priming names every container, list and side of a
procedure of the selected modules, and whatever a strategy is asked to name or to define later, in
whatever order, leaves these names as they are. -/

namespace YangApi

open Draft

section names

/-! Which names are given does not depend on what has been defined. -/

variable {d d' : Draft}

theorem Draft.names_foldl {α : Type} {f : Draft → α → Draft}
    (h : ∀ d d' a, d.names = d'.names → (f d a).names = (f d' a).names) (l : List α)
    (hnames : d.names = d'.names) : (l.foldl f d).names = (l.foldl f d').names := by
  induction l generalizing d d' with
  | nil => exact hnames
  | cons a l ih => exact ih (h d d' a hnames)

theorem Draft.names_assign (key : SchemaPath) (base : String) (qualifiers : List String)
    (h : d.names = d'.names) :
    (d.assign key base qualifiers).1.names = (d'.assign key base qualifiers).1.names := by
  simp only [assign, h]

theorem Node.names_primeAll (key : Resolved → SchemaPath) (ns : List (Node Resolved))
    (h : d.names = d'.names) : (primeAll key d ns).names = (primeAll key d' ns).names := by
  induction ns using Node.levels generalizing d d' with
  | nil => exact h
  | cons n ns ihn ihns => exact ihns (ihn h)
  | inner r shape uses cs ih => exact ih (names_assign _ _ _ h)
  | choice r ks ih =>
    simp only [primeAll, prime, primeCases_eq]
    induction ks generalizing d d' with
    | nil => exact h
    | cons k ks ihks =>
      exact ihks (fun k' hk' => ih k' (List.mem_cons_of_mem _ hk')) (ih k (List.mem_cons_self ..) h)
  | leaf | leafList | anyxml => exact h

theorem Module.names_primeData (key : Resolved → SchemaPath) (m : Module Resolved)
    (h : d.names = d'.names) : (m.primeData key d).names = (m.primeData key d').names := by
  have hside : ∀ (name : String) (d d' : Draft) (s : RpcSide Resolved), d.names = d'.names →
      (s.prime key name d).names = (s.prime key name d').names := fun _ _ _ _ hs =>
    Node.names_primeAll key _ (names_assign _ _ _ hs)
  exact names_foldl (fun _ _ r hr => names_foldl (hside r.name) r.sides hr) _
    (Node.names_primeAll key _ h)

theorem Strategy.names_prime (s : Strategy) (m : Module Resolved) (h : d.names = d'.names) :
    (s.prime d m).names = (s.prime d' m).names := by
  cases s with
  | unpacked => exact Module.names_primeData _ m h
  | shared =>
    refine Module.names_primeData _ m (names_foldl (fun d d' g hg => ?_) _ h)
    exact Node.names_primeAll _ _ (names_assign _ _ _ hg)

end names

theorem Module.within_primeData (key : Resolved → SchemaPath) (d : Draft) (m : Module Resolved) :
    d.names.Within (m.primeData key d).names :=
  (Node.within_primeAll key d m.children).trans (within_foldl (Rpc.within_prime key) _ _)

/-- What a strategy can be asked once modules are primed: the name of a node, of a procedure's side
or of a grouping, or to define a node in some document. -/
inductive Request
  | name (r : Resolved)
  | side (r : Rpc Resolved) (direction : Direction)
  | grouping (reference owner : String)
  | add (document : Document) (i : Interior)

namespace Strategy

/-- Only the strategy that shares groupings has names for them. -/
def serve (s : Strategy) (c : Context) (d : Draft) : Request → Draft
  | .name r => (s.nameOf d r).1
  | .side r direction => (s.nameOfSide d r direction).1
  | .grouping reference owner =>
    match s with
    | .shared => (Shared.nameOfGrouping d reference owner).1
    | .unpacked => d
  | .add document i => s.add c { d with document } i

def primed (s : Strategy) (modules : List (Module Resolved)) : Draft := modules.foldl s.prime {}

def primedInteriors : Strategy → Module Resolved → List Interior
  | .shared, m => m.interiors
  | .unpacked, m => m.dataInteriors

theorem dataInteriors_subset (s : Strategy) (m : Module Resolved) :
    m.dataInteriors ⊆ s.primedInteriors m := by
  cases s with
  | shared => exact List.subset_append_left _ _
  | unpacked => exact List.Subset.refl _

variable {s : Strategy} {m : Module Resolved} {modules : List (Module Resolved)} {i : Interior}

theorem exists_adds (s : Strategy) (c : Context) (d : Draft) (i : Interior) :
    ∃ name, Adds c name (fun _ => True) [] d (s.add c d i) ∧
      Settled [] (s.add c d i) (s.key i.head) := by
  have hnamed : NamedBy (fun p => ((s.add c d i).names.get? p).getD "") (s.add c d i) := by
    intro p n hn
    simp [hn]
  exact ⟨_, add_spec (Site.Closed.all c) trivial d hnamed⟩

theorem within_add (s : Strategy) (c : Context) (d : Draft) (i : Interior) :
    d.names.Within (s.add c d i).names := by
  obtain ⟨_, hadds, -⟩ := s.exists_adds c d i
  exact hadds.names

theorem within_serve (s : Strategy) (c : Context) (d : Draft) (request : Request) :
    d.names.Within (s.serve c d request).names := by
  cases request with
  | name r => exact Registry.within_assign _ _ _ _
  | side r direction =>
    have hserve : s.serve c d (.side r direction) = (s.nameOfSide d r direction).1 := rfl
    rw [hserve]
    unfold nameOfSide
    cases r.side direction with
    | none => exact .refl _
    | some side => exact Registry.within_assign _ _ _ _
  | grouping reference owner =>
    cases s with
    | shared => exact Registry.within_assign _ _ _ _
    | unpacked => exact .refl _
  | add document i => exact within_add s c { d with document } i

/-- Priming a module also names what its groupings hold, if the strategy shares them. -/
theorem named_primedInteriors (hplaced : m.Placed) (hi : i ∈ s.primedInteriors m) (d : Draft) :
    (s.prime d m).Named (s.key i.head) := by
  cases s with
  | unpacked => exact named_prime .unpacked hplaced hi d
  | shared =>
    rcases List.mem_append.1 hi with hi | hi
    · exact named_prime .shared hplaced hi d
    · obtain ⟨g, hg, hi⟩ := List.mem_flatMap.1 hi
      have hwithin : ∀ (d : Draft) g, d.names.Within (Shared.primeGrouping m.name d g).names := by
        intro d g
        have hname : d.names.Within (Shared.nameOfGrouping d g.name m.name).1.names :=
          Registry.within_assign _ _ _ _
        exact hname.trans (Node.within_primeAll _ _ _)
      have hnamed : (m.groupings.foldl (Shared.primeGrouping m.name) d).Named (Shared.key i.head) :=
        named_foldl hwithin hg (fun d => Node.named_primeAll hi _) d
      exact hnamed.grow (Module.within_primeData _ _ m)

theorem nameOf_of_within {d d' : Draft} (h : d.names.Within d'.names) {r : Resolved} {n : String}
    (hname : d.names.get? (s.key r) = some n) : (s.nameOf d' r).2 = n :=
  congrArg Prod.snd (assignPath_eq (h _ _ hname) r.name)

theorem within_foldl_serve (s : Strategy) (c : Context) (d : Draft) (requests : List Request) :
    d.names.Within (requests.foldl (s.serve c) d).names :=
  within_foldl (s.within_serve c) requests d

theorem nameOf_foldl_serve (s : Strategy) (c : Context) (d : Draft) (r : Resolved)
    (requests : List Request) :
    (s.nameOf (requests.foldl (s.serve c) (s.nameOf d r).1) r).2 = (s.nameOf d r).2 :=
  nameOf_of_within (s.within_foldl_serve c _ requests) (d.get?_assignPath (s.key r) r.name)

theorem names_primed (s : Strategy) (modules : List (Module Resolved)) (document : Document) :
    (s.primed modules).names = (modules.foldl s.prime { document }).names :=
  names_foldl (fun _ _ m h => s.names_prime m h) modules rfl

theorem named_primed (hplaced : ∀ m ∈ modules, m.Placed) (hm : m ∈ modules)
    (hi : i ∈ s.primedInteriors m) : (s.primed modules).Named (s.key i.head) :=
  named_foldl s.within_prime hm (named_primedInteriors (hplaced m hm) hi) _

/-- Whatever modules are primed and whatever is asked afterwards, the containers, lists and sides of
their procedures keep the names that priming gave them, and so does what their groupings hold if
groupings are shared. These are their names in every document for the same modules. -/
theorem names_fixed {ms : List (Module Declared)} {c : Context}
    (hresolve : Context.resolve ms = .ok c) (s : Strategy) {modules : List (Module Resolved)}
    (hmodules : modules ⊆ c.modules) :
    ∀ m ∈ modules,
      (∀ i ∈ s.primedInteriors m, ∃ name,
        (s.primed modules).names.get? (s.key i.head) = some name ∧
          (∀ requests : List Request,
            (s.nameOf (requests.foldl (s.serve c) (s.primed modules)) i.head).2 = name) ∧
          ∀ g : Generator, g.config.strategy = s → g.modules = modules →
            g.modelName i.head = name) ∧
      ∀ r ∈ m.rpcs, ∀ direction side, r.side direction = some side → ∃ name,
        (s.primed modules).names.get? (s.key side.head) = some name ∧
          ∀ requests : List Request,
            (s.nameOfSide (requests.foldl (s.serve c) (s.primed modules)) r direction).2 =
              some name := by
  intro m hm
  have hplaced : ∀ m ∈ modules, m.Placed := fun m hm =>
    Context.placed_of_resolve hresolve (hmodules hm)
  have hkept := s.within_foldl_serve c (s.primed modules)
  refine ⟨fun i hi => ?_, fun r hr direction side hside => ?_⟩
  · obtain ⟨name, hname⟩ := Option.isSome_iff_exists.1 (named_primed hplaced hm hi)
    refine ⟨name, hname, fun requests => nameOf_of_within (hkept requests) hname, ?_⟩
    rintro g rfl rfl
    have hwithin : g.primed.names.Within g.draft.names :=
      (Generator.visits_spec (Site.Closed.all g.context) fun _ _ => trivial).grows.names
    rw [names_primed _ _ g.emptyDocument] at hname
    exact nameOf_of_within hwithin hname
  · have hmem : side.interior ∈ m.dataInteriors := by
      refine List.mem_append_right _ (List.mem_flatMap.2 ⟨r, hr, List.mem_flatMap.2 ⟨side, ?_, ?_⟩⟩)
      · exact Restconf.mem_sides hside
      · exact List.mem_cons_self ..
    obtain ⟨name, hname⟩ :=
      Option.isSome_iff_exists.1 (named_primed hplaced hm (s.dataInteriors_subset m hmem))
    refine ⟨name, hname, fun requests => ?_⟩
    have hside' := nameOf_of_within (r := side.head) (hkept requests) hname
    simp only [nameOfSide, hside, hside']

theorem names_fixed_shop : ∃ c m i r side, Context.resolve shop = .ok c ∧ m ∈ c.modules ∧
    i ∈ primedInteriors .shared m ∧ r ∈ m.rpcs ∧ r.side .input = some side ∧
    ∀ requests : List Request,
      let d := requests.foldl (serve .shared c) (primed .shared c.modules)
      (nameOf .shared d i.head).2 = "Order" ∧
        (nameOfSide .shared d r .input).2 = some "CancelInput" := by
  obtain ⟨c, hresolve⟩ := exists_resolve_shop
  obtain ⟨m, i, r, side, hm, hi, hr, hside, horder, hcancel⟩ : ∃ m i r side, m ∈ c.modules ∧
      i ∈ primedInteriors .shared m ∧ r ∈ m.rpcs ∧ r.side .input = some side ∧
      (primed .shared c.modules).names.get? (Shared.key i.head) = some "Order" ∧
      (primed .shared c.modules).names.get? (Shared.key side.head) = some "CancelInput" := by
    cases hresolve
    refine ⟨_, _, _, _, List.mem_cons_self .., List.mem_cons_self .., List.mem_cons_self .., rfl,
      ?_⟩
    decide +kernel
  obtain ⟨hnodes, hsides⟩ := names_fixed hresolve .shared (List.Subset.refl _) m hm
  obtain ⟨name, hname, hfixed, -⟩ := hnodes i hi
  obtain ⟨name', hname', hfixed'⟩ := hsides r hr .input side hside
  obtain rfl := Option.some.inj (hname.symm.trans horder)
  obtain rfl := Option.some.inj (hname'.symm.trans hcancel)
  exact ⟨c, m, i, r, side, hresolve, hm, hi, hr, hside, fun requests =>
    ⟨hfixed requests, hfixed' requests⟩⟩

end Strategy

end YangApi
