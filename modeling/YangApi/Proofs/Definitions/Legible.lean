import YangApi.Proofs.Candidates
import YangApi.Proofs.ModelNames
import YangApi.Proofs.Runs

/-! Names that can be read. A name is never empty if the last name of its path has an ASCII letter
or digit, for a path is named after its last name and what comes in front or behind only makes the
name longer. All that a strategy does keeps this, since the path of a node ends in its name. -/

namespace YangApi

open Draft Text

namespace Registry

/-- All names are in camel case, and none is empty whose path ends in a word. -/
structure Legible (r : Registry) : Prop where
  camel : r.Camel
  ne_empty : ∀ p n word, r.get? p = some n → p.last? = some word → Worded word → n ≠ ""

variable {r : Registry} {base name : String} {taken outer : List String}

theorem qualify_ne_empty (h : base ≠ "") (inner : List String) : qualify base inner ≠ "" := by
  induction inner generalizing base with
  | nil => exact h
  | cons q inner ih => exact ih (by simp [h])

theorem FirstFree.ne_empty (h : FirstFree taken base outer name) (hbase : base ≠ "") :
    name ≠ "" := by
  cases h with
  | qualified k => exact qualify_ne_empty hbase _
  | numbered n => simp [qualify_ne_empty hbase outer]

theorem legible_empty : empty.Legible where
  camel := camel_empty
  ne_empty p n word hn := by simp [get?, empty] at hn

theorem Legible.assign (hr : r.Legible) (key : SchemaPath) (hbase : IsCamel base)
    (hne : ∀ word, key.last? = some word → Worded word → base ≠ "") (qualifiers : List String) :
    (r.assign key base qualifiers).1.Legible := by
  refine ⟨hr.camel.assign key hbase qualifiers, fun p n word hn hword hworded => ?_⟩
  unfold Registry.assign at hn
  split at hn
  · exact hr.ne_empty p n word hn hword hworded
  · rw [get?_cons] at hn
    split at hn
    · next hkey =>
      obtain rfl := hkey
      obtain rfl := Option.some.inj hn
      exact (firstFree_choose _ _ _).ne_empty (hne word hword hworded)
    · exact hr.ne_empty p n word hn hword hworded

end Registry

section steps

variable {d : Draft} {key : SchemaPath} {name k : String}

theorem Draft.legible_assignPath (h : d.names.Legible) (hkey : key.last? = some name) :
    (d.assignPath key name).1.names.Legible := by
  refine h.assign key (isCamel_camelCase name) (fun word hword hworded => ?_) _
  obtain rfl := Option.some.inj (hkey.symm.trans hword)
  exact camelCase_ne_empty_iff.2 hworded

theorem Draft.legible_defineOnce {build : Draft → Draft × Model} (h : d.names.Legible)
    (hbuild : (build d).1.names.Legible) : (d.defineOnce k build).names.Legible := by
  unfold defineOnce
  split
  · exact h
  · exact hbuild

theorem GroupingRef.last?_path (a : GroupingRef) : a.path.last? = some a.name := rfl

theorem Draft.legible_nameOfGrouping (h : d.names.Legible) (reference owner : String) :
    (Shared.nameOfGrouping d reference owner).1.names.Legible :=
  legible_assignPath h (GroupingRef.read reference owner).last?_path

end steps

namespace Shared

def KeepsLegible (use : Use) : Prop :=
  ∀ reference owner d, d.names.Legible → (use reference owner d).1.names.Legible

/-- The containers and lists of a tree are named by paths that end in their names. -/
def KeysEnd (ns : List (Node Resolved)) : Prop :=
  ∀ i ∈ Node.interiors ns, (key i.head).last? = some i.head.name

variable {use : Use} {c : Context} {d : Draft} {ns : List (Node Resolved)}

theorem legible_build (huse : KeepsLegible use) {s : Source}
    {fill : Bool → Draft × Plain → Draft × Plain}
    (hfill : ∀ ownOnly acc, acc.1.names.Legible → (fill ownOnly acc).1.names.Legible)
    (h : d.names.Legible) : (build use s fill d).1.names.Legible := by
  by_cases hempty : s.uses.isEmpty
  · rw [build_of_isEmpty use hempty]
    exact hfill _ _ h
  · rw [build_of_uses use hempty]
    refine hfill _ _ ?_
    exact List.foldlRecOn (motive := fun acc : Draft × List String => acc.1.names.Legible) s.uses _
      h fun acc hacc reference _ => huse reference s.owner acc.1 hacc

theorem legible_register (huse : KeepsLegible use) {r : Resolved}
    (hr : (key r).last? = some r.name) {s : Source} {fill : Bool → Draft × Plain → Draft × Plain}
    (hfill : ∀ ownOnly acc, acc.1.names.Legible → (fill ownOnly acc).1.names.Legible)
    (h : d.names.Legible) : (register use r s fill d).1.names.Legible := by
  have hname : (nameOf d r).1.names.Legible := legible_assignPath h hr
  exact legible_defineOnce hname (legible_build huse hfill hname)

theorem legible_fillAll (huse : KeepsLegible use) (hns : KeysEnd ns) (p : Parent)
    (ownOnly inherited : Bool) (acc : Draft × Plain) (h : acc.1.names.Legible) :
    (fillAll use p ownOnly inherited acc ns).1.names.Legible := by
  induction ns using Node.levels generalizing p ownOnly inherited acc with
  | nil => exact h
  | cons n ns ihn ihns =>
    unfold KeysEnd at hns
    rw [Node.interiors_cons, List.forall_mem_append] at hns
    rw [fillAll_cons]
    exact ihns hns.2 _ _ _ _ (ihn hns.1 _ _ _ _ h)
  | inner r shape uses cs ih =>
    unfold KeysEnd at hns
    rw [Node.interiors_inner, List.forall_mem_cons] at hns
    simp only [fillAll, fill]
    split
    · exact h
    · exact legible_register huse hns.1 (fun _ acc hacc => ih hns.2 _ _ _ acc hacc) h
  | choice r ks ih =>
    unfold KeysEnd at hns
    rw [Node.interiors_choice] at hns
    simp only [fillAll, fill, fillCases_eq]
    refine List.foldlRecOn (motive := fun acc : Draft × Plain => acc.1.names.Legible) ks _ h
      fun acc hacc k hk => ?_
    exact ih k hk (fun i hi => hns i (List.mem_flatMap.2 ⟨k, hk, hi⟩)) _ _ _ acc hacc
  | leaf | leafList | anyxml =>
    simp only [fillAll, fill]
    split <;> exact h

/-- The induction is on how many more groupings can be opened. -/
theorem keepsLegible_useGrouping
    (hc : ∀ i ∈ c.interiors, (key i.head).last? = some i.head.name) (opens : Nat)
    (building : List SchemaPath) : KeepsLegible (useGrouping c opens building) := by
  induction opens generalizing building with
  | zero =>
    intro reference owner d h
    have hname := legible_nameOfGrouping h reference owner
    unfold useGrouping
    split
    · exact h
    · dsimp only
      split <;> exact hname
  | succ opens ih =>
    intro reference owner d h
    have hname := legible_nameOfGrouping h reference owner
    cases hg : c.grouping? reference owner with
    | none =>
      rw [useGrouping_none hg]
      exact h
    | some g =>
      have hbelow : KeysEnd g.children := fun i hi => hc i (Context.interiors_of_groupingAt? hg hi)
      by_cases hthere : (nameOfGrouping d reference owner).1.document.hasDefinition
          (nameOfGrouping d reference owner).2 ∨ (GroupingRef.read reference owner).path ∈ building
      · rw [useGrouping_named hg hthere]
        exact hname
      · rw [useGrouping_opened hg hthere]
        exact legible_build (ih _)
          (fun _ acc hacc => legible_fillAll (ih _) hbelow _ _ _ acc hacc) hname

theorem legible_add (hc : ∀ i ∈ c.interiors, (key i.head).last? = some i.head.name)
    {i : Interior} (hi : (key i.head).last? = some i.head.name) (hbelow : KeysEnd i.children)
    (h : d.names.Legible) : (add c d i).names.Legible := by
  have huse := keepsLegible_useGrouping hc c.groupingCount []
  exact legible_register huse hi (fun _ acc hacc => legible_fillAll huse hbelow _ _ _ acc hacc) h

end Shared

/-- The paths of a node, where it stands and where it was written, end in its name. -/
structure Resolved.Ends (r : Resolved) : Prop where
  path : r.path.last? = some r.name
  definitionPath : r.definitionPath.last? = some r.name

theorem SchemaPath.last?_child (p : SchemaPath) (name : String) :
    (p.child name).last? = some name :=
  List.getLast?_concat

theorem Scope.ends_resolve (s : Scope) (d : Declared) : (s.resolve d).Ends where
  path := SchemaPath.last?_child _ _
  definitionPath := by
    simp only [Resolved.definitionPath, resolve]
    split
    · exact SchemaPath.last?_child _ _
    · cases s.origin <;> exact SchemaPath.last?_child _ _

theorem Placed.ends {s : Scope} {ns : List (Node Resolved)} (h : Placed s ns) :
    ∀ i ∈ Node.interiors ns, i.head.Ends := by
  induction h with
  | nil s => simp [Node.interiors, Node.preorderAll]
  | cons hn hns ihn ihns =>
    rw [Node.interiors_cons, List.forall_mem_append]
    exact ⟨ihn, ihns⟩
  | inner d shape uses hcs ih =>
    rw [Node.interiors_inner, List.forall_mem_cons]
    exact ⟨Scope.ends_resolve _ d, ih⟩
  | choice d hks ih =>
    rw [Node.interiors_choice]
    intro i hi
    obtain ⟨k, hk, hi⟩ := List.mem_flatMap.1 hi
    exact ih k hk i hi
  | leaf | leafList | anyxml => simp [Node.interiors, Node.preorder, Node.interior?]

theorem Module.Placed.ends_side {m : Module Resolved} (h : m.Placed) {r : Rpc Resolved}
    (hr : r ∈ m.rpcs) {side : RpcSide Resolved} (hside : side ∈ r.sides) : side.head.Ends := by
  obtain ⟨horigin, hpath, -⟩ := h.sides r hr side hside
  have hlast : side.head.path.last? = some side.head.name := by rw [hpath]; rfl
  exact ⟨hlast, by rwa [Resolved.definitionPath, horigin, Option.getD_none]⟩

theorem Module.Placed.ends {m : Module Resolved} (h : m.Placed) :
    ∀ i ∈ m.interiors, i.head.Ends := by
  intro i hi
  rcases List.mem_append.1 hi with hi | hi
  · rcases List.mem_append.1 hi with hi | hi
    · exact h.children.ends i hi
    · obtain ⟨r, hr, hi⟩ := List.mem_flatMap.1 hi
      obtain ⟨side, hside, hi⟩ := List.mem_flatMap.1 hi
      rcases List.mem_cons.1 hi with rfl | hi
      · exact h.ends_side hr hside
      · exact (h.sides r hr side hside).2.2.ends i hi
  · obtain ⟨g, hg, hi⟩ := List.mem_flatMap.1 hi
    exact (h.groupings g hg).ends i hi

theorem Context.ends_of_resolve {ms : List (Module Declared)} {c : Context}
    (h : resolve ms = .ok c) : ∀ i ∈ c.interiors, i.head.Ends := by
  intro i hi
  obtain ⟨m, hm, hi⟩ := List.mem_flatMap.1 hi
  exact (placed_of_resolve h hm).ends i hi

theorem Node.interiors_bareAll (ns : List (Node Resolved)) :
    interiors (bareAll ns) = (interiors ns).map Interior.bare := by
  induction ns using Node.levels with
  | nil => rfl
  | cons n ns ihn ihns =>
    rw [interiors_cons, List.map_append, ← ihn, ← ihns]
    exact interiors_cons n.bare (bareAll ns)
  | inner r shape uses cs ih =>
    rw [bareAll_singleton, bare, interiors_inner, interiors_inner, ih]
    rfl
  | choice r ks ih =>
    rw [bareAll_singleton, bare, interiors_choice, interiors_choice, bareCases_eq,
      List.flatMap_map, List.map_flatMap]
    exact List.flatMap_congr ih
  | leaf | leafList | anyxml => rfl

namespace Node

variable {key : Resolved → SchemaPath} {d : Draft}

theorem legible_primeAll {ns : List (Node Resolved)}
    (hns : ∀ i ∈ interiors ns, (key i.head).last? = some i.head.name) (h : d.names.Legible) :
    (primeAll key d ns).names.Legible := by
  induction ns using Node.levels generalizing d with
  | nil => exact h
  | cons n ns ihn ihns =>
    rw [interiors_cons, List.forall_mem_append] at hns
    exact ihns hns.2 (ihn hns.1 h)
  | inner r shape uses cs ih =>
    rw [interiors_inner, List.forall_mem_cons] at hns
    exact ih hns.2 (legible_assignPath h hns.1)
  | choice r ks ih =>
    rw [interiors_choice] at hns
    simp only [primeAll, prime, primeCases_eq]
    refine List.foldlRecOn (motive := fun d : Draft => d.names.Legible) ks _ h fun d hd k hk => ?_
    exact ih k hk (fun i hi => hns i (List.mem_flatMap.2 ⟨k, hk, hi⟩)) hd
  | leaf | leafList | anyxml => exact h

end Node

namespace Strategy

variable {s : Strategy} {c : Context} {d : Draft} {m : Module Resolved}

theorem last?_key (s : Strategy) {r : Resolved} (hr : r.Ends) : (s.key r).last? = some r.name := by
  cases s with
  | shared => exact hr.definitionPath
  | unpacked => exact hr.path

theorem legible_nameOf (s : Strategy) {r : Resolved} (hr : r.Ends) (h : d.names.Legible) :
    (s.nameOf d r).1.names.Legible :=
  legible_assignPath h (s.last?_key hr)

theorem legible_primeSide (s : Strategy) {side : RpcSide Resolved} (hhead : side.head.Ends)
    (hchildren : ∀ i ∈ Node.interiors side.children, i.head.Ends) (rpcName : String)
    (h : d.names.Legible) : (side.prime s.key rpcName d).names.Legible := by
  have hbase : IsCamel (camelCase rpcName ++ camelCase side.head.name) :=
    (isCamel_camelCase rpcName).append (isCamel_camelCase side.head.name)
  refine Node.legible_primeAll (fun i hi => s.last?_key (hchildren i hi))
    (h.assign side.head.path hbase (fun word hword hworded => ?_) _)
  obtain rfl := Option.some.inj (hhead.path.symm.trans hword)
  simp [camelCase_ne_empty_iff.2 hworded]

theorem legible_primeData (s : Strategy) (hplaced : m.Placed) (h : d.names.Legible) :
    (m.primeData s.key d).names.Legible := by
  have hchildren : (Node.primeAll s.key d m.children).names.Legible :=
    Node.legible_primeAll (fun i hi => s.last?_key (hplaced.children.ends i hi)) h
  refine List.foldlRecOn (motive := fun d : Draft => d.names.Legible) m.rpcs _ hchildren
    fun d hd r hr => ?_
  refine List.foldlRecOn (motive := fun d : Draft => d.names.Legible) r.sides _ hd
    fun d hd side hside => ?_
  exact s.legible_primeSide (hplaced.ends_side hr hside)
    (hplaced.sides r hr side hside).2.2.ends r.name hd

theorem legible_prime (s : Strategy) (hplaced : m.Placed) (h : d.names.Legible) :
    (s.prime d m).names.Legible := by
  cases s with
  | unpacked => exact legible_primeData .unpacked hplaced h
  | shared =>
    refine legible_primeData .shared hplaced ?_
    refine List.foldlRecOn (motive := fun d : Draft => d.names.Legible) m.groupings _ h
      fun d hd g hg => ?_
    have hends := (hplaced.groupings g hg).ends
    exact Node.legible_primeAll (fun i hi => last?_key .shared (hends i hi))
      (legible_nameOfGrouping hd g.name m.name)

theorem legible_add (s : Strategy) (hc : ∀ i ∈ c.interiors, i.head.Ends) {i : Interior}
    (hi : i ∈ c.interiors) (h : d.names.Legible) : (s.add c d i).names.Legible := by
  have hshared : ∀ i ∈ c.interiors, (Shared.key i.head).last? = some i.head.name :=
    fun i hi => (hc i hi).definitionPath
  have hbelow : ∀ j ∈ i.below, j ∈ c.interiors := fun j hj => Context.below_subset_interiors hi hj
  rw [add_eq]
  cases s with
  | shared =>
    have hi' := hshared i hi
    exact Shared.legible_add hshared hi' (fun j hj => hshared j (hbelow j hj)) h
  | unpacked =>
    refine Shared.legible_add hshared (i := i.bare) (hc i hi).path (fun j hj => ?_) h
    obtain ⟨j', hj', rfl⟩ := List.mem_map.1 (Node.interiors_bareAll i.children ▸ hj)
    exact (hc j' (hbelow j' hj')).path

end Strategy

end YangApi
