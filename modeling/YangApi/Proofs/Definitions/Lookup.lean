import YangApi.Proofs.Definitions.Bare

/-! Definitions depend on a context through the groupings that are looked up in it. Two ways to use
groupings that agree on what a tree uses make the same definitions of it; so two contexts make the
same definitions of a tree if the one finds whatever the other finds there. -/

namespace YangApi

namespace Shared

variable {use use' : Use}

/-- Two ways to use groupings that what `i` uses itself does not tell apart. -/
def AgreeOn (use use' : Use) (i : Interior) : Prop :=
  ∀ u ∈ i.uses, use u i.head.owner = use' u i.head.owner

theorem useAll_congr {owner : String} {uses : List String}
    (h : ∀ u ∈ uses, use u owner = use' u owner) (d : Draft) :
    useAll use owner uses d = useAll use' owner uses d := by
  refine List.foldl_ext _ _ _ fun acc u hu => ?_
  rw [useStep_eq, useStep_eq, h u hu]

theorem build_congr {s : Source} (h : ∀ u ∈ s.uses, use u s.owner = use' u s.owner)
    (fill : Bool → Draft × Plain → Draft × Plain) : build use s fill = build use' s fill := by
  funext d
  by_cases hempty : s.uses.isEmpty
  · rw [build_of_isEmpty use hempty, build_of_isEmpty use' hempty]
  · rw [build_of_uses use hempty, build_of_uses use' hempty, useAll_congr h]

theorem register_congr {i : Interior} (h : AgreeOn use use' i)
    (hbelow : below use i.site = below use' i.site) (d : Draft) :
    register use i.head i.site.source (below use i.site) d =
      register use' i.head i.site.source (below use' i.site) d := by
  have hbuild : build use i.site.source (below use' i.site) =
      build use' i.site.source (below use' i.site) := build_congr (s := i.site.source) h _
  rw [register_eq, register_eq, hbelow, hbuild]

theorem fillAll_inner (use : Use) (p : Parent) (ownOnly inherited : Bool) (acc : Draft × Plain)
    (i : Interior) :
    fillAll use p ownOnly inherited acc [.inner i.head i.shape i.uses i.children] =
      if ownOnly && (inherited || i.head.grouping.isSome) then acc
      else
        let e := register use i.head i.site.source (below use i.site) acc.1
        (e.1, acc.2.addChild p (.inner i.head i.shape i.uses i.children) (some e.2)) := rfl

theorem fillAll_congr {ns : List (Node Resolved)}
    (h : ∀ i ∈ Node.interiors ns, AgreeOn use use' i) (p : Parent) (ownOnly inherited : Bool)
    (acc : Draft × Plain) :
    fillAll use p ownOnly inherited acc ns = fillAll use' p ownOnly inherited acc ns := by
  induction ns using Node.levels generalizing p ownOnly inherited acc with
  | nil => rfl
  | cons n ns ihn ihns =>
    rw [Node.interiors_cons, List.forall_mem_append] at h
    rw [fillAll_cons, ihn h.1, ihns h.2, ← fillAll_cons]
  | inner r shape uses cs ih =>
    rw [Node.interiors_inner, List.forall_mem_cons] at h
    obtain ⟨hown, hinside⟩ := h
    have hbelow : below use (Interior.site ⟨r, shape, uses, cs⟩) =
        below use' (Interior.site ⟨r, shape, uses, cs⟩) := by
      funext ownOnly acc
      exact ih hinside _ _ _ _
    rw [fillAll_inner use p ownOnly inherited acc ⟨r, shape, uses, cs⟩,
      fillAll_inner use' p ownOnly inherited acc ⟨r, shape, uses, cs⟩,
      register_congr hown hbelow]
  | choice r ks ih =>
    rw [Node.interiors_choice] at h
    simp only [fillAll, fill, fillCases_eq]
    refine List.foldl_ext _ _ _ fun acc k hk => ?_
    exact ih k hk (fun i hi => h i (List.mem_flatMap.2 ⟨k, hk, hi⟩)) _ _ _ _
  | leaf | leafList | anyxml => rfl

theorem below_congr {s : Site} (h : ∀ i ∈ Node.interiors s.children, AgreeOn use use' i) :
    below use s = below use' s := by
  funext ownOnly acc
  exact fillAll_congr h _ _ _ _

end Shared

/-- `c'` finds the groupings that `c` finds, and has as many or more. -/
structure Context.FindsAll (c' c : Context) : Prop where
  grouping : ∀ reference owner g, c.grouping? reference owner = some g →
    c'.grouping? reference owner = some g
  count : c.groupingCount ≤ c'.groupingCount

namespace Shared

variable {c c' : Context}

/-- A grouping that is found by both is used in the same way. The groupings under way are groupings
of `c`, so neither context counts too few. -/
theorem useGrouping_congr (hfinds : c'.FindsAll c) (huses : c.UsesExist) {opens opens' : Nat}
    {building : List SchemaPath} (hnodup : building.Nodup) (hsub : building ⊆ c.groupingPaths)
    (hopens : c.groupingCount ≤ opens + building.length)
    (hopens' : c.groupingCount ≤ opens' + building.length) {reference owner : String}
    (hfound : (c.grouping? reference owner).isSome) :
    useGrouping c opens building reference owner =
      useGrouping c' opens' building reference owner := by
  induction opens generalizing opens' building reference owner with
  | zero =>
    -- every grouping of `c` is under way, this one as well
    obtain ⟨g, hg⟩ := Option.isSome_iff_exists.1 hfound
    have hmem : (GroupingRef.read reference owner).path ∈ building :=
      Context.mem_of_groupingCount_le hnodup hsub (by omega) (Context.path_mem_groupingPaths hg)
    funext d
    rw [useGrouping_named hg (.inr hmem),
      useGrouping_named (hfinds.grouping _ _ _ hg) (.inr hmem)]
  | succ opens ih =>
    obtain ⟨g, hg⟩ := Option.isSome_iff_exists.1 hfound
    have hg' := hfinds.grouping _ _ _ hg
    funext d
    by_cases h : (nameOfGrouping d reference owner).1.document.hasDefinition
        (nameOfGrouping d reference owner).2 ∨ (GroupingRef.read reference owner).path ∈ building
    · rw [useGrouping_named hg h, useGrouping_named hg' h]
    · obtain ⟨-, hnew⟩ := not_or.1 h
      have hnodup' := List.nodup_cons.2 ⟨hnew, hnodup⟩
      have hsub' := List.cons_subset.2 ⟨Context.path_mem_groupingPaths hg, hsub⟩
      have hlen := Context.length_le_groupingCount hnodup' hsub'
      rw [List.length_cons] at hlen
      obtain ⟨opens', rfl⟩ : ∃ n, opens' = n + 1 := ⟨opens' - 1, by omega⟩
      let s := Site.ofGrouping (.read reference owner) g
      have hagree : ∀ u owner', (c.grouping? u owner').isSome →
          useGrouping c opens (s.key :: building) u owner' =
            useGrouping c' opens' (s.key :: building) u owner' := by
        intro u owner' hu
        refine ih hnodup' hsub' ?_ ?_ hu
        · rw [List.length_cons]
          omega
        · rw [List.length_cons]
          omega
      have hbelow : below (useGrouping c opens (s.key :: building)) s =
          below (useGrouping c' opens' (s.key :: building)) s :=
        below_congr fun i hi u hu =>
          hagree u _ (huses.interiors i (Context.interiors_of_groupingAt? hg hi) u hu)
      have hbuild := build_congr (s := s.source)
        fun u hu => hagree u _ (huses.of_groupingAt? hg hu)
      rw [useGrouping_opened hg h, useGrouping_opened hg' h]
      dsimp only
      rw [hbelow, hbuild]

theorem add_congr (hfinds : c'.FindsAll c) (huses : c.UsesExist) {i : Interior}
    (hi : i ∈ c.interiors) (d : Draft) : add c d i = add c' d i := by
  have hagree : ∀ j ∈ c.interiors, AgreeOn (useGrouping c c.groupingCount [])
      (useGrouping c' c'.groupingCount []) j := by
    intro j hj u hu
    exact useGrouping_congr hfinds huses List.nodup_nil (List.nil_subset _) (Nat.le_refl _)
      hfinds.count (huses.interiors j hj u hu)
  have hbelow := below_congr (s := i.site)
    fun j hj => hagree j (Context.below_subset_interiors hi hj)
  have hregister := register_congr (hagree i hi) hbelow d
  exact congrArg Prod.fst hregister

end Shared

end YangApi
