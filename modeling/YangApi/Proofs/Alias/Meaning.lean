import YangApi.Proofs.Alias.Expansion
import YangApi.Proofs.Alias.Stable

/-! Collapsing aliases keeps what a document says. Following wrappers in the document before leads
where the map of aliases leads, and in the document after no wrapper is left; so names expand alike
at every depth, and with them every schema that refers to names. -/

namespace YangApi

section wrappers

open AliasMap Relation

variable {t : Table Model}

theorem Table.standsFor?_eq (a : String) : t.standsFor? a = (ofDefinitions t).get? a := by
  refine Option.ext fun b => ?_
  have hstep : (ofDefinitions t).get? a = some b ↔ _ := step_ofDefinitions
  rw [hstep, standsFor?, Option.filter_eq_some_iff, Option.bind_eq_some_iff]
  simp only [decide_eq_true_eq, ← exists_and_right, and_assoc]

theorem AliasMap.length_ofDefinitions_le (t : Table Model) : (ofDefinitions t).length ≤ t.size := by
  rw [ofDefinitions, sorted, List.length_mergeSort]
  exact List.length_filterMap_le _ _

theorem AliasMap.Flat.acyclic {m : AliasMap} (h : m.Flat) : m.Acyclic := by
  intro a ha
  obtain ⟨b, hab, hba⟩ := TransGen.head'_iff.1 ha
  rcases hba.cases_head with rfl | ⟨c, hbc, -⟩
  · exact h _ _ hab (mem_names_of_step hab)
  · exact h _ _ hab (mem_names_of_step hbc)

theorem Table.followWrappers_eq (hm : (ofDefinitions t).Acyclic) (steps : Nat) (seen : List String)
    (name : String) (hseen : ∀ s ∈ seen, TransGen (ofDefinitions t).Step s name) :
    t.followWrappers steps name = (ofDefinitions t).follow steps seen name := by
  induction steps generalizing seen name with
  | zero => rfl
  | succ steps ih =>
    unfold followWrappers follow
    rw [standsFor?_eq]
    cases hnext : (ofDefinitions t).get? name with
    | none => rfl
    | some next =>
      have hstep : (ofDefinitions t).Step name next := hnext
      have hnew : next ∉ seen := fun h => hm next ((hseen next h).tail hstep)
      simp only [hnew, if_false]
      exact ih (name :: seen) next
        (List.forall_mem_cons.2 ⟨.single hstep, fun s hs => (hseen s hs).tail hstep⟩)

/-- The map that collapsing uses leads to the end of the wrappers. -/
theorem Document.Collapsible.target_eq {chains : Bool} (h : Document.Collapsible chains t)
    (name : String) : (Document.aliases chains t).target name = t.behind name := by
  have hm : (ofDefinitions t).Acyclic := by
    cases chains with
    | false => exact Flat.acyclic h
    | true => exact h
  obtain ⟨hchain, hend⟩ := h.settles.target_spec name
  obtain ⟨hchain', hend'⟩ := follow_spec t.size [] name (fun a _ => hm a) List.nodup_nil
    (List.nil_subset _) (by simp) (by simpa using length_ofDefinitions_le t)
  rw [Table.behind, Table.followWrappers_eq hm _ [] _ (by simp)]
  exact end_unique hchain hend hchain' hend'

end wrappers

namespace Document

open Expansion

variable {d : Document} {chains : Bool}

theorem standsFor?_collapse (d : Document) (chains : Bool) (name : String) :
    (d.collapse chains).1.table.standsFor? name = none := by
  rw [Table.standsFor?_eq, ofDefinitions_collapse]
  rfl

theorem behind_collapse (d : Document) (chains : Bool) (name : String) :
    (d.collapse chains).1.table.behind name = name := by
  unfold Table.behind
  cases (d.collapse chains).1.table.size with
  | zero => rfl
  | succ steps => rw [Table.followWrappers, standsFor?_collapse]

theorem expandRef_collapse (hne : ¬ d.table.isEmpty) (h : Collapsible chains d.table)
    (depth : Nat) (name : String) :
    Same (d.table.expandRef depth name) ((d.collapse chains).1.table.expandRef depth
      ((aliases chains d.table).target name)) := by
  induction depth generalizing name with
  | zero =>
    rw [Table.expandRef, Table.expandRef, behind_collapse, h.target_eq]
    exact .refl _
  | succ depth ih =>
    have hend := (h.settles.target_spec name).2
    rw [Table.expandRef, Table.expandRef, behind_collapse, ← h.target_eq, ← definition?_eq,
      ← definition?_eq, definition?_collapse hne, h.settles.names, if_neg hend]
    cases d.definition? ((aliases chains d.table).target name) with
    | none => exact .refl _
    | some x => exact x.expand_sort_retarget ih

/-- Every definition that remains, and the schema of every body and response, says the same before
and after aliases are collapsed, to whatever depth it is read. -/
theorem collapse_expansions (h : Collapsible chains d.table) (depth : Nat) :
    (∀ k x, (d.collapse chains).1.definition? k = some x → ∃ y, d.definition? k = some y ∧
      Same (y.expand (d.table.expandRef depth))
        (x.expand ((d.collapse chains).1.table.expandRef depth))) ∧
    List.Forall₂ SameEntry (d.expansions depth) ((d.collapse chains).1.expansions depth) := by
  by_cases hempty : d.table.isEmpty
  · rw [collapse_of_isEmpty hempty]
    refine ⟨fun k x hx => ⟨x, hx, .refl _⟩, ?_⟩
    exact List.forall₂_same.2 fun e _ => ⟨rfl, .refl _⟩
  have href := expandRef_collapse hempty h depth
  constructor
  · intro k x hx
    rw [definition?_collapse hempty] at hx
    split at hx
    · cases hx
    · obtain ⟨y, hy, rfl⟩ := Option.map_eq_some_iff.1 hx
      exact ⟨y, hy, y.expand_sort_retarget href⟩
  · have hpaths : (d.collapse chains).1.paths =
        d.paths.map fun _ i => i.map (Operation.retarget (aliases chains d.table)) := by
      rw [collapse_of_not_isEmpty hempty]
      rfl
    unfold expansions
    simp only [hpaths, Table.map, List.flatMap_map]
    exact forall₂_flatMap fun e _ => forall₂_label e.1 (e.2.expansions_retarget href)

/-- Two aliases in a row before an item that leads back to the first of them. -/
def chainOfTwo : Document :=
  let next : Plain := { properties := some (.ofList [("next", .ref "Order" none)]) }
  let orders : Response := { description := "Order", schema := some (.array (.ref "Order" none) none) }
  { paths := .ofList [("/data/order", { get := some { responses := .ofList [("200", orders)] } })]
    definitions := some (.ofList [("Order", .composed none [.ref "Goods"] ["Goods"]),
      ("Goods", .composed none [.ref "Item"] ["Item"]), ("Item", .plain next)]) }

theorem collapse_expansions_chainOfTwo : Collapsible true chainOfTwo.table ∧
    List.Forall₂ SameEntry (chainOfTwo.expansions 2) ((chainOfTwo.collapse true).1.expansions 2) := by
  have hcollapsible : Collapsible true chainOfTwo.table := by
    refine AliasMap.acyclic_of_rank (fun name => if name = "Order" then 2 else
      if name = "Goods" then 1 else 0) ?_
    decide
  exact ⟨hcollapsible, (collapse_expansions hcollapsible 2).2⟩

end Document

end YangApi
