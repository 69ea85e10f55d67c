import Mathlib.Data.String.Basic
import YangApi.Proofs.Alias.Collapse

/-! Collapsing aliases leaves none, however the aliases stood for each other, in chains or in
cycles. So there is nothing left to do: without aliases no reference moves and no text is renamed,
and compositions that are in order stay as they are. -/

namespace YangApi

section order

variable {α : Type} {le : α → α → Bool} {name : α → String}

theorem pairwise_mergeSort_name (hle : ∀ a b, le a b = !decide (name b < name a)) (l : List α) :
    (l.mergeSort le).Pairwise fun a b => name a ≤ name b := by
  have hiff : ∀ a b, le a b ↔ name a ≤ name b := by
    intro a b
    rw [hle, Bool.not_eq_true', decide_eq_false_iff_not, not_lt]
  refine (List.pairwise_mergeSort ?_ ?_ l).imp fun h => (hiff _ _).1 h
  · exact fun a b c hab hbc => (hiff a c).2 (((hiff a b).1 hab).trans ((hiff b c).1 hbc))
  · exact fun a b => Bool.or_eq_true _ _ ▸ (le_total (name a) (name b)).imp (hiff a b).2 (hiff b a).2

theorem mergeSort_mergeSort (hle : ∀ a b, le a b = !decide (name b < name a)) (l : List α) :
    (l.mergeSort le).mergeSort le = l.mergeSort le := by
  refine List.mergeSort_of_pairwise ((pairwise_mergeSort_name hle l).imp fun {a b} h => ?_)
  rwa [hle, Bool.not_eq_true', decide_eq_false_iff_not, not_lt]

theorem sortNames_sortNames (names : List String) : sortNames (sortNames names) = sortNames names :=
  mergeSort_mergeSort (fun _ _ => rfl) names

theorem Model.nameLe_eq (a b : Model) :
    nameLe a b = !decide (b.refName?.getD "" < a.refName?.getD "") := rfl

theorem Model.isRef_of_mem_mergeSort {parts : List Model} {p : Model}
    (h : p ∈ (parts.filter isRef).mergeSort nameLe) : p.isRef :=
  (List.mem_filter.1 (List.mem_mergeSort.1 h)).2

theorem Model.filter_inline_arrange (parts : List Model) :
    ((arrange parts).filter fun p => !p.isRef) = parts.filter fun p => !p.isRef := by
  have hnone : ((parts.filter isRef).mergeSort nameLe).filter (fun p => !p.isRef) = [] :=
    List.filter_eq_nil_iff.2 fun p hp => by simp [isRef_of_mem_mergeSort hp]
  rw [arrange, List.filter_append, hnone, List.append_nil]
  exact List.filter_eq_self.2 fun p hp => (List.mem_filter.1 hp).2

theorem Model.filter_refs_arrange (parts : List Model) :
    (arrange parts).filter isRef = (parts.filter isRef).mergeSort nameLe := by
  have hnone : (parts.filter fun p => !p.isRef).filter isRef = [] :=
    List.filter_eq_nil_iff.2 fun p hp => by simpa using (List.mem_filter.1 hp).2
  rw [arrange, List.filter_append, hnone, List.nil_append]
  exact List.filter_eq_self.2 fun p hp => isRef_of_mem_mergeSort hp

theorem Model.arrange_arrange (parts : List Model) : arrange (arrange parts) = arrange parts := by
  rw [arrange.eq_def (arrange parts), filter_inline_arrange, filter_refs_arrange,
    mergeSort_mergeSort nameLe_eq, ← arrange]

mutual

theorem Model.sort_sort : ∀ m : Model, m.sort.sort = m.sort
  | .ref n => rfl
  | .plain p => rfl
  | .composed x parts interfaces => by
    have hparts : sortAll (arrange (sortAll parts)) = arrange (sortAll parts) := by
      rw [sortAll_eq, List.map_congr_left fun p hp =>
        Model.sort_of_mem_sortAll parts p ((arrange_perm _).mem_iff.1 hp), List.map_id']
    simp only [sort, hparts, arrange_arrange, sortNames_sortNames]

theorem Model.sort_of_mem_sortAll : ∀ ms : List Model, ∀ m ∈ sortAll ms, m.sort = m
  | [], _, hm => absurd hm List.not_mem_nil
  | n :: ns, m, hm => by
    rcases List.mem_cons.1 hm with rfl | hm
    · exact Model.sort_sort n
    · exact Model.sort_of_mem_sortAll ns m hm

end

end order

section nil

/-! Nothing moves where there are no aliases. -/

theorem Table.map_eq_self {α : Type} {t : Table α} {f : String → α → α}
    (h : ∀ k a, t.get? k = some a → f k a = a) : t.map f = t := by
  obtain ⟨es, hnodup⟩ := t
  have hentries : ∀ e ∈ es, (e.1, f e.1 e.2) = e :=
    fun e he => Prod.ext rfl (h e.1 e.2 (get?_eq_some_iff.2 he))
  simp only [map, mk.injEq]
  rw [List.map_congr_left hentries, List.map_id']

theorem Table.filterKeys_eq_self {α : Type} {t : Table α} {p : String → Bool} (h : ∀ k, p k) :
    t.filterKeys p = t := by
  obtain ⟨es, hnodup⟩ := t
  simp [filterKeys, h]

mutual

theorem Model.retarget_nil : ∀ m : Model, m.retarget [] = m
  | .ref n => rfl
  | .plain p => congrArg Model.plain p.retarget_nil
  | .composed x parts interfaces => by
    rw [retarget, Model.retargetAll_nil parts]
    exact congrArg (Model.composed x parts) (List.map_id interfaces)

theorem Model.retargetAll_nil : ∀ ms : List Model, retargetAll [] ms = ms
  | [] => rfl
  | m :: ms => by rw [retargetAll, Model.retarget_nil m, Model.retargetAll_nil ms]

end

theorem Parameter.retarget_nil (p : Parameter) : p.retarget [] = p := by
  cases p with
  | path p => rfl
  | body b =>
    obtain ⟨name, description, required, schema⟩ := b
    have hdescription : ∀ old, description.map (AliasMap.renameIn [] old) = description :=
      fun old => Option.map_id'
    rw [retarget, BodyParam.retarget, schema.retarget_nil]
    cases schema <;> simp only [hdescription]

theorem Property.retargetSchema_nil (p : Property) : p.retargetSchema [] = p := by
  unfold retargetSchema
  cases p.refName? with
  | none => rfl
  | some old =>
    have hdescription : p.description.map (AliasMap.renameIn [] old) = p.description :=
      Option.map_id'
    dsimp only
    rw [hdescription, retarget_nil]
    cases p <;> rfl

theorem Response.retarget_nil (r : Response) : r.retarget [] = r := by
  obtain ⟨description, schema⟩ := r
  cases schema with
  | none => rfl
  | some p =>
    simp only [retarget, Option.map_some, Property.retargetSchema_nil, Option.bind_some]
    cases p.refName? <;> rfl

theorem Operation.retarget_nil (o : Operation) : o.retarget [] = o := by
  obtain ⟨tags, summary, description, id, parameters, responses⟩ := o
  have hdescription : description.map (AliasMap.retargetText []) = description :=
    Option.map_id'
  have hparameters : parameters.map (Parameter.retarget []) = parameters :=
    List.map_id'' Parameter.retarget_nil parameters
  have hresponses : responses.map (fun _ r => r.retarget []) = responses :=
    Table.map_eq_self fun _ r _ => r.retarget_nil
  simp only [retarget, hdescription, hparameters, hresponses]

theorem Document.mapOperations_retarget_nil (d : Document) :
    d.mapOperations (Operation.retarget []) = d := by
  have hitem : ∀ i : PathItem, i.map (Operation.retarget []) = i := by
    intro i
    simp [PathItem.map, funext Operation.retarget_nil]
  have hpaths : d.paths.map (fun _ i => i.map (Operation.retarget [])) = d.paths :=
    Table.map_eq_self fun _ i _ => hitem i
  rw [mapOperations, hpaths]

end nil

namespace Document

open AliasMap

variable {d : Document} {chains : Bool}

theorem names_aliases (chains : Bool) (t : Table Model) :
    (aliases chains t).names = (ofDefinitions t).names := by
  cases chains with
  | false => rfl
  | true => exact (ofDefinitions t).names_closed

theorem aliases_of_ofDefinitions {t : Table Model} (h : ofDefinitions t = []) (chains : Bool) :
    aliases chains t = [] := by
  cases chains <;> simp [aliases, h, closed]

theorem collapse_eq (d : Document) (chains : Bool) :
    (d.collapse chains).1 = { d.mapOperations (Operation.retarget (aliases chains d.table)) with
      definitions := d.definitions.map (collapseDefinitions (aliases chains d.table)) } := by
  by_cases hempty : d.table.isEmpty
  · have hdefinitions : d.definitions.map (collapseDefinitions []) = d.definitions := by
      cases hd : d.definitions with
      | none => rfl
      | some t =>
        obtain ⟨es, hnodup⟩ := t
        obtain rfl : es = [] := by simpa [table, hd, Table.isEmpty] using hempty
        rfl
    rw [collapse_of_isEmpty hempty, aliases_of_ofDefinitions (ofDefinitions_of_isEmpty hempty),
      hdefinitions, mapOperations_retarget_nil]
  · rw [collapse_of_not_isEmpty hempty, definitions_of_not_isEmpty hempty]
    rfl

theorem table_collapse (d : Document) (chains : Bool) :
    (d.collapse chains).1.table = collapseDefinitions (aliases chains d.table) d.table := by
  rw [collapse_eq, table, table]
  cases d.definitions <;> rfl

theorem get?_table_collapse (d : Document) (chains : Bool) (k : String) :
    (d.collapse chains).1.table.get? k = if k ∈ (ofDefinitions d.table).names then none
      else (d.table.get? k).map fun x => (x.retarget (aliases chains d.table)).sort := by
  rw [table_collapse, get?_collapseDefinitions, names_aliases]

theorem not_hasDefinition_collapse {a : String} (h : a ∈ (ofDefinitions d.table).names)
    (chains : Bool) : ¬ (d.collapse chains).1.hasDefinition a := by
  rw [hasDefinition_iff, definition?_eq, get?_table_collapse, if_pos h]
  rintro ⟨x, hx⟩
  cases hx

/-- No alias is left: what remains and is one reference refers to itself, as it did before. -/
theorem ofDefinitions_collapse (d : Document) (chains : Bool) :
    ofDefinitions (d.collapse chains).1.table = [] := by
  have hnone : ∀ a b, ¬ (ofDefinitions (d.collapse chains).1.table).Step a b := by
    intro a b hstep
    obtain ⟨x, hx, hb, hne⟩ := step_ofDefinitions.1 hstep
    rw [get?_table_collapse] at hx
    split at hx
    · cases hx
    · next ha =>
      obtain ⟨y, hy, rfl⟩ := Option.map_eq_some_iff.1 hx
      obtain ⟨t, ht, rfl⟩ := Model.aliasTarget?_sort_retarget hb
      -- otherwise `a` was an alias before and was dropped
      have hself : t = a := by
        by_contra hta
        exact ha (mem_names_of_step (step_ofDefinitions.2 ⟨y, hy, ht, hta⟩))
      rw [← names_aliases chains] at ha
      rw [hself, target, get?_eq_none_iff.2 ha, Option.getD_none] at hne
      exact hne rfl
  refine List.eq_nil_iff_forall_not_mem.2 fun e he => ?_
  have hname : e.1 ∈ (ofDefinitions (d.collapse chains).1.table).names := List.mem_map_of_mem he
  obtain ⟨b, hb⟩ := Option.ne_none_iff_exists'.1 (mt get?_eq_none_iff.1 (not_not.2 hname))
  exact hnone _ _ hb

theorem sort_of_definition?_collapse (hne : ¬ d.table.isEmpty) {k : String} {x : Model}
    (h : (d.collapse chains).1.definition? k = some x) : x.sort = x := by
  rw [definition?_collapse hne] at h
  split at h
  · cases h
  · obtain ⟨y, -, rfl⟩ := Option.map_eq_some_iff.1 h
    exact Model.sort_sort _

theorem collapse_eq_self (hnone : ofDefinitions d.table = [])
    (hsorted : ∀ k x, d.definition? k = some x → x.sort = x) (chains : Bool) :
    (d.collapse chains).1 = d := by
  by_cases hempty : d.table.isEmpty
  · exact collapse_of_isEmpty hempty chains
  have hdefinitions : collapseDefinitions [] d.table = d.table := by
    have hretarget : d.table.map (fun _ x => x.retarget []) = d.table :=
      Table.map_eq_self fun _ x _ => x.retarget_nil
    rw [collapseDefinitions, hretarget, Table.filterKeys_eq_self (by simp [names])]
    exact Table.map_eq_self fun k x hx => hsorted k x ((definition?_eq d k).trans hx)
  rw [collapse_of_not_isEmpty hempty, aliases_of_ofDefinitions hnone, hdefinitions,
    mapOperations_retarget_nil, ← definitions_of_not_isEmpty hempty]

theorem report_collapse (d : Document) (chains : Bool) :
    (d.collapse chains).2.1 =
      if d.table.isEmpty then ⟨[], true⟩ else ⟨aliases chains d.table, false⟩ := by
  unfold collapse table
  cases hd : d.definitions with
  | none => rfl
  | some t => by_cases ht : t.isEmpty <;> simp [Option.filter, ht]

/-- Collapsing twice is collapsing once: whatever the aliases were, none is left, and another pass,
with chains or without, finds none and gives back the same document. -/
theorem collapse_collapse (d : Document) (chains again : Bool) :
    let once := (d.collapse chains).1
    ofDefinitions once.table = [] ∧ (once.collapse again).1 = once ∧
      (once.collapse again).2.1 = ⟨[], once.table.isEmpty⟩ := by
  intro once
  have hnone : ofDefinitions once.table = [] := ofDefinitions_collapse d chains
  have hsorted : ∀ k x, once.definition? k = some x → x.sort = x := by
    intro k x hx
    by_cases hempty : d.table.isEmpty
    · have hentries : d.table.entries = [] := by simpa [Table.isEmpty] using hempty
      have honce : once = d := collapse_of_isEmpty hempty chains
      rw [honce, definition?_eq, Table.get?_eq_some_iff, hentries] at hx
      cases hx
    · exact sort_of_definition?_collapse hempty hx
  refine ⟨hnone, collapse_eq_self hnone hsorted again, ?_⟩
  rw [report_collapse, aliases_of_ofDefinitions hnone]
  cases once.table.isEmpty <;> rfl

end Document

end YangApi
