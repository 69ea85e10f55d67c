import YangApi.Proofs.Alias.Chains
import YangApi.Proofs.References

/-! What collapsing aliases does to references: each goes to the end of its chain, the definitions
that remain are those of no alias, and a document without dangling references gets none. -/

namespace YangApi

theorem Property.refName?_retarget (m : AliasMap) (p : Property) :
    (p.retarget m).refName? = p.refName?.map m.target := by
  induction p with
  | ref n d => rfl
  | array p d ih => exact ih
  | scalar s => rfl

theorem Property.refName?_withDescription (x : Option String) (p : Property) :
    (p.withDescription x).refName? = p.refName? := by
  cases p <;> rfl

theorem Property.refs_retarget (m : AliasMap) (p : Property) :
    (p.retarget m).refs = p.refs.map m.target := by
  rw [refs, refName?_retarget, refs]
  cases p.refName? <;> rfl

theorem Property.refs_retargetSchema (m : AliasMap) (p : Property) :
    (p.retargetSchema m).refs = p.refs.map m.target := by
  unfold retargetSchema
  cases h : p.refName? with
  | none => simp [refs, h]
  | some old =>
    dsimp only
    rw [refs, refName?_withDescription, ← refs, refs_retarget]

theorem Table.values_map {α β : Type} (f : α → β) (t : Table α) :
    (t.map fun _ a => f a).values = t.values.map f := by
  simp [values, map, Function.comp_def]

theorem Plain.refs_retarget (m : AliasMap) (p : Plain) :
    (p.retarget m).refs = p.refs.map m.target := by
  unfold refs retarget
  cases p.properties with
  | none => rfl
  | some t =>
    simp only [Option.map_some, Option.getD_some, Table.values_map, List.flatMap_map,
      List.map_flatMap, Property.refs_retarget]

theorem Property.retarget_nil (p : Property) : p.retarget [] = p := by
  induction p with
  | ref n x => rfl
  | array p x ih => rw [retarget, ih]
  | scalar s => rfl

theorem Plain.retarget_nil (p : Plain) : p.retarget [] = p := by
  obtain ⟨type, description, properties, required⟩ := p
  cases properties with
  | none => rfl
  | some t => simp [retarget, Table.map, Property.retarget_nil]

mutual

theorem Model.refs_retarget (m : AliasMap) : ∀ d : Model, (d.retarget m).refs = d.refs.map m.target
  | .ref n => rfl
  | .composed x parts interfaces => by
    rw [retarget, refs, refs, Model.refsAll_retargetAll m parts, List.map_append]
  | .plain p => p.refs_retarget m

theorem Model.refsAll_retargetAll (m : AliasMap) :
    ∀ ds : List Model, refsAll (retargetAll m ds) = (refsAll ds).map m.target
  | [] => rfl
  | d :: ds => by
    rw [retargetAll, refsAll, refsAll, Model.refs_retarget m d, Model.refsAll_retargetAll m ds,
      List.map_append]

end

theorem Model.arrange_perm (parts : List Model) : (arrange parts).Perm parts := by
  have hsorted : ((parts.filter isRef).mergeSort nameLe).Perm (parts.filter isRef) :=
    List.mergeSort_perm _ _
  refine (hsorted.append_left _).trans (List.perm_append_comm.trans ?_)
  exact List.filter_append_perm isRef parts

theorem Model.sortAll_eq (ms : List Model) : Model.sortAll ms = ms.map Model.sort := by
  induction ms with
  | nil => rfl
  | cons m ms ih => rw [Model.sortAll, List.map_cons, ih]

theorem Model.retargetAll_eq (m : AliasMap) (ms : List Model) :
    Model.retargetAll m ms = ms.map (Model.retarget m) := by
  induction ms with
  | nil => rfl
  | cons d ms ih => rw [Model.retargetAll, List.map_cons, ih]

theorem Model.aliasTarget?_sort_retarget {m : AliasMap} {x : Model} {b : String}
    (h : (x.retarget m).sort.aliasTarget? = some b) :
    ∃ a, x.aliasTarget? = some a ∧ m.target a = b := by
  cases x with
  | ref n => cases h
  | plain p => cases h
  | composed text parts interfaces =>
    simp only [Model.retarget, Model.sort, Model.sortAll_eq, Model.retargetAll_eq] at h
    unfold Model.aliasTarget? at h
    split at h
    · next hcomposed =>
      cases h
      obtain ⟨-, hparts, -⟩ := Model.composed.inj hcomposed
      have hperm := Model.arrange_perm ((parts.map (Model.retarget m)).map Model.sort)
      rw [hparts, List.singleton_perm, List.map_map] at hperm
      obtain ⟨p, rfl, hp⟩ := List.map_eq_singleton_iff.1 hperm.symm
      cases p with
      | ref a => exact ⟨a, rfl, Model.ref.inj hp⟩
      | plain p => cases hp
      | composed => cases hp
    · cases h

theorem sortNames_perm (names : List String) : (sortNames names).Perm names :=
  List.mergeSort_perm _ _

mutual

theorem Model.refs_sort : ∀ d : Model, d.sort.refs.Perm d.refs
  | .ref n => .refl _
  | .composed x parts interfaces => by
    have hparts : (refsAll (arrange (sortAll parts))).Perm (refsAll (sortAll parts)) := by
      rw [refsAll_eq, refsAll_eq]
      exact (arrange_perm _).flatMap_right _
    exact (hparts.trans (Model.refsAll_sortAll parts)).append (sortNames_perm interfaces)
  | .plain p => .refl _

theorem Model.refsAll_sortAll : ∀ ds : List Model, (refsAll (sortAll ds)).Perm (refsAll ds)
  | [] => .refl _
  | d :: ds => (Model.refs_sort d).append (Model.refsAll_sortAll ds)

end

theorem Parameter.refs_retarget (m : AliasMap) (p : Parameter) :
    (p.retarget m).refs = p.refs.map m.target := by
  cases p with
  | body b => exact b.schema.refs_retarget m
  | path p => rfl

theorem Response.refs_retarget (m : AliasMap) (r : Response) :
    (r.retarget m).refs = r.refs.map m.target := by
  unfold refs retarget
  cases r.schema with
  | none => rfl
  | some p => simp [Property.refs_retargetSchema]

theorem Operation.refs_retarget (m : AliasMap) (o : Operation) :
    (o.retarget m).refs = o.refs.map m.target := by
  simp only [refs, retarget, Table.values_map, List.flatMap_map, List.map_append, List.map_flatMap,
    Parameter.refs_retarget, Response.refs_retarget]

theorem PathItem.get?_map (f : Operation → Operation) (i : PathItem) (m : Method) :
    (i.map f).get? m = (i.get? m).map f := by
  cases m <;> rfl

theorem PathItem.operations_map (f : Operation → Operation) (i : PathItem) :
    (i.map f).operations = i.operations.map fun e => (e.1, f e.2) := by
  obtain ⟨get, put, post, delete, patch⟩ := i
  cases get <;> cases put <;> cases post <;> cases delete <;> cases patch <;> rfl

namespace Document

theorem operations_mapOperations (f : Operation → Operation) (d : Document) :
    (d.mapOperations f).operations = d.operations.map f := by
  simp only [operations, mapOperations, Table.values_map, List.flatMap_map, PathItem.operations_map,
    List.map_flatMap, List.map_map]
  rfl

theorem get?_collapseDefinitions (m : AliasMap) (t : Table Model) (k : String) :
    (collapseDefinitions m t).get? k =
      if k ∈ m.names then none else (t.get? k).map fun d => (d.retarget m).sort := by
  rw [collapseDefinitions, Table.get?_map, Table.get?_filterKeys, Table.get?_map]
  by_cases h : k ∈ m.names <;> simp [h, Function.comp_def]

theorem definitions_of_not_isEmpty {d : Document} (h : ¬ d.table.isEmpty) :
    d.definitions = some d.table := by
  unfold table at h ⊢
  cases hd : d.definitions with
  | none => simp [hd, Table.isEmpty, Table.empty] at h
  | some t => rfl

theorem collapse_of_isEmpty {d : Document} (h : d.table.isEmpty) (chains : Bool) :
    (d.collapse chains).1 = d := by
  unfold collapse
  cases hd : d.definitions with
  | none => rfl
  | some t =>
    have ht : t.isEmpty := by simpa [table, hd] using h
    rw [Option.filter_some_neg (by simp [ht])]

theorem collapse_of_not_isEmpty {d : Document} (h : ¬ d.table.isEmpty) (chains : Bool) :
    (d.collapse chains).1 =
      { d.mapOperations (Operation.retarget (aliases chains d.table)) with
        definitions := some (collapseDefinitions (aliases chains d.table) d.table) } := by
  unfold collapse
  rw [definitions_of_not_isEmpty h, Option.filter_some_pos (by simp [h])]

theorem definition?_collapse {d : Document} (h : ¬ d.table.isEmpty) (chains : Bool) (k : String) :
    (d.collapse chains).1.definition? k =
      if k ∈ (aliases chains d.table).names then none
      else (d.definition? k).map fun x => (x.retarget (aliases chains d.table)).sort := by
  rw [collapse_of_not_isEmpty h, definition?_eq d]
  exact get?_collapseDefinitions _ _ _

theorem aliases_of_plain {t : Table Model} (h : ∀ k x, t.get? k = some x → ∃ m, x = .plain m)
    (chains : Bool) : aliases chains t = [] := by
  have hnone : t.entries.filterMap AliasMap.entry? = [] := by
    refine List.filterMap_eq_nil_iff.2 fun e he => ?_
    obtain ⟨m, hm⟩ := h e.1 e.2 (Table.get?_eq_some_iff.2 he)
    simp [AliasMap.entry?, hm, Model.aliasTarget?]
  have hempty : AliasMap.ofDefinitions t = [] := by
    rw [AliasMap.ofDefinitions, hnone, AliasMap.sorted, List.mergeSort_nil]
  cases chains <;> simp [aliases, hempty, AliasMap.closed]

theorem definition?_collapse_of_plain {d : Document}
    (h : ∀ k x, d.definition? k = some x → ∃ m, x = .plain m) (chains : Bool) (k : String) :
    (d.collapse chains).1.definition? k = d.definition? k := by
  by_cases hempty : d.table.isEmpty
  · rw [collapse_of_isEmpty hempty]
  have haliases : aliases chains d.table = [] :=
    aliases_of_plain (fun k x hx => h k x ((definition?_eq d k).trans hx)) chains
  rw [definition?_collapse hempty, haliases, if_neg (by simp [AliasMap.names])]
  cases hk : d.definition? k with
  | none => rfl
  | some x =>
    obtain ⟨m, rfl⟩ := h k x hk
    exact congrArg (fun m => some (Model.plain m)) m.retarget_nil

theorem mem_refs_collapse {d : Document} (h : ¬ d.table.isEmpty) {chains : Bool} {r : String}
    (hr : r ∈ (d.collapse chains).1.refs) :
    ∃ s ∈ d.refs, (aliases chains d.table).target s = r := by
  rcases mem_refs.1 hr with ⟨k, x, hx, hr⟩ | ⟨o, ho, hr⟩
  · rw [definition?_collapse h] at hx
    split at hx
    · cases hx
    · obtain ⟨y, hy, rfl⟩ := Option.map_eq_some_iff.1 hx
      rw [(Model.refs_sort _).mem_iff, Model.refs_retarget] at hr
      obtain ⟨s, hs, rfl⟩ := List.mem_map.1 hr
      exact ⟨s, mem_refs.2 (.inl ⟨k, y, hy, hs⟩), rfl⟩
  · rw [collapse_of_not_isEmpty h] at ho
    have ho := (operations_mapOperations _ d) ▸ ho
    obtain ⟨o', ho', rfl⟩ := List.mem_map.1 ho
    rw [Operation.refs_retarget] at hr
    obtain ⟨s, hs, rfl⟩ := List.mem_map.1 hr
    exact ⟨s, mem_refs.2 (.inr ⟨o', ho', hs⟩), rfl⟩

theorem Closed.hasDefinition_of_step {d : Document} (h : d.Closed) {k b : String}
    (hstep : (AliasMap.ofDefinitions d.table).Step k b) : d.hasDefinition b := by
  obtain ⟨x, hx, htarget, -⟩ := AliasMap.step_ofDefinitions.1 hstep
  refine h b (mem_refs.2 (.inl ⟨k, x, (definition?_eq d k).trans hx, ?_⟩))
  unfold Model.aliasTarget? at htarget
  split at htarget
  · cases htarget
    simp [Model.refs, Model.refsAll]
  · cases htarget

theorem Closed.hasDefinition_of_reaches {d : Document} (h : d.Closed) {r b : String} (hr : r ∈ d.refs)
    (hb : Relation.ReflTransGen (AliasMap.ofDefinitions d.table).Step r b) : d.hasDefinition b := by
  obtain rfl | ⟨k, -, hlast⟩ := hb.cases_tail
  · exact h b hr
  · exact h.hasDefinition_of_step hlast

/-- Collapsing leaves no reference without its definition: a chain ends at a definition, and that
one stays, for it is no alias. -/
theorem Closed.collapse {d : Document} (h : d.Closed) {chains : Bool}
    (hcollapsible : Collapsible chains d.table) : (d.collapse chains).1.Closed := by
  by_cases hempty : d.table.isEmpty
  · rwa [collapse_of_isEmpty hempty]
  have hsettles := hcollapsible.settles
  intro r hr
  obtain ⟨s, hs, rfl⟩ := mem_refs_collapse hempty hr
  obtain ⟨x, hx⟩ := hasDefinition_iff.1 (h.hasDefinition_of_reaches hs (hsettles.target_spec s).1)
  rw [hasDefinition_iff]
  refine ⟨(x.retarget (aliases chains d.table)).sort, ?_⟩
  rw [definition?_collapse hempty, hsettles.names, if_neg (hsettles.target_spec s).2, hx,
    Option.map_some]

end Document

end YangApi
