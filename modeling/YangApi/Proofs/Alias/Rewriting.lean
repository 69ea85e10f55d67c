import Mathlib.Data.List.Forall2
import YangApi.Proofs.Alias.Stable
import YangApi.Proofs.Substring

/-! What collapsing aliases does to a whole document. The pass is described without the functions
that carry it out: a reference moves along a relation of names, a text has an alias exchanged in it,
the compositions of a definition are put in order, and whatever is not mentioned is as it was. -/

namespace YangApi

section references

/-- The same keys in the same order, with related values. -/
def Table.Rel {α β : Type} (S : α → β → Prop) (t : Table α) (t' : Table β) : Prop :=
  List.Forall₂ (fun e e' => e'.1 = e.1 ∧ S e.2 e'.2) t.entries t'.entries

variable {R : String → String → Prop} {m : AliasMap}

theorem Table.rel_map {α β : Type} {S : α → β → Prop} {t : Table α} {f : α → β}
    (h : ∀ a ∈ t.values, S a (f a)) : t.Rel S (t.map fun _ a => f a) := by
  refine List.forall₂_map_right_iff.2 (List.forall₂_same.2 fun e he => ⟨rfl, ?_⟩)
  exact h e.2 (List.mem_map_of_mem he)

/-- Only the reference inside the arrays of a property has moved. -/
inductive Property.Follows (R : String → String → Prop) : Property → Property → Prop
  | ref {n n' : String} {d : Option String} (h : R n n') : Follows R (.ref n d) (.ref n' d)
  | array {p p' : Property} {d : Option String} (h : Follows R p p') :
    Follows R (.array p d) (.array p' d)
  | scalar (s : Scalar) : Follows R (.scalar s) (.scalar s)

structure Plain.Follows (R : String → String → Prop) (p p' : Plain) : Prop where
  type : p'.type = p.type
  description : p'.description = p.description
  required : p'.required = p.required
  properties : Option.Rel (Table.Rel (Property.Follows R)) p.properties p'.properties

/-- Only references have moved, and all parts stand where they stood. -/
inductive Model.Follows (R : String → String → Prop) : Model → Model → Prop
  | ref {n n' : String} (h : R n n') : Follows R (.ref n) (.ref n')
  | plain {p p' : Plain} (h : p.Follows R p') : Follows R (.plain p) (.plain p')
  | composed {d : Option String} {parts parts' : List Model} {names names' : List String}
    (hparts : List.Forall₂ (Follows R) parts parts') (hnames : List.Forall₂ R names names') :
    Follows R (.composed d parts names) (.composed d parts' names')

theorem Property.follows_retarget (p : Property) (h : ∀ n ∈ p.refs, R n (m.target n)) :
    p.Follows R (p.retarget m) := by
  induction p with
  | ref n d => exact .ref (h n (List.mem_singleton.2 rfl))
  | array p d ih => exact .array (ih h)
  | scalar s => exact .scalar s

theorem Plain.follows_retarget (p : Plain) (h : ∀ n ∈ p.refs, R n (m.target n)) :
    p.Follows R (p.retarget m) := by
  refine ⟨rfl, rfl, rfl, ?_⟩
  unfold refs at h
  rw [retarget]
  cases ht : p.properties with
  | none => exact .none
  | some t =>
    rw [ht, Option.getD_some] at h
    exact .some (Table.rel_map fun q hq =>
      q.follows_retarget fun n hn => h n (List.mem_flatMap.2 ⟨q, hq, hn⟩))

mutual

theorem Model.follows_retarget : ∀ x : Model, (∀ n ∈ x.refs, R n (m.target n)) →
    x.Follows R (x.retarget m)
  | .ref n, h => .ref (h n (List.mem_singleton.2 rfl))
  | .plain p, h => .plain (p.follows_retarget h)
  | .composed d parts names, h => by
    refine .composed ?_ (List.forall₂_map_right_iff.2 (List.forall₂_same.2 fun n hn => ?_))
    · exact Model.forall₂_retargetAll parts fun n hn => h n (List.mem_append_left _ hn)
    · exact h n (List.mem_append_right _ hn)

theorem Model.forall₂_retargetAll : ∀ xs : List Model, (∀ n ∈ refsAll xs, R n (m.target n)) →
    List.Forall₂ (Model.Follows R) xs (retargetAll m xs)
  | [], _ => .nil
  | x :: xs, h => by
    refine .cons (Model.follows_retarget x fun n hn => ?_) (Model.forall₂_retargetAll xs fun n hn => ?_)
    · exact h n (List.mem_append_left _ hn)
    · exact h n (List.mem_append_right _ hn)

end

end references

section order

def Model.Before : Model → Model → Prop
  | .ref n, .ref n' => n ≤ n'
  | .ref _, _ => False
  | _, _ => True

/-- The same parts in order; those that are inline stand to each other as before. -/
structure Model.Arranged (parts parts' : List Model) : Prop where
  perm : parts'.Perm parts
  inline : (parts'.filter fun p => !p.isRef) = parts.filter fun p => !p.isRef
  sorted : parts'.Pairwise Model.Before

inductive Model.Reordered : Model → Model → Prop
  | ref (n : String) : Reordered (.ref n) (.ref n)
  | plain (p : Plain) : Reordered (.plain p) (.plain p)
  | composed {d : Option String} {parts mid parts' : List Model} {names names' : List String}
    (hparts : List.Forall₂ Reordered parts mid) (harranged : Arranged mid parts')
    (hperm : names'.Perm names) (hsorted : names'.Pairwise (· ≤ ·)) :
    Reordered (.composed d parts names) (.composed d parts' names')

theorem pairwise_sortNames (names : List String) : (sortNames names).Pairwise (· ≤ ·) :=
  pairwise_mergeSort_name (fun _ _ => rfl) names

theorem Model.before_of_not_isRef {a b : Model} (h : !a.isRef) : a.Before b := by
  cases a with
  | ref n => cases h
  | plain p => trivial
  | composed => trivial

theorem Model.before_of_refName_le {a b : Model} (ha : a.isRef) (hb : b.isRef)
    (h : a.refName?.getD "" ≤ b.refName?.getD "") : a.Before b := by
  cases a with
  | ref n =>
    cases b with
    | ref n' => exact h
    | _ => cases hb
  | _ => cases ha

theorem Model.arranged_arrange (parts : List Model) : Arranged parts (arrange parts) where
  perm := arrange_perm parts
  inline := filter_inline_arrange parts
  sorted := by
    have hinline : ∀ p ∈ parts.filter fun p => !p.isRef, !p.isRef :=
      fun p hp => (List.mem_filter.1 hp).2
    refine List.pairwise_append.2 ⟨?_, ?_, fun a ha b _ => before_of_not_isRef (hinline a ha)⟩
    · exact List.pairwise_of_forall_mem_list fun a ha b _ => before_of_not_isRef (hinline a ha)
    · refine (pairwise_mergeSort_name nameLe_eq _).imp_of_mem fun ha hb h => ?_
      exact before_of_refName_le (isRef_of_mem_mergeSort ha) (isRef_of_mem_mergeSort hb) h

mutual

theorem Model.reordered_sort : ∀ x : Model, x.Reordered x.sort
  | .ref n => .ref n
  | .plain p => .plain p
  | .composed _ parts names =>
    .composed (Model.forall₂_sortAll parts) (arranged_arrange _) (sortNames_perm names)
      (pairwise_sortNames names)

theorem Model.forall₂_sortAll : ∀ xs : List Model, List.Forall₂ Model.Reordered xs (sortAll xs)
  | [] => .nil
  | x :: xs => .cons (Model.reordered_sort x) (Model.forall₂_sortAll xs)

end

end order

namespace AliasMap

variable {m : AliasMap}

/-- A name goes to what it is an alias for, and any other name stays. -/
def Leads (m : AliasMap) (n n' : String) : Prop := m.Step n n' ∨ (n ∉ m.names ∧ n' = n)

/-- The text `t` is `s` with the alias `a` exchanged for what it stands for, or `s` itself if `a` is
no alias. -/
inductive Exchanges (m : AliasMap) (a s : String) : String → Prop
  | alias {b t : String} (hstep : m.Step a b)
    (ht : Text.Exchanged a.toList b.toList s.toList t.toList) : Exchanges m a s t
  | same (h : a ∉ m.names) : Exchanges m a s s

/-- The text `t` is `s` with one alias exchanged: of those that stand anywhere in `s`, the first by
code points. -/
inductive ExchangesFirst (m : AliasMap) (s : String) : String → Prop
  | first {a b t : String} (hstep : m.Step a b) (hin : a.toList <:+: s.toList)
    (hfirst : ∀ c ∈ m.names, c.toList <:+: s.toList → a ≤ c)
    (ht : Text.Exchanged a.toList b.toList s.toList t.toList) : ExchangesFirst m s t
  | same (h : ∀ c ∈ m.names, ¬ c.toList <:+: s.toList) : ExchangesFirst m s s

theorem leads_target (m : AliasMap) (n : String) : m.Leads n (m.target n) := by
  unfold Leads Step target
  cases h : m.get? n with
  | none => exact .inr ⟨get?_eq_none_iff.1 h, rfl⟩
  | some b => exact .inl rfl

theorem exchanges_renameIn (m : AliasMap) (a s : String) : m.Exchanges a s (m.renameIn a s) := by
  unfold renameIn
  cases h : m.get? a with
  | none => exact .same (get?_eq_none_iff.1 h)
  | some b => exact .alias h (Text.exchanged_replaceAll a b s)

/-- The aliases of a document are listed in order, each of them once. -/
theorem pairwise_names_aliases (chains : Bool) (t : Table Model) :
    (Document.aliases chains t).names.Pairwise (· < ·) := by
  rw [Document.names_aliases]
  have hsorted : (ofDefinitions t).names.Pairwise (· ≤ ·) :=
    List.pairwise_map.2 (pairwise_mergeSort_name (fun _ _ => rfl) _)
  refine (hsorted.and (nodup_names_ofDefinitions t)).imp fun h => lt_of_le_of_ne h.1 h.2

theorem exchangesFirst_retargetText (hm : m.names.Pairwise (· < ·)) (s : String) :
    m.ExchangesFirst s (m.retargetText s) := by
  unfold retargetText
  cases hfind : m.find? fun e => Text.occurs e.1 s with
  | none =>
    refine .same fun c hc hin => ?_
    obtain ⟨e, he, rfl⟩ := List.mem_map.1 hc
    exact List.find?_eq_none.1 hfind e he (Text.occurs_iff.2 hin)
  | some e =>
    obtain ⟨a, b⟩ := e
    obtain ⟨hin, before, after, hsplit, hbefore⟩ := List.find?_eq_some_iff_append.1 hfind
    have hnodup : m.names.Nodup := hm.imp ne_of_lt
    refine .first ((step_iff_mem hnodup).2 (List.mem_of_find?_eq_some hfind)) (Text.occurs_iff.1 hin)
      (fun c hc hoccurs => ?_) (Text.exchanged_replaceAll a b s)
    -- what stands in front does not occur, and what stands behind is greater
    rw [names, hsplit, List.map_append, List.map_cons] at hc hm
    rcases List.mem_append.1 hc with hc | hc
    · obtain ⟨e, he, rfl⟩ := List.mem_map.1 hc
      have hnot := hbefore e he
      rw [Text.occurs_iff.2 hoccurs] at hnot
      cases hnot
    · rcases List.mem_cons.1 hc with rfl | hc
      · exact le_rfl
      · exact (List.rel_of_pairwise_cons (List.pairwise_append.1 hm).2.1 hc).le

end AliasMap

section operations

variable (R : String → String → Prop) (m : AliasMap)

/-- A schema that refers to a definition follows its reference and names it in its own description;
any other schema is as it was. -/
inductive Property.Rewrites : Property → Property → Prop
  | ref {p q : Property} {a : String} {text : Option String} (ha : p.refName? = some a)
    (hq : p.Follows R q) (htext : Option.Rel (m.Exchanges a) p.description text) :
    Rewrites p (q.withDescription text)
  | same {p : Property} (h : p.refName? = none) : Rewrites p p

/-- The description of a body names the definition only if the schema is a reference itself. -/
structure BodyParam.Rewrites (b b' : BodyParam) : Prop where
  name : b'.name = b.name
  required : b'.required = b.required
  schema : b.schema.Follows R b'.schema
  naming : ∀ a, b.schema = .ref a → Option.Rel (m.Exchanges a) b.description b'.description
  other : (∀ a, b.schema ≠ .ref a) → b'.description = b.description

inductive Parameter.Rewrites : Parameter → Parameter → Prop
  | body {b b' : BodyParam} (h : b.Rewrites R m b') : Rewrites (.body b) (.body b')
  | path (p : PathParam) : Rewrites (.path p) (.path p)

structure Response.Rewrites (r r' : Response) : Prop where
  schema : Option.Rel (Property.Rewrites R m) r.schema r'.schema
  naming : ∀ a, r.schema.bind Property.refName? = some a → m.Exchanges a r.description r'.description
  other : r.schema.bind Property.refName? = none → r'.description = r.description

structure Operation.Rewrites (o o' : Operation) : Prop where
  tags : o'.tags = o.tags
  summary : o'.summary = o.summary
  description : Option.Rel m.ExchangesFirst o.description o'.description
  id : o'.id = o.id
  parameters : List.Forall₂ (Parameter.Rewrites R m) o.parameters o'.parameters
  responses : o.responses.Rel (Response.Rewrites R m) o'.responses

def PathItem.Rewrites (i i' : PathItem) : Prop :=
  ∀ method, Option.Rel (Operation.Rewrites R m) (i.get? method) (i'.get? method)

/-- The definitions of no alias remain, in their order; their references move and their compositions
are put in order. The operations are those that were, with their references and texts rewritten. -/
structure Document.Rewrites (d d' : Document) : Prop where
  info : d'.info = d.info
  host : d'.host = d.host
  basePath : d'.basePath = d.basePath
  consumes : d'.consumes = d.consumes
  produces : d'.produces = d.produces
  tags : d'.tags = d.tags
  paths : d.paths.Rel (PathItem.Rewrites R m) d'.paths
  defined : d'.definitions.isSome = d.definitions.isSome
  definitions : List.Forall₂
    (fun e e' => e'.1 = e.1 ∧ ∃ x, e.2.Follows R x ∧ x.Reordered e'.2)
    (d.table.entries.filter fun e => e.1 ∉ m.names) d'.table.entries

variable {R m}

theorem Option.rel_map {α β : Type} {S : α → β → Prop} {f : α → β} {x : Option α}
    (h : ∀ a ∈ x, S a (f a)) : Option.Rel S x (x.map f) := by
  cases x with
  | none => exact .none
  | some a => exact .some (h a rfl)

theorem Property.rewrites_retargetSchema (p : Property) (h : ∀ n ∈ p.refs, R n (m.target n)) :
    p.Rewrites R m (p.retargetSchema m) := by
  unfold retargetSchema
  cases href : p.refName? with
  | none => exact .same href
  | some a =>
    exact .ref href (p.follows_retarget h) (Option.rel_map fun s _ => m.exchanges_renameIn a s)

theorem BodyParam.rewrites_retarget (b : BodyParam) (h : ∀ n ∈ b.schema.refs, R n (m.target n)) :
    b.Rewrites R m (b.retarget m) where
  name := rfl
  required := rfl
  schema := b.schema.follows_retarget h
  naming a ha := by
    rw [retarget, ha]
    exact Option.rel_map fun s _ => m.exchanges_renameIn a s
  other hother := by
    rw [retarget]
    split
    · next a ha => exact absurd ha (hother a)
    · rfl

theorem Parameter.rewrites_retarget (p : Parameter) (h : ∀ n ∈ p.refs, R n (m.target n)) :
    p.Rewrites R m (p.retarget m) := by
  cases p with
  | body b => exact .body (b.rewrites_retarget h)
  | path p => exact .path p

theorem Response.rewrites_retarget (r : Response) (h : ∀ n ∈ r.refs, R n (m.target n)) :
    r.Rewrites R m (r.retarget m) where
  schema := Option.rel_map fun p hp => p.rewrites_retargetSchema fun n hn =>
    h n (List.mem_flatMap.2 ⟨p, Option.mem_toList.2 hp, hn⟩)
  naming a ha := by
    rw [retarget, ha]
    exact m.exchanges_renameIn a r.description
  other hother := by rw [retarget, hother]

theorem Operation.rewrites_retarget (hm : m.names.Pairwise (· < ·)) (o : Operation)
    (h : ∀ n ∈ o.refs, R n (m.target n)) : o.Rewrites R m (o.retarget m) where
  tags := rfl
  summary := rfl
  description := Option.rel_map fun s _ => AliasMap.exchangesFirst_retargetText hm s
  id := rfl
  parameters := List.forall₂_map_right_iff.2 (List.forall₂_same.2 fun p hp =>
    p.rewrites_retarget fun n hn =>
      h n (List.mem_append_left _ (List.mem_flatMap.2 ⟨p, hp, hn⟩)))
  responses := Table.rel_map fun r hr => r.rewrites_retarget fun n hn =>
    h n (List.mem_append_right _ (List.mem_flatMap.2 ⟨r, hr, hn⟩))

end operations

namespace Document

open AliasMap

theorem entries_collapseDefinitions (m : AliasMap) (t : Table Model) :
    (collapseDefinitions m t).entries =
      (t.entries.filter fun e => e.1 ∉ m.names).map fun e => (e.1, (e.2.retarget m).sort) := by
  simp only [collapseDefinitions, Table.map, Table.filterKeys, List.filter_map, List.map_map]
  rfl

theorem mem_refs_of_operation {d : Document} {i : PathItem} (hi : i ∈ d.paths.values)
    {method : Method} {o : Operation} (ho : i.get? method = some o) {n : String} (hn : n ∈ o.refs) :
    n ∈ d.refs := by
  have hoperation : o ∈ d.operations :=
    List.mem_flatMap.2 ⟨i, hi, List.mem_map.2 ⟨_, PathItem.mem_operations.2 ho, rfl⟩⟩
  exact mem_refs.2 (.inr ⟨o, hoperation, hn⟩)

/-- All references move along any relation that each of them has to its target, and nothing else
happens than is said of a rewritten document. -/
theorem rewrites_of_targets {R : String → String → Prop} (d : Document) (chains : Bool)
    (h : ∀ n ∈ d.refs, R n ((aliases chains d.table).target n)) :
    d.Rewrites R (aliases chains d.table) (d.collapse chains).1 where
  info := by rw [collapse_eq]; rfl
  host := by rw [collapse_eq]; rfl
  basePath := by rw [collapse_eq]; rfl
  consumes := by rw [collapse_eq]; rfl
  produces := by rw [collapse_eq]; rfl
  tags := by rw [collapse_eq]; rfl
  paths := by
    rw [collapse_eq]
    refine Table.rel_map fun i hi method => ?_
    rw [PathItem.get?_map]
    exact Option.rel_map fun o ho => o.rewrites_retarget (pairwise_names_aliases chains d.table)
      fun n hn => h n (mem_refs_of_operation hi ho hn)
  defined := by
    rw [collapse_eq]
    exact Option.isSome_map
  definitions := by
    rw [table_collapse, entries_collapseDefinitions]
    refine List.forall₂_map_right_iff.2 (List.forall₂_same.2 fun e he => ⟨rfl, _, ?_, Model.reordered_sort _⟩)
    have hdefinition : d.definition? e.1 = some e.2 :=
      (definition?_eq d e.1).trans (Table.get?_eq_some_iff.2 (List.mem_filter.1 he).1)
    exact e.2.follows_retarget fun n hn => h n (mem_refs.2 (.inl ⟨e.1, e.2, hdefinition, hn⟩))

/-- What collapsing changes, and that it changes nothing else. The aliases are the definitions that
are exactly one reference to another name; with chains they go to the end of theirs if there is one.
The definitions of no alias remain, and all references and texts are rewritten by the aliases. -/
theorem rewrites_collapse (d : Document) (chains : Bool) :
    let one := ofDefinitions d.table
    let m := aliases chains d.table
    (∀ a b, one.Step a b ↔ ∃ x, d.definition? a = some x ∧ x.aliasTarget? = some b ∧ b ≠ a) ∧
      (if chains then one.Closes m else m = one) ∧
      d.Rewrites m.Leads m (d.collapse chains).1 := by
  intro one m
  refine ⟨fun a b => ?_, ?_, d.rewrites_of_targets chains fun n _ => m.leads_target n⟩
  · rw [definition?_eq]
    exact step_ofDefinitions
  · cases chains with
    | true => exact closes_closed one
    | false => rfl

end Document

end YangApi
