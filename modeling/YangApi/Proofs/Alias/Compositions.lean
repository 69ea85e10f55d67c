import Mathlib.Order.WithBot
import YangApi.Proofs.Alias.Rewriting
import YangApi.Proofs.Run

/-! The order of compositions. Collapsing aliases sorts the parts of every composition, and its
interfaces on their own; no element is lost, and equal ones keep their order. So interfaces that
were the references of the parts still are, also where aliases have made names equal. -/

namespace YangApi

section sorting

variable {α β : Type} [LE β] [DecidableEq β]

/-- The same elements in the order of their ranks; those of one rank stand as they stood. -/
structure StablySorted (rank : α → β) (l l' : List α) : Prop where
  perm : l'.Perm l
  sorted : l'.Pairwise fun a b => rank a ≤ rank b
  stable : ∀ r, (l'.filter fun a => rank a = r) = l.filter fun a => rank a = r

theorem filter_eq_of_perm {l l' : List α} (h : l'.Perm l) {p : α → Bool} {b : α}
    (hsame : ∀ a, p a → a = b) : l'.filter p = l.filter p := by
  have hall : ∀ as : List α, as.filter p = List.replicate (as.filter p).length b := fun as =>
    List.eq_replicate_of_mem fun a ha => hsame a (List.mem_filter.1 ha).2
  rw [hall l', hall l, (h.filter p).length_eq]

end sorting

theorem exists_of_forall₂ {α β : Type} {R : α → β → Prop} {l : List α} {l' : List β}
    (h : List.Forall₂ R l l') {b : β} (hb : b ∈ l') : ∃ a ∈ l, R a b := by
  induction h with
  | nil => cases hb
  | cons hab _ ih =>
    rcases List.mem_cons.1 hb with rfl | hb
    · exact ⟨_, List.mem_cons_self .., hab⟩
    · obtain ⟨a, ha, hab⟩ := ih hb
      exact ⟨a, List.mem_cons_of_mem _ ha, hab⟩

theorem exists_of_rel_some {α β : Type} {R : α → β → Prop} {x : Option α} {b : β}
    (h : Option.Rel R x (some b)) : ∃ a, x = some a ∧ R a b := by
  cases h with
  | some h => exact ⟨_, rfl, h⟩

def Model.rank : Model → WithBot String
  | .ref n => n
  | _ => ⊥

theorem Model.rank_eq_bot_iff {p : Model} : p.rank = ⊥ ↔ !p.isRef := by
  cases p <;> simp [rank, isRef, refName?]

theorem Model.eq_ref_of_rank {p : Model} {n : String} (h : p.rank = n) : p = .ref n := by
  cases p with
  | ref k => exact congrArg Model.ref (WithBot.coe_inj.1 h)
  | plain m => cases h
  | composed d parts names => cases h

theorem Model.rank_le_of_before {p q : Model} (h : p.Before q) : p.rank ≤ q.rank := by
  cases p with
  | ref n =>
    cases q with
    | ref k => exact WithBot.coe_le_coe.2 h
    | plain m => cases h
    | composed d parts names => cases h
  | plain m => exact bot_le
  | composed d parts names => exact bot_le

theorem Model.stablySorted_arrange (parts : List Model) :
    StablySorted rank parts (arrange parts) where
  perm := arrange_perm parts
  sorted := (arranged_arrange parts).sorted.imp rank_le_of_before
  stable r := by
    cases r with
    | bot =>
      simp only [rank_eq_bot_iff, Bool.decide_eq_true]
      exact filter_inline_arrange parts
    | coe n => exact filter_eq_of_perm (arrange_perm parts) fun p hp =>
        eq_ref_of_rank (of_decide_eq_true hp)

theorem stablySorted_sortNames (names : List String) : StablySorted id names (sortNames names) where
  perm := sortNames_perm names
  sorted := pairwise_sortNames names
  stable _ := filter_eq_of_perm (sortNames_perm names) fun _ h => of_decide_eq_true h

/-- A definition, or a part of one, that is composed. -/
structure Composition where
  description : Option String
  parts : List Model
  interfaces : List String

mutual

/-- The compositions of a definition at every depth, each before those inside it. -/
def Model.compositions : Model → List Composition
  | .composed d parts interfaces => ⟨d, parts, interfaces⟩ :: Model.compositionsAll parts
  | _ => []

def Model.compositionsAll : List Model → List Composition
  | [] => []
  | p :: ps => p.compositions ++ Model.compositionsAll ps

end

namespace Model

theorem compositionsAll_eq (ps : List Model) : compositionsAll ps = ps.flatMap compositions := by
  induction ps with
  | nil => rfl
  | cons p ps ih => rw [compositionsAll, List.flatMap_cons, ih]

theorem compositions_of_isRef {p : Model} (h : p.isRef) : p.compositions = [] := by
  cases p with
  | ref n => rfl
  | plain m => rfl
  | composed d parts names => cases h

theorem compositionsAll_of_inline (ps : List Model) :
    compositionsAll (ps.filter fun p => !p.isRef) = compositionsAll ps := by
  induction ps with
  | nil => rfl
  | cons p ps ih =>
    by_cases h : p.isRef
    · simp [h, ih, compositionsAll, compositions_of_isRef h]
    · simp [h, ih, compositionsAll]

theorem compositionsAll_arrange (ps : List Model) :
    compositionsAll (arrange ps) = compositionsAll ps := by
  rw [← compositionsAll_of_inline (arrange ps), filter_inline_arrange, compositionsAll_of_inline]

end Model

namespace Composition

/-- The interfaces are the references of the parts, one by one. -/
def InStep (c : Composition) : Prop := c.interfaces = c.parts.filterMap Model.refName?

/-- What collapsing makes of a composition when references move along `R`: each part and each
interface is rewritten in its place, and then both lists are sorted. -/
structure Collapses (R : String → String → Prop) (c c' : Composition) : Prop where
  description : c'.description = c.description
  parts : ∃ mid, List.Forall₂ (fun p q => ∃ x, p.Follows R x ∧ x.Reordered q) c.parts mid ∧
    StablySorted Model.rank mid c'.parts
  interfaces : ∃ mid, List.Forall₂ R c.interfaces mid ∧ StablySorted id mid c'.interfaces
  inStep : c.InStep → c'.InStep

end Composition

namespace Model

theorem refName?_sort_retarget (m : AliasMap) (p : Model) :
    (p.retarget m).sort.refName? = p.refName?.map m.target := by
  cases p <;> rfl

/-- The references of a list in order are its names in order, whatever stands between them. -/
theorem filterMap_refName?_arrange (ps : List Model) :
    (arrange ps).filterMap refName? = sortNames (ps.filterMap refName?) := by
  have hrefs : ∀ qs : List Model, (∀ p ∈ qs, p.isRef) →
      qs.filterMap refName? = qs.map fun p => p.refName?.getD "" := by
    intro qs hqs
    rw [← List.filterMap_eq_map]
    refine List.filterMap_congr fun p hp => ?_
    obtain ⟨n, hn⟩ := Option.isSome_iff_exists.1 (hqs p hp)
    simp [hn]
  have hfilter : ∀ qs : List Model,
      (qs.filter isRef).filterMap refName? = qs.filterMap refName? := by
    intro qs
    rw [List.filterMap_filter]
    refine List.filterMap_congr fun p _ => ?_
    cases p <;> rfl
  rw [← hfilter, filter_refs_arrange, ← hfilter ps, hrefs _ fun p hp => isRef_of_mem_mergeSort hp,
    hrefs _ fun p hp => (List.mem_filter.1 hp).2]
  exact List.map_mergeSort fun p _ q _ => nameLe_eq p q

variable {R : String → String → Prop} {m : AliasMap}

theorem collapses_sort_retarget (hR : ∀ n, R n (m.target n)) (d : Option String)
    (parts : List Model) (names : List String) :
    Composition.Collapses R ⟨d, parts, names⟩
      ⟨d, arrange (sortAll (retargetAll m parts)), sortNames (names.map m.target)⟩ where
  description := rfl
  parts := by
    refine ⟨_, ?_, stablySorted_arrange _⟩
    rw [sortAll_eq, retargetAll_eq, List.map_map]
    refine List.forall₂_map_right_iff.2 (List.forall₂_same.2 fun p _ => ?_)
    exact ⟨_, p.follows_retarget fun n _ => hR n, reordered_sort _⟩
  interfaces := by
    refine ⟨_, ?_, stablySorted_sortNames _⟩
    exact List.forall₂_map_right_iff.2 (List.forall₂_same.2 fun n _ => hR n)
  inStep h := by
    have hstep : names = parts.filterMap refName? := h
    have hrefs : (sortAll (retargetAll m parts)).filterMap refName? =
        (parts.filterMap refName?).map m.target := by
      rw [sortAll_eq, retargetAll_eq, List.map_map, List.filterMap_map, List.map_filterMap]
      exact List.filterMap_congr fun p _ => refName?_sort_retarget m p
    rw [Composition.InStep, filterMap_refName?_arrange, hrefs, hstep]

mutual

theorem forall₂_compositions (hR : ∀ n, R n (m.target n)) : ∀ x : Model,
    List.Forall₂ (Composition.Collapses R) x.compositions (x.retarget m).sort.compositions
  | .ref _ => .nil
  | .plain _ => .nil
  | .composed d parts names => by
    refine .cons (collapses_sort_retarget hR d parts names) ?_
    rw [compositionsAll_arrange]
    exact Model.forall₂_compositionsAll hR parts

theorem forall₂_compositionsAll (hR : ∀ n, R n (m.target n)) : ∀ xs : List Model,
    List.Forall₂ (Composition.Collapses R) (compositionsAll xs)
      (compositionsAll (sortAll (retargetAll m xs)))
  | [] => .nil
  | x :: xs => List.rel_append (Model.forall₂_compositions hR x)
      (Model.forall₂_compositionsAll hR xs)

end

end Model

/-- A site's definition is composed of the groupings it uses and of what is its own, and lists the
groupings as its interfaces. -/
theorem Site.inStep_model {c : Context} {name : SchemaPath → String} {s : Site} {x : Composition}
    (h : x ∈ (s.model c name).compositions) : x.InStep := by
  unfold Site.model at h
  dsimp only at h
  split at h
  · cases h
  · have hparts : ∀ p ∈ ((s.parents c).map name).map Model.ref ++
        (if (s.ownModel name).isEmpty then [] else [Model.plain (s.ownModel name)]),
        p.compositions = [] := by
      intro p hp
      rcases List.mem_append.1 hp with hp | hp
      · obtain ⟨n, -, rfl⟩ := List.mem_map.1 hp
        rfl
      · split at hp
        · cases hp
        · rw [List.mem_singleton.1 hp]
          rfl
    rw [Model.compositions, Model.compositionsAll_eq, List.flatMap_eq_nil_iff.2 hparts,
      List.mem_singleton] at h
    rw [h, Composition.InStep]
    split <;> simp [List.filterMap_map, Function.comp_def, Model.refName?]

namespace Document

theorem rel_compositions_collapse (d : Document) (chains : Bool) (k : String) :
    Option.Rel (fun x y =>
        List.Forall₂ (Composition.Collapses (aliases chains d.table).Leads) x.compositions
          y.compositions)
      (if k ∈ (aliases chains d.table).names then none else d.definition? k)
      ((d.collapse chains).1.definition? k) := by
  rw [definition?_eq, definition?_eq, get?_table_collapse, names_aliases]
  split
  · exact .none
  · exact Option.rel_map fun x _ =>
      Model.forall₂_compositions (fun n => AliasMap.leads_target _ n) x

end Document

/-- In every document that is collapsed the definitions of no alias remain, and the compositions of
the others, at every depth, are those that were: the parts and interfaces rewritten in their places
and then sorted by name, inline parts in front, without changing the order of equals. Interfaces
that were the references of the parts, in order, still are. In a generated document they always
are. -/
theorem compositions_sorted :
    (∀ (d : Document) (chains : Bool) (k : String),
      let m := Document.aliases chains d.table
      Option.Rel (fun x y =>
          List.Forall₂ (Composition.Collapses m.Leads) x.compositions y.compositions)
        (if k ∈ m.names then none else d.definition? k) ((d.collapse chains).1.definition? k)) ∧
      ∀ (g : Generator) (d : Document) (ws : List Warning), g.generate = .ok (d, ws) →
        ∀ k x, d.definition? k = some x → ∀ c ∈ x.compositions,
          (c.parts.Pairwise fun p q => p.rank ≤ q.rank) ∧ c.InStep := by
  refine ⟨Document.rel_compositions_collapse, fun g d ws hg k x hx c hc => ?_⟩
  obtain rfl := Generator.result_of_generate hg
  let draft : Document := { g.draft.document with info := g.info }
  have hrel := draft.rel_compositions_collapse g.config.collapseAliasChains k
  have hcollapsed : (draft.collapse g.config.collapseAliasChains).1.definition? k = some x := hx
  rw [hcollapsed] at hrel
  split at hrel
  · cases hrel
  · obtain ⟨y, hy, hcompositions⟩ := exists_of_rel_some hrel
    obtain ⟨site, -, -, rfl, -⟩ :=
      Generator.written_draft (g := g) (Site.Closed.all g.context) (fun _ _ => trivial) hy
    -- the composition was in step when its site was written
    obtain ⟨c₀, hc₀, hcollapses⟩ := exists_of_forall₂ hcompositions hc
    obtain ⟨mid, -, hsorted⟩ := hcollapses.parts
    exact ⟨hsorted.sorted, hcollapses.inStep (Site.inStep_model hc₀)⟩

/-- The list of orders uses the grouping of addresses, an alias, and has nodes of its own. -/
theorem compositions_sorted_shop : ∃ c g d ws x, Context.resolve shop = .ok c ∧
    Generator.ofNames c ["shop"] {} = .ok g ∧ g.generate = .ok (d, ws) ∧
    d.definition? "Order" = some x ∧ x.compositions.map (fun c => c.interfaces) = [["Place"]] ∧
    ∀ c ∈ x.compositions, (c.parts.Pairwise fun p q => p.rank ≤ q.rank) ∧ c.InStep := by
  obtain ⟨c, g, hresolve, hg⟩ := Generator.exists_run_shop {}
  obtain ⟨ws, hws⟩ := Generator.generate_of_ofNames hg (Config.fault?_of_choices ..)
  obtain ⟨x, hx, hinterfaces⟩ : ∃ x, g.result.definition? "Order" = some x ∧
      x.compositions.map (fun c => c.interfaces) = [["Place"]] := by
    refine Option.map_eq_some_iff.1 ?_
    cases hresolve
    cases hg
    decide +kernel
  exact ⟨c, g, g.result, ws, x, hresolve, hg, hws, hx, hinterfaces,
    compositions_sorted.2 g g.result ws hws "Order" x hx⟩

end YangApi
