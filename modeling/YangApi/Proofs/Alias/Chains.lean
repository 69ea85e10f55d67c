import Mathlib.Data.List.Nodup
import Mathlib.Tactic.ByContra
import YangApi.Alias
import YangApi.Proofs.Acyclic
import YangApi.Proofs.Table

/-! Chains of aliases. When no alias leads back to itself, following a chain ends at a name that is
no alias; every step takes a new alias, so the number of aliases bounds the steps. -/

namespace YangApi

namespace AliasMap

open Relation

variable {m m' : AliasMap} {a b : String}

/-- One step from an alias to what it stands for. -/
def Step (m : AliasMap) (a b : String) : Prop := m.get? a = some b

def Acyclic (m : AliasMap) : Prop := YangApi.Acyclic m.Step

def Flat (m : AliasMap) : Prop := ∀ a b, m.Step a b → b ∉ m.names

/-- `m'` takes the aliases of `m`, each to a name behind it that is none. -/
structure Settles (m m' : AliasMap) : Prop where
  names : m'.names = m.names
  chain : ∀ a b, m'.get? a = some b → TransGen m.Step a b
  ends : ∀ a b, m'.get? a = some b → b ∉ m.names

/-- `m'` takes the aliases of `m`, each along its chain, and to the end of it if there is one. -/
structure Closes (m m' : AliasMap) : Prop where
  names : m'.names = m.names
  chain : ∀ a b, m'.Step a b → TransGen m.Step a b
  ends : ∀ a b e, m'.Step a b → ReflTransGen m.Step a e → e ∉ m.names → b = e

theorem get?_eq_none_iff : m.get? a = none ↔ a ∉ m.names := by
  simp only [get?, names, Option.map_eq_none_iff, List.find?_eq_none, List.mem_map, not_exists,
    decide_eq_true_eq, not_and]

theorem mem_names_of_step (h : m.Step a b) : a ∈ m.names := by
  by_contra hn
  rw [Step, get?_eq_none_iff.2 hn] at h
  cases h

theorem get?_mapTargets (f : String → String → String) (m : AliasMap) (a : String) :
    get? (m.map fun e => (e.1, f e.1 e.2)) a = (m.get? a).map (f a) := by
  induction m with
  | nil => rfl
  | cons e m ih =>
    obtain ⟨k, t⟩ := e
    by_cases h : k = a
    · subst h
      simp [get?]
    · simpa [get?, h] using ih

theorem rightUnique_step : Relator.RightUnique m.Step := fun x y z hy hz => by
  have hsame : some y = some z := hy.symm.trans hz
  exact Option.some.inj hsame

theorem reaches_end {e : String} (h : ReflTransGen m.Step a e) (he : e ∉ m.names)
    (hb : ReflTransGen m.Step a b) : ReflTransGen m.Step b e := by
  obtain hbe | heb := ReflTransGen.total_of_right_unique rightUnique_step hb h
  · exact hbe
  · obtain rfl | ⟨x, hx, -⟩ := heb.cases_head
    · exact .refl
    · exact absurd (mem_names_of_step hx) he

theorem end_unique {x y : String} (hx : ReflTransGen m.Step a x) (hx' : x ∉ m.names)
    (hy : ReflTransGen m.Step a y) (hy' : y ∉ m.names) : x = y := by
  obtain rfl | ⟨z, hz, -⟩ := (reaches_end hx hx' hy).cases_head
  · rfl
  · exact absurd (mem_names_of_step hz) hy'

theorem not_transGen_of_end {e : String} (h : ReflTransGen m.Step a e) (he : e ∉ m.names) :
    ¬ TransGen m.Step a a := by
  intro hcycle
  obtain ⟨x, hx, -⟩ := TransGen.head'_iff.1 hcycle
  induction h using ReflTransGen.head_induction_on generalizing x with
  | refl => exact he (mem_names_of_step hx)
  | head hab hbe ih =>
    obtain ⟨y, hy, hback⟩ := TransGen.head'_iff.1 hcycle
    obtain rfl : _ = y := Option.some.inj (hab.symm.trans hy)
    have hcycle' := TransGen.tail' hback hab
    obtain ⟨z, hz, -⟩ := TransGen.head'_iff.1 hcycle'
    exact ih hcycle' z hz

theorem reaches_follow (steps : Nat) (seen : List String) (name : String) :
    ReflTransGen m.Step name (m.follow steps seen name) := by
  induction steps generalizing seen name with
  | zero => exact .refl
  | succ steps ih =>
    unfold follow
    split
    · exact .refl
    · next next hnext =>
      split
      · exact .refl
      · exact .head hnext (ih (name :: seen) next)

/-- Following a chain comes to its end if it meets no cycle: the names seen so far all lead to the
one at hand, so the next one cannot be among them. -/
theorem follow_spec (steps : Nat) (seen : List String) (name : String)
    (hm : ∀ b, ReflTransGen m.Step name b → ¬ TransGen m.Step b b)
    (hnodup : seen.Nodup) (hsub : seen ⊆ m.names) (hseen : ∀ s ∈ seen, TransGen m.Step s name)
    (hsteps : m.length ≤ steps + seen.length) :
    ReflTransGen m.Step name (m.follow steps seen name) ∧ m.follow steps seen name ∉ m.names := by
  induction steps generalizing seen name with
  | zero =>
    refine ⟨.refl, fun hname => ?_⟩
    have hnew : name ∉ seen := fun h => hm name .refl (hseen name h)
    have hlen := (List.nodup_cons.2 ⟨hnew, hnodup⟩).length_le_of_subset
      (List.cons_subset.2 ⟨hname, hsub⟩)
    simp only [names, List.length_map, List.length_cons] at hlen
    omega
  | succ steps ih =>
    unfold follow
    cases hnext : m.get? name with
    | none => exact ⟨.refl, get?_eq_none_iff.1 hnext⟩
    | some next =>
      have hstep : m.Step name next := hnext
      have hnew : next ∉ seen := fun h => hm next (.single hstep) ((hseen next h).tail hstep)
      have hname : name ∉ seen := fun h => hm name .refl (hseen name h)
      have hle : m.length ≤ steps + (name :: seen).length := by
        rw [List.length_cons]
        omega
      obtain ⟨hchain, hend⟩ := ih (name :: seen) next (fun b hb => hm b (.head hstep hb))
        (List.nodup_cons.2 ⟨hname, hnodup⟩)
        (List.cons_subset.2 ⟨mem_names_of_step hstep, hsub⟩)
        (List.forall_mem_cons.2 ⟨.single hstep, fun s hs => (hseen s hs).tail hstep⟩) hle
      simp only [hnew, if_false]
      exact ⟨.head hstep hchain, hend⟩

/-- What an alias stands for when chains are followed. -/
theorem follow_alias (hab : m.Step a b)
    (hm : ∀ x, ReflTransGen m.Step b x → ¬ TransGen m.Step x x) :
    ReflTransGen m.Step b (m.follow m.length [a] b) ∧ m.follow m.length [a] b ∉ m.names :=
  follow_spec m.length [a] b hm (List.nodup_singleton a)
    (List.cons_subset.2 ⟨mem_names_of_step hab, List.nil_subset _⟩)
    (fun s hs => List.mem_singleton.1 hs ▸ .single hab) (by simp)

theorem get?_closed (m : AliasMap) (a : String) :
    m.closed.get? a = (m.get? a).map fun b => m.follow m.length [a] b :=
  get?_mapTargets (fun a b => m.follow m.length [a] b) m a

/-- An alias goes to the end of its chain if there is one, whatever other chains do. -/
theorem target_closed_of_end {e : String} (hab : m.Step a b) (h : ReflTransGen m.Step b e)
    (he : e ∉ m.names) : m.closed.target a = e := by
  have hget : m.get? a = some b := hab
  obtain ⟨hchain, hend⟩ := follow_alias hab fun x hx =>
    not_transGen_of_end (reaches_end h he hx) he
  rw [target, get?_closed, hget, Option.map_some, Option.getD_some]
  exact end_unique hchain hend h he

theorem names_closed (m : AliasMap) : m.closed.names = m.names := by
  simp [closed, names, Function.comp_def]

theorem closes_closed (m : AliasMap) : m.Closes m.closed where
  names := m.names_closed
  chain a b hb := by
    rw [Step, get?_closed] at hb
    obtain ⟨t, ht, rfl⟩ := Option.map_eq_some_iff.1 hb
    exact .head' ht (reaches_follow m.length [a] t)
  ends a b e hb h he := by
    obtain ⟨t, ht, -⟩ := Option.map_eq_some_iff.1 ((get?_closed m a).symm.trans hb)
    have htarget := target_closed_of_end ht (reaches_end h he (.single ht)) he
    rwa [target, hb, Option.getD_some] at htarget

theorem Acyclic.settles (hm : m.Acyclic) : m.Settles m.closed := by
  have hspec : ∀ a b, m.closed.get? a = some b → TransGen m.Step a b ∧ b ∉ m.names := by
    intro a b hb
    rw [get?_closed] at hb
    obtain ⟨t, ht, rfl⟩ := Option.map_eq_some_iff.1 hb
    have hstep : m.Step a t := ht
    obtain ⟨hchain, hend⟩ := follow_alias hstep fun x _ => hm x
    exact ⟨.head' hstep hchain, hend⟩
  exact ⟨m.names_closed, fun a b hb => (hspec a b hb).1, fun a b hb => (hspec a b hb).2⟩

theorem Flat.settles (hm : m.Flat) : m.Settles m :=
  ⟨rfl, fun _ _ h => .single h, hm⟩

/-- A settled target is where the chain from a name ends, the name itself if it is no alias. -/
theorem Settles.target_spec (h : m.Settles m') (a : String) :
    ReflTransGen m.Step a (m'.target a) ∧ m'.target a ∉ m.names := by
  unfold target
  cases ht : m'.get? a with
  | none =>
    rw [get?_eq_none_iff, h.names] at ht
    exact ⟨.refl, ht⟩
  | some b => exact ⟨(h.chain a b ht).to_reflTransGen, h.ends a b ht⟩

theorem names_sublist (es : List (String × Model)) :
    (names (es.filterMap entry?)).Sublist (es.map Prod.fst) := by
  induction es with
  | nil => exact List.Sublist.refl _
  | cons e es ih =>
    rw [List.filterMap_cons, List.map_cons]
    split
    · exact ih.cons _
    · next f hf =>
      have hkey : f.1 = e.1 := by
        unfold entry? at hf
        split at hf
        · split at hf
          · cases hf
          · cases hf
            rfl
        · cases hf
      rw [names, List.map_cons, hkey]
      exact ih.cons_cons _

theorem entry?_eq_some {e : String × Model} :
    entry? e = some (a, b) ↔ e.1 = a ∧ e.2.aliasTarget? = some b ∧ b ≠ a := by
  unfold entry?
  split
  · next t ht =>
    by_cases h : t = e.1
    · simp only [h, if_true, ht, reduceCtorEq, Option.some.injEq, false_iff, not_and, not_not]
      rintro rfl rfl
      trivial
    · simp only [h, if_false, ht, Option.some.injEq, Prod.mk.injEq]
      constructor
      · rintro ⟨rfl, rfl⟩
        exact ⟨rfl, rfl, h⟩
      · rintro ⟨rfl, rfl, -⟩
        exact ⟨rfl, rfl⟩
  · next ht => simp [ht]

theorem perm_ofDefinitions (t : Table Model) :
    (ofDefinitions t).Perm (t.entries.filterMap entry?) :=
  List.mergeSort_perm _ _

theorem nodup_names_ofDefinitions (t : Table Model) : (ofDefinitions t).names.Nodup :=
  ((perm_ofDefinitions t).map Prod.fst).nodup_iff.2 ((names_sublist t.entries).nodup t.nodup)

theorem step_iff_mem (hm : m.names.Nodup) : m.Step a b ↔ (a, b) ∈ m := by
  rw [← Table.find?_key_eq_some hm, Step, get?, Option.map_eq_some_iff]
  constructor
  · rintro ⟨⟨k, c⟩, hfind, rfl⟩
    have hk : k = a := by simpa using List.find?_some hfind
    exact hk ▸ hfind
  · exact fun h => ⟨_, h, rfl⟩

/-- An alias is a definition that is exactly one reference to another name. -/
theorem step_ofDefinitions {t : Table Model} :
    (ofDefinitions t).Step a b ↔ ∃ d, t.get? a = some d ∧ d.aliasTarget? = some b ∧ b ≠ a := by
  rw [step_iff_mem (nodup_names_ofDefinitions t), (perm_ofDefinitions t).mem_iff,
    List.mem_filterMap]
  constructor
  · rintro ⟨e, he, hentry⟩
    obtain ⟨rfl, ht, hne⟩ := entry?_eq_some.1 hentry
    exact ⟨e.2, Table.get?_eq_some_iff.2 he, ht, hne⟩
  · rintro ⟨d, hd, ht, hne⟩
    exact ⟨(a, d), Table.get?_eq_some_iff.1 hd, entry?_eq_some.2 ⟨rfl, ht, hne⟩⟩

theorem step_of_aliasTarget? {t : Table Model} (h : (t.get? a).bind Model.aliasTarget? = some b)
    (hne : b ≠ a) : (ofDefinitions t).Step a b := by
  obtain ⟨x, hx, hb⟩ := Option.bind_eq_some_iff.1 h
  exact step_ofDefinitions.2 ⟨x, hx, hb, hne⟩

theorem notMem_names_of_aliasTarget? {t : Table Model}
    (h : (t.get? a).bind Model.aliasTarget? = none) : a ∉ (ofDefinitions t).names := by
  rw [← get?_eq_none_iff, Option.eq_none_iff_forall_ne_some]
  intro b hb
  obtain ⟨x, hx, hab, -⟩ := step_ofDefinitions.1 hb
  rw [hx, Option.bind_some, hab] at h
  cases h

theorem ofDefinitions_of_isEmpty {t : Table Model} (h : t.isEmpty) : ofDefinitions t = [] := by
  have hentries : t.entries = [] := by simpa [Table.isEmpty] using h
  simp [ofDefinitions, hentries, sorted]

theorem acyclic_of_rank {t : Table Model} (rank : String → Nat)
    (h : ∀ e ∈ t.entries.filterMap entry?, rank e.2 < rank e.1) : (ofDefinitions t).Acyclic := by
  refine YangApi.Acyclic.of_rank rank ?_
  intro a b hab
  obtain ⟨d, hd, ht, hne⟩ := step_ofDefinitions.1 hab
  have hentry : entry? (a, d) = some (a, b) := entry?_eq_some.2 ⟨rfl, ht, hne⟩
  exact h (a, b) (List.mem_filterMap.2 ⟨_, Table.get?_eq_some_iff.1 hd, hentry⟩)

end AliasMap

namespace Document

open AliasMap

/-- The condition under which collapsing aliases keeps what a document says. -/
def Collapsible (chains : Bool) (t : Table Model) : Prop :=
  if chains then (ofDefinitions t).Acyclic else (ofDefinitions t).Flat

theorem Collapsible.settles {chains : Bool} {t : Table Model} (h : Collapsible chains t) :
    (ofDefinitions t).Settles (aliases chains t) := by
  cases chains with
  | false => exact Flat.settles h
  | true => exact Acyclic.settles h

end Document

end YangApi
