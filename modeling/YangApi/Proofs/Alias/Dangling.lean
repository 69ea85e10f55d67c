import YangApi.Proofs.Alias.Rewriting

/-! Which references are left without a definition when aliases are collapsed. All aliases are
dropped, so a reference dangles where its target is an alias: with one level where an alias stands
for another one, with chains where following the aliases never comes to an end. -/

namespace YangApi

namespace AliasMap

open Relation

variable {m m' : AliasMap} {a b : String}

/-- Following the aliases from a name never leaves them. -/
def Circles (m : AliasMap) (a : String) : Prop := ∀ e, ReflTransGen m.Step a e → e ∈ m.names

/-- As there are finitely many aliases, this is to come into a cycle. -/
theorem circles_iff : m.Circles a ↔ ∃ c, ReflTransGen m.Step a c ∧ TransGen m.Step c c := by
  constructor
  · intro hcircles
    by_contra hnone
    obtain ⟨hreach, hend⟩ := follow_spec m.length [] a
      (fun c hc hcycle => hnone ⟨c, hc, hcycle⟩) List.nodup_nil (List.nil_subset _) (by simp) (by simp)
    exact hend (hcircles _ hreach)
  · rintro ⟨c, hc, hcycle⟩ e he
    by_contra hend
    exact not_transGen_of_end (reaches_end he hend hc) hend hcycle

namespace Closes

theorem reaches_target (h : m.Closes m') (a : String) : ReflTransGen m.Step a (m'.target a) := by
  unfold target
  cases ht : m'.get? a with
  | none => exact .refl
  | some b => exact (h.chain a b ht).to_reflTransGen

/-- An alias has an alias for its target only if its chain has no end. -/
theorem target_mem_names_iff (h : m.Closes m') : m'.target a ∈ m.names ↔ m.Circles a := by
  refine ⟨fun hmem e he => ?_, fun hcircles => hcircles _ (h.reaches_target a)⟩
  by_contra hend
  unfold target at hmem
  cases ht : m'.get? a with
  | none =>
    -- a name that is no alias is its own target
    rw [ht, Option.getD_none, ← h.names] at hmem
    exact get?_eq_none_iff.1 ht hmem
  | some b =>
    rw [ht, Option.getD_some, h.ends a b e ht he hend] at hmem
    exact hend hmem

end Closes

theorem target_mem_names_iff : m.target a ∈ m.names ↔ ∃ b, m.Step a b ∧ b ∈ m.names := by
  unfold target Step
  cases ht : m.get? a with
  | none =>
    have ha := get?_eq_none_iff.1 ht
    simp [ha]
  | some b => simp

end AliasMap

namespace Document

open AliasMap

variable {d : Document} {chains : Bool} {r : String}

theorem reaches_target_aliases (chains : Bool) (t : Table Model) (r : String) :
    Relation.ReflTransGen (ofDefinitions t).Step r ((aliases chains t).target r) := by
  cases chains with
  | true => exact (closes_closed _).reaches_target r
  | false =>
    rcases leads_target (ofDefinitions t) r with hstep | ⟨-, hsame⟩
    · exact .single hstep
    · have htarget : (aliases false t).target r = r := hsame
      rw [htarget]

/-- What a reference has become dangles if and only if it is an alias. -/
theorem Closed.dangles_iff (h : d.Closed) (hr : r ∈ d.refs) :
    ¬ (d.collapse chains).1.hasDefinition ((aliases chains d.table).target r) ↔
      (aliases chains d.table).target r ∈ (ofDefinitions d.table).names := by
  obtain ⟨x, hx⟩ := hasDefinition_iff.1
    (h.hasDefinition_of_reaches hr (reaches_target_aliases chains d.table r))
  rw [hasDefinition_iff, definition?_eq, get?_table_collapse, ← definition?_eq, hx]
  by_cases hname : (aliases chains d.table).target r ∈ (ofDefinitions d.table).names <;>
    simp [hname]

/-- In a document without dangling references, a reference dangles after aliases were collapsed if
and only if it was one to an alias and, with one level, that one stood for another alias or, with
chains, following the aliases never leaves them. To come into a cycle is all this can mean, so
without cycles every reference has its definition and none is one to an alias. -/
theorem Closed.dangling_collapse (h : d.Closed) (chains : Bool) :
    let m := ofDefinitions d.table
    let after := (d.collapse chains).1
    d.Rewrites (fun r r' => ¬ after.hasDefinition r' ↔ r ∈ m.names ∧
        if chains then m.Circles r else ∃ b, m.Step r b ∧ b ∈ m.names)
      (aliases chains d.table) after ∧
    (∀ r, m.Circles r ↔ ∃ c, Relation.ReflTransGen m.Step r c ∧ Relation.TransGen m.Step c c) ∧
    (chains → m.Acyclic → after.Closed ∧ ∀ r ∈ after.refs, r ∉ m.names) := by
  intro m after
  have hdangles : ∀ r ∈ d.refs, ¬ after.hasDefinition ((aliases chains d.table).target r) ↔
      r ∈ m.names ∧ if chains then m.Circles r else ∃ b, m.Step r b ∧ b ∈ m.names := by
    intro r hr
    rw [h.dangles_iff hr]
    cases chains with
    | true =>
      refine (closes_closed m).target_mem_names_iff.trans ?_
      exact ⟨fun hcircles => ⟨hcircles r .refl, hcircles⟩, And.right⟩
    | false =>
      refine m.target_mem_names_iff.trans ?_
      exact ⟨fun ⟨b, hb, hmem⟩ => ⟨mem_names_of_step hb, b, hb, hmem⟩, And.right⟩
  refine ⟨d.rewrites_of_targets chains hdangles, fun r => circles_iff, ?_⟩
  rintro rfl hm
  have hclosed : after.Closed := h.collapse hm
  exact ⟨hclosed, fun r hr hname => not_hasDefinition_collapse hname true (hclosed r hr)⟩

/-- Two aliases that stand for each other, with an item that leads to one of them. -/
def cycleOfTwo : Document :=
  let item : Plain := { properties := some (.ofList [("order", .ref "Order" none)]) }
  { definitions := some (.ofList [("Order", .composed none [.ref "Goods"] ["Goods"]),
      ("Goods", .composed none [.ref "Order"] ["Order"]), ("Item", .plain item)]) }

theorem dangling_collapse_cycleOfTwo : cycleOfTwo.Closed ∧
    cycleOfTwo.Rewrites (fun r r' => ¬ (cycleOfTwo.collapse true).1.hasDefinition r' ↔
        r ∈ (ofDefinitions cycleOfTwo.table).names ∧ (ofDefinitions cycleOfTwo.table).Circles r)
      (aliases true cycleOfTwo.table) (cycleOfTwo.collapse true).1 := by
  have hclosed : cycleOfTwo.Closed := by
    unfold Closed
    decide
  exact ⟨hclosed, (hclosed.dangling_collapse true).1⟩

end Document

end YangApi
