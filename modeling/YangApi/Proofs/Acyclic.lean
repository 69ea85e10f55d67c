import Mathlib.Data.Fintype.Card
import Mathlib.Data.Set.Finite.List
import Mathlib.Logic.Relation

/-! Relations without cycles. A rank that falls with every step shows that there are none; and where
only finitely many elements have a next one, a relation without cycles comes to an end. -/

namespace YangApi

open Relation

variable {α : Type} {r : α → α → Prop}

def Acyclic (r : α → α → Prop) : Prop := ∀ a, ¬ TransGen r a a

theorem Acyclic.of_rank (rank : α → Nat) (h : ∀ a b, r a b → rank b < rank a) : Acyclic r := by
  have htrans : ∀ a b, TransGen r a b → rank b < rank a := by
    intro a b hab
    induction hab with
    | single hab => exact h _ _ hab
    | tail _ hbc ih => exact Nat.lt_trans (h _ _ hbc) ih
  exact fun a ha => Nat.lt_irrefl _ (htrans a a ha)

theorem Acyclic.wellFounded (h : Acyclic r) (l : List α) (hl : ∀ a b, r a b → a ∈ l) :
    WellFounded (flip r) := by
  let r' : {a // a ∈ l} → {a // a ∈ l} → Prop := fun x y => TransGen r y.1 x.1
  have htrans : IsTrans _ r' := ⟨fun x y z hxy hyz => hyz.trans hxy⟩
  have hirrefl : Std.Irrefl r' := ⟨fun x hx => h x.1 hx⟩
  have hfinite : Finite {a // a ∈ l} := l.finite_toSet.to_subtype
  have hwf := Finite.wellFounded_of_trans_of_irrefl r'
  have hout : ∀ a, a ∉ l → Acc (flip r) a := fun a ha => ⟨_, fun b hb => absurd (hl a b hb) ha⟩
  have hin : ∀ x : {a // a ∈ l}, Acc (flip r) x.1 := by
    intro x
    induction x using hwf.induction with
    | _ x ih =>
      refine ⟨_, fun b hb => ?_⟩
      by_cases hbl : b ∈ l
      · exact ih ⟨b, hbl⟩ (.single hb)
      · exact hout b hbl
  refine ⟨fun a => ?_⟩
  by_cases ha : a ∈ l
  · exact hin ⟨a, ha⟩
  · exact hout a ha

end YangApi
