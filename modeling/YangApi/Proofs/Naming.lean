import Mathlib.Tactic.ByContra
import YangApi.Naming

/-! Names are given once and to one path only: assigning keeps every name, and a new name is one
that no path had. -/

namespace YangApi

namespace Text

theorem numbered_inj (stem : String) {i j : Nat}
    (h : stem ++ toString (i + 2) = stem ++ toString (j + 2)) : i = j := by
  have hl := congrArg String.toList h
  rw [String.toList_append, String.toList_append] at hl
  have hd := congrArg (fun ds => Nat.ofDigitChars 10 ds 0) (List.append_cancel_left hl)
  simp only [Nat.toString_eq_repr, Nat.toList_repr, Nat.ofDigitChars_ten_toDigits] at hd
  omega

theorem nodup_numbered (stem : String) (taken : List String) : (numbered stem taken).Nodup := by
  unfold numbered List.Nodup
  rw [List.pairwise_map]
  refine List.nodup_range.imp ?_
  intro i j hij h
  exact hij (numbered_inj stem h)

theorem exists_free_numbered (stem : String) (taken : List String) :
    ∃ s ∈ numbered stem taken, s ∉ taken := by
  by_contra hall
  have hsub : numbered stem taken ⊆ taken := by
    intro s hs
    by_contra hn
    exact hall ⟨s, hs, hn⟩
  have hlen := (nodup_numbered stem taken).length_le_of_subset hsub
  simp only [numbered, List.length_map, List.length_range] at hlen
  omega

theorem firstNumbered_notMem (stem : String) (taken : List String) :
    firstNumbered stem taken ∉ taken := by
  obtain ⟨s, hs, hfree⟩ := exists_free_numbered stem taken
  unfold firstNumbered
  cases h : (numbered stem taken).find? fun s => s ∉ taken with
  | none => exact absurd hfree (by simpa using List.find?_eq_none.1 h s hs)
  | some t => simpa using List.find?_some h

end Text

namespace Registry

def Within (r r' : Registry) : Prop := ∀ p n, r.get? p = some n → r'.get? p = some n

def Distinct (r : Registry) : Prop := ∀ p q n, r.get? p = some n → r.get? q = some n → p = q

theorem Within.refl (r : Registry) : Within r r := fun _ _ h => h

theorem Within.trans {r s t : Registry} (h : Within r s) (h' : Within s t) : Within r t :=
  fun p n hp => h' p n (h p n hp)

theorem distinct_empty : empty.Distinct := by
  intro p q n hp
  simp [get?, empty] at hp

theorem mem_taken {r : Registry} {p : SchemaPath} {n : String} (h : r.get? p = some n) :
    n ∈ r.taken := by
  obtain ⟨e, he, rfl⟩ := Option.map_eq_some_iff.1 h
  exact List.mem_map.2 ⟨e, List.mem_of_find?_eq_some he, rfl⟩

theorem choose_notMem (taken : List String) (base : String) (outer : List String) :
    choose taken base outer ∉ taken := by
  unfold choose
  dsimp only
  split
  · next s h => simpa using List.find?_some h
  · exact Text.firstNumbered_notMem _ _

theorem get?_cons (r : Registry) (key p : SchemaPath) (n : String) :
    get? ⟨(key, n) :: r.assigned⟩ p = if key = p then some n else r.get? p := by
  by_cases h : key = p <;> simp [get?, h]

theorem assign_eq {r : Registry} {key : SchemaPath} {name : String} (h : r.get? key = some name)
    (base : String) (qualifiers : List String) : r.assign key base qualifiers = (r, name) := by
  simp [assign, h]

theorem assign_cases (r : Registry) (key : SchemaPath) (base : String) (qualifiers : List String) :
    (∃ name, r.get? key = some name ∧ r.assign key base qualifiers = (r, name)) ∨
      ∃ name, r.get? key = none ∧ name ∉ r.taken ∧
        r.assign key base qualifiers = (⟨(key, name) :: r.assigned⟩, name) := by
  cases h : r.get? key with
  | some name => exact .inl ⟨name, rfl, assign_eq h base qualifiers⟩
  | none => exact .inr ⟨_, rfl, choose_notMem _ base qualifiers.reverse, by simp [assign, h]⟩

theorem get?_assign (r : Registry) (key : SchemaPath) (base : String) (qualifiers : List String) :
    (r.assign key base qualifiers).1.get? key = some (r.assign key base qualifiers).2 := by
  obtain ⟨name, h, e⟩ | ⟨name, -, -, e⟩ := assign_cases r key base qualifiers
  · rw [e]
    exact h
  · rw [e, get?_cons, if_pos rfl]

theorem within_assign (r : Registry) (key : SchemaPath) (base : String) (qualifiers : List String) :
    Within r (r.assign key base qualifiers).1 := by
  intro p n hp
  obtain ⟨name, -, e⟩ | ⟨name, h, -, e⟩ := assign_cases r key base qualifiers
  · rwa [e]
  · rw [e, get?_cons, if_neg]
    · exact hp
    · rintro rfl
      simp [h] at hp

theorem Distinct.assign {r : Registry} (hr : r.Distinct) (key : SchemaPath) (base : String)
    (qualifiers : List String) : (r.assign key base qualifiers).1.Distinct := by
  obtain ⟨name, -, e⟩ | ⟨name, -, hfree, e⟩ := assign_cases r key base qualifiers
  · rwa [e]
  · rw [e]
    intro p q n hp hq
    rw [get?_cons] at hp hq
    split at hp <;> split at hq
    · next hp' hq' => exact hp'.symm.trans hq'
    · next hp' hq' =>
      cases hp
      exact absurd (mem_taken hq) hfree
    · next hp' hq' =>
      cases hq
      exact absurd (mem_taken hp) hfree
    · exact hr p q n hp hq

end Registry

end YangApi
