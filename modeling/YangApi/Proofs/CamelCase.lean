import YangApi.Proofs.Naming

/-! Names in camel case: ASCII letters and digits only, and no small letter at the start. Whatever is
put together from names in camel case and numbers is one again. -/

namespace YangApi

/-- ASCII letters and digits, the first of them no small letter; there may be none at all. -/
structure IsCamel (s : String) : Prop where
  chars : ∀ c ∈ s.toList, c.isAlphanum
  first : ∀ c, s.toList.head? = some c → ¬ c.isLower

section casing

variable {c : Char}

theorem isLower_iff : c.isLower ↔ 'a'.val ≤ c.val ∧ c.val ≤ 'z'.val := by
  have hbounds : c.isLower = (decide ('a'.val ≤ c.val) && decide (c.val ≤ 'z'.val)) := rfl
  rw [hbounds, Bool.and_eq_true, decide_eq_true_eq, decide_eq_true_eq]

theorem isLower_iff_toNat : c.isLower ↔ 97 ≤ c.toNat ∧ c.toNat ≤ 122 := isLower_iff

theorem isUpper_iff_toNat : c.isUpper ↔ 65 ≤ c.toNat ∧ c.toNat ≤ 90 := by
  have hbounds : c.isUpper = decide (65 ≤ c.toNat ∧ c.toNat ≤ 90) := rfl
  rw [hbounds, decide_eq_true_eq]

theorem isAlphanum_eq (c : Char) : c.isAlphanum = (c.isUpper || c.isLower || c.isDigit) := rfl

theorem not_isLower_of_isDigit (h : c.isDigit) : ¬ c.isLower := by
  have hzero : '0'.toNat = 48 := rfl
  have hnine : '9'.toNat = 57 := rfl
  rw [Char.isDigit_iff_toNat] at h
  rw [isLower_iff_toNat]
  omega

theorem toUpper_eq_self (h : ¬ c.isLower) : c.toUpper = c :=
  dif_neg fun hbounds => h (isLower_iff.2 hbounds)

theorem toNat_toUpper (h : c.isLower) : c.toUpper.toNat = c.toNat - 32 := by
  have hbounds := isLower_iff_toNat.1 h
  have hchar : c.toUpper = ⟨c.val + ('A'.val - 'a'.val), _⟩ := dif_pos (isLower_iff.1 h)
  rw [← Char.toNat_val, ← Char.toNat_val, hchar]
  rw [← Char.toNat_val] at hbounds
  simp only [UInt32.toNat_add, Char.reduceVal, UInt32.reduceSub, UInt32.reduceToNat]
  omega

theorem isUpper_toUpper (h : c.isLower) : c.toUpper.isUpper := by
  have hbounds := isLower_iff_toNat.1 h
  rw [isUpper_iff_toNat, toNat_toUpper h]
  omega

theorem toUpper_inj {d : Char} (hc : c.isLower) (hd : d.isLower) (h : c.toUpper = d.toUpper) :
    c = d := by
  have hcode := congrArg Char.toNat h
  rw [toNat_toUpper hc, toNat_toUpper hd] at hcode
  have hcbounds := isLower_iff_toNat.1 hc
  have hdbounds := isLower_iff_toNat.1 hd
  exact Char.toNat_inj.1 (by omega)

theorem not_isLower_toUpper (c : Char) : ¬ c.toUpper.isLower := by
  by_cases h : c.isLower
  · have hupper := isUpper_iff_toNat.1 (isUpper_toUpper h)
    rw [isLower_iff_toNat]
    omega
  · rwa [toUpper_eq_self h]

theorem isAlphanum_toUpper (h : c.isAlphanum) : c.toUpper.isAlphanum := by
  by_cases hlower : c.isLower
  · simp [isAlphanum_eq, isUpper_toUpper hlower]
  · rwa [toUpper_eq_self hlower]

end casing

theorem isAlphanum_of_mem_camelChars {start : Bool} {cs : List Char} {c : Char}
    (h : c ∈ camelChars start cs) : c.isAlphanum := by
  induction cs generalizing start with
  | nil => cases h
  | cons d cs ih =>
    unfold camelChars at h
    split at h
    · next hd =>
      rcases List.mem_cons.1 h with rfl | h
      · split
        · exact isAlphanum_toUpper hd
        · exact hd
      · exact ih h
    · exact ih h

theorem not_isLower_of_head?_camelChars {cs : List Char} {c : Char}
    (h : (camelChars true cs).head? = some c) : ¬ c.isLower := by
  induction cs with
  | nil => cases h
  | cons d cs ih =>
    unfold camelChars at h
    split at h
    · simp only [if_true, List.head?_cons, Option.some.injEq] at h
      exact h ▸ not_isLower_toUpper d
    · exact ih h

theorem isCamel_camelCase (s : String) : IsCamel (camelCase s) where
  chars c hc := isAlphanum_of_mem_camelChars (by simpa [camelCase] using hc)
  first c hc := not_isLower_of_head?_camelChars (by simpa [camelCase] using hc)

theorem IsCamel.append {s t : String} (hs : IsCamel s) (ht : IsCamel t) : IsCamel (s ++ t) where
  chars c hc := by
    rw [String.toList_append, List.mem_append] at hc
    exact hc.elim (hs.chars c) (ht.chars c)
  first c hc := by
    rw [String.toList_append, List.head?_append] at hc
    cases hfirst : s.toList.head? with
    | none => exact ht.first c (by simpa [hfirst] using hc)
    | some d => exact hs.first c (by simpa [hfirst] using hc)

theorem isCamel_join {l : List String} (h : ∀ s ∈ l, IsCamel s) : IsCamel (String.join l) := by
  induction l with
  | nil => exact ⟨by simp, by simp⟩
  | cons s l ih =>
    rw [List.forall_mem_cons] at h
    rw [String.join_cons]
    exact h.1.append (ih h.2)

theorem isCamel_toString (n : Nat) : IsCamel (toString n) := by
  have hdigit : ∀ c ∈ (toString n).toList, c.isDigit := by
    intro c hc
    rw [Nat.toString_eq_repr, Nat.toList_repr] at hc
    exact Nat.isDigit_of_mem_toDigits (by decide) (by decide) hc
  refine ⟨fun c hc => ?_, fun c hc => ?_⟩
  · simp [isAlphanum_eq, hdigit c hc]
  · exact not_isLower_of_isDigit (hdigit c (List.mem_of_mem_head? hc))

theorem isCamel_firstNumbered {stem : String} (h : IsCamel stem) (taken : List String) :
    IsCamel (Text.firstNumbered stem taken) := by
  unfold Text.firstNumbered
  cases hfind : (Text.numbered stem taken).find? fun s => s ∉ taken with
  | none => exact h
  | some t =>
    obtain ⟨i, -, rfl⟩ := List.mem_map.1 (List.mem_of_find?_eq_some hfind)
    exact h.append (isCamel_toString _)

namespace Registry

theorem isCamel_of_mem_candidates {base s : String} (h : IsCamel base) {outer : List String}
    (hs : s ∈ candidates base outer) : IsCamel s := by
  induction outer generalizing base with
  | nil =>
    obtain rfl := List.mem_singleton.1 hs
    exact h
  | cons q qs ih =>
    rcases List.mem_cons.1 hs with rfl | hs
    · exact h
    · exact ih ((isCamel_camelCase q).append h) hs

theorem isCamel_choose {base : String} (h : IsCamel base) (taken outer : List String) :
    IsCamel (choose taken base outer) := by
  unfold choose
  dsimp only
  split
  · next s hfind => exact isCamel_of_mem_candidates h (List.mem_of_find?_eq_some hfind)
  · refine isCamel_firstNumbered ?_ taken
    rw [List.getLastD_eq_getLast?]
    cases hlast : (candidates base outer).getLast? with
    | none => exact h
    | some s => exact isCamel_of_mem_candidates h (List.mem_of_getLast? hlast)

def Camel (r : Registry) : Prop := ∀ p n, r.get? p = some n → IsCamel n

theorem camel_empty : empty.Camel := by
  intro p n hn
  simp [get?, empty] at hn

theorem Camel.assign {r : Registry} (hr : r.Camel) (key : SchemaPath) {base : String}
    (hbase : IsCamel base) (qualifiers : List String) :
    (r.assign key base qualifiers).1.Camel := by
  intro p n hn
  unfold Registry.assign at hn
  split at hn
  · exact hr p n hn
  · rw [get?_cons] at hn
    split at hn
    · obtain rfl := Option.some.inj hn
      exact isCamel_choose hbase _ _
    · exact hr p n hn

end Registry

end YangApi
