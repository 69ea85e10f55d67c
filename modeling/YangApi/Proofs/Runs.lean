import YangApi.Proofs.CamelCase

/-! Camel case by runs and by single characters. A run is a longest piece of a text made of ASCII
letters and digits; only what begins a run changes, and only what stands in none is left out. So the
texts in camel case are those that stay as they are, and any other sign cuts a text into two that
have nothing to do with each other. -/

namespace YangApi

namespace Text

/-- An ASCII letter or digit stands in the text. -/
def Worded (s : String) : Prop := ∃ c ∈ s.toList, c.isAlphanum

instance (s : String) : Decidable (Worded s) :=
  decidable_of_iff (s.toList.any Char.isAlphanum = true) List.any_eq_true

/-- What stands between the signs that are neither ASCII letters nor digits. -/
def runs (s : String) : List (List Char) :=
  (s.toList.splitOnP fun c => !c.isAlphanum).filter fun r => !r.isEmpty

def capitalized : List Char → List Char
  | [] => []
  | c :: cs => c.toUpper :: cs

/-- Every character with the one before it, if there is one. -/
def preceded (cs : List Char) : List (Option Char × Char) := (none :: cs.map some).zip cs

end Text

open Text

variable {cs ds : List Char} {c : Char} {start : Bool} {s : String}

theorem camelChars_cons (h : c.isAlphanum) (start : Bool) (cs : List Char) :
    camelChars start (c :: cs) = (if start then c.toUpper else c) :: camelChars false cs := by
  simp [camelChars, h]

theorem camelChars_cons_sign (h : ¬ c.isAlphanum) (start : Bool) (cs : List Char) :
    camelChars start (c :: cs) = camelChars true cs := by
  simp [camelChars, h]

/-- Behind a sign a text is read as if nothing stood before. -/
theorem camelChars_append_sign (h : ¬ c.isAlphanum) (start : Bool) (cs ds : List Char) :
    camelChars start (cs ++ c :: ds) = camelChars start cs ++ camelChars true ds := by
  induction cs generalizing start with
  | nil => exact camelChars_cons_sign h start ds
  | cons b cs ih =>
    rw [List.cons_append]
    by_cases hb : b.isAlphanum
    · rw [camelChars_cons hb, camelChars_cons hb, ih, List.cons_append]
    · rw [camelChars_cons_sign hb, camelChars_cons_sign hb, ih]

theorem camelChars_eq_nil_iff : camelChars start cs = [] ↔ ∀ c ∈ cs, ¬ c.isAlphanum := by
  induction cs generalizing start with
  | nil => simp [camelChars]
  | cons b cs ih =>
    by_cases hb : b.isAlphanum
    · simp [camelChars_cons hb, hb]
    · rw [camelChars_cons_sign hb, ih]
      simp [hb]

/-- Inside a run nothing changes. -/
theorem camelChars_false_of_forall (h : ∀ c ∈ cs, c.isAlphanum) : camelChars false cs = cs := by
  induction cs with
  | nil => rfl
  | cons b cs ih =>
    rw [List.forall_mem_cons] at h
    rw [camelChars_cons h.1, ih h.2]
    rfl

/-- The piece that a text begins with goes on a run if one has begun; all others are runs of their
own, or empty. -/
theorem camelChars_eq_splitOnP (start : Bool) (cs : List Char) : ∃ r rs,
    cs.splitOnP (fun c => !c.isAlphanum) = r :: rs ∧
      camelChars start cs = (if start then capitalized r else r) ++ rs.flatMap capitalized := by
  induction cs generalizing start with
  | nil => exact ⟨[], [], List.splitOnP_nil, by cases start <;> rfl⟩
  | cons b cs ih =>
    rw [List.splitOnP_cons_eq_if_modifyHead]
    by_cases hb : b.isAlphanum
    · obtain ⟨r, rs, hsplit, hchars⟩ := ih false
      refine ⟨b :: r, rs, by simp [hb, hsplit], ?_⟩
      rw [camelChars_cons hb, hchars]
      cases start <;> rfl
    · obtain ⟨r, rs, hsplit, hchars⟩ := ih true
      refine ⟨[], r :: rs, by simp [hb, hsplit], ?_⟩
      rw [camelChars_cons_sign hb, hchars]
      cases start <;> rfl

theorem flatMap_capitalized_filter (rs : List (List Char)) :
    (rs.filter fun r => !r.isEmpty).flatMap capitalized = rs.flatMap capitalized := by
  induction rs with
  | nil => rfl
  | cons r rs ih =>
    cases r with
    | nil => exact ih
    | cons c r =>
      rw [List.filter_cons_of_pos (by rfl), List.flatMap_cons, List.flatMap_cons, ih]

theorem camelCase_eq_runs (s : String) :
    camelCase s = String.ofList ((runs s).flatMap capitalized) := by
  obtain ⟨r, rs, hsplit, hchars⟩ := camelChars_eq_splitOnP true s.toList
  rw [camelCase, hchars, runs, flatMap_capitalized_filter, hsplit, List.flatMap_cons]
  rfl

/-- A character begins a run unless a letter or digit stands before it. -/
theorem camelChars_eq_preceded (before : Option Char) (cs : List Char) :
    camelChars (!before.any Char.isAlphanum) cs =
      (((before :: cs.map some).zip cs).filter fun e => e.2.isAlphanum).map fun e =>
        if e.1.any Char.isAlphanum then e.2 else e.2.toUpper := by
  induction cs generalizing before with
  | nil => rfl
  | cons b cs ih =>
    rw [List.map_cons, List.zip_cons_cons]
    by_cases hb : b.isAlphanum
    · rw [camelChars_cons hb, List.filter_cons_of_pos (by simpa using hb), List.map_cons, ← ih]
      cases before.any Char.isAlphanum <;> simp [hb]
    · rw [camelChars_cons_sign hb, List.filter_cons_of_neg (by simpa using hb), ← ih]
      simp [hb]

theorem camelCase_eq_preceded (s : String) :
    camelCase s = String.ofList
      (((preceded s.toList).filter fun e => e.2.isAlphanum).map fun e =>
        if e.1.any Char.isAlphanum then e.2 else e.2.toUpper) :=
  congrArg String.ofList (camelChars_eq_preceded none s.toList)

theorem camelCase_ne_empty_iff : camelCase s ≠ "" ↔ Worded s := by
  have hempty : camelCase s = "" ↔ camelChars true s.toList = [] := by
    rw [← String.toList_eq_nil_iff, camelCase, String.toList_ofList]
  rw [Ne, hempty, camelChars_eq_nil_iff]
  simp [Worded]

/-- Camel case leaves a text as it is exactly if the text is in camel case. -/
theorem camelCase_eq_self_iff : camelCase s = s ↔ IsCamel s := by
  refine ⟨fun h => h ▸ isCamel_camelCase s, fun h => ?_⟩
  rw [camelCase, ← String.toList_inj, String.toList_ofList]
  have hchars := h.chars
  cases hs : s.toList with
  | nil => rfl
  | cons c cs =>
    rw [hs, List.forall_mem_cons] at hchars
    have hfirst := h.first c (by rw [hs]; rfl)
    rw [camelChars_cons hchars.1, camelChars_false_of_forall hchars.2, if_pos rfl,
      toUpper_eq_self hfirst]

theorem camelCase_append_sign (h : ¬ c.isAlphanum) (s t : String) :
    camelCase (s ++ String.singleton c ++ t) = camelCase s ++ camelCase t := by
  rw [camelCase, String.toList_append, String.toList_append, String.toList_singleton,
    List.append_assoc, List.singleton_append, camelChars_append_sign h, String.ofList_append]
  rfl

end YangApi
