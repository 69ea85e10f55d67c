import YangApi.Proofs.Visit

/-! Which modules a run goes through: those that were named, each where it was named first. -/

namespace YangApi

namespace Text

variable {α : Type} [DecidableEq α]

theorem foldl_pushNew (xs seen : List α) :
    xs.foldl pushNew seen = seen ++ (distinct xs).filter fun x => x ∉ seen := by
  induction xs using List.reverseRecOn with
  | nil => simp [distinct]
  | append_singleton xs x ih =>
    have hlast : distinct (xs ++ [x]) = pushNew (distinct xs) x := by simp [distinct]
    rw [List.foldl_append, List.foldl_cons, List.foldl_nil, ih, hlast]
    unfold pushNew
    by_cases hseen : x ∈ seen <;> by_cases hx : x ∈ distinct xs <;> simp [hseen, hx]

theorem distinct_cons (x : α) (xs : List α) :
    distinct (x :: xs) = x :: (distinct xs).filter fun y => y ≠ x := by
  have hrest := foldl_pushNew xs [x]
  simpa [distinct, pushNew] using hrest

end Text

namespace Generator

theorem names_of_select {c : Context} {names : List String} {ms : List (Module Resolved)}
    (h : select c names = .ok ms) : ms.map Module.name = Text.distinct names := by
  induction names generalizing ms with
  | nil =>
    cases h
    rfl
  | cons name names ih =>
    unfold select at h
    split at h
    · cases h
    · next m hfind =>
      obtain ⟨rest, hrest, h⟩ := bind_eq_ok.1 h
      obtain rfl := pure_eq_ok.1 h
      have hname : m.name = name := by simpa using List.find?_some hfind
      rw [Text.distinct_cons, ← ih hrest, List.map_cons, hname, List.filter_map]
      rfl

theorem moduleNames_of_ofNames {c : Context} {names : List String} {config : Config} {g : Generator}
    (h : ofNames c names config = .ok g) : g.moduleNames = Text.distinct names := by
  obtain ⟨modules, hmodules, h⟩ := bind_eq_ok.1 h
  dsimp only at h
  split at h
  · cases h
  · obtain rfl := pure_eq_ok.1 h
    obtain ⟨-, -, hms⟩ := addAllTags_fields { context := c, modules, config }
      (config.tags.map config.tagRule)
    rw [moduleNames, hms, names_of_select hmodules]

end Generator

end YangApi
