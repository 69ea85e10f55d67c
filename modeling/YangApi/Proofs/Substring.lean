import Mathlib.Data.List.Basic
import YangApi.Text

/-! Texts around an occurrence. A text that begins with a character which the text in front of it
does not have cannot begin there, so what is in front is passed over by the search and is left alone
by the replacement; the same goes for what is behind. -/

namespace YangApi.Text

section chars

variable {a : Char} {as new pre cs : List Char}

theorem isPrefixOf_cons_of_ne {c : Char} (h : a ≠ c) : (a :: as).isPrefixOf (c :: cs) = false := by
  simp [List.isPrefixOf, h]

theorem occursIn_append (h : a ∉ pre) : occursIn (a :: as) (pre ++ cs) = occursIn (a :: as) cs := by
  induction pre with
  | nil => rfl
  | cons c pre ih =>
    rw [List.mem_cons, not_or] at h
    rw [List.cons_append, occursIn, isPrefixOf_cons_of_ne h.1, Bool.false_or, ih h.2]

theorem replaceFrom_append (h : a ∉ pre) :
    replaceFrom (a :: as) new 0 (pre ++ cs) = pre ++ replaceFrom (a :: as) new 0 cs := by
  induction pre with
  | nil => rfl
  | cons c pre ih =>
    rw [List.mem_cons, not_or] at h
    rw [List.cons_append, replaceFrom, isPrefixOf_cons_of_ne h.1, if_neg Bool.false_ne_true, ih h.2,
      List.cons_append]

theorem replaceFrom_of_notMem (h : a ∉ cs) : replaceFrom (a :: as) new 0 cs = cs := by
  have happend : replaceFrom (a :: as) new 0 (cs ++ []) = cs ++ replaceFrom (a :: as) new 0 [] :=
    replaceFrom_append h
  simpa [replaceFrom] using happend

theorem replaceFrom_skip (old new cs rest : List Char) :
    replaceFrom old new cs.length (cs ++ rest) = replaceFrom old new 0 rest := by
  induction cs with
  | nil => rfl
  | cons c cs ih => exact ih

theorem replaceFrom_self_append (h : a ∉ cs) :
    replaceFrom (a :: as) new 0 (a :: as ++ cs) = new ++ cs := by
  have hprefix : (a :: as).isPrefixOf (a :: as ++ cs) := by
    rw [List.isPrefixOf_iff_prefix]
    exact List.prefix_append _ _
  rw [List.cons_append] at hprefix ⊢
  rw [replaceFrom, if_pos hprefix, List.length_cons, Nat.add_sub_cancel, replaceFrom_skip,
    replaceFrom_of_notMem h]

end chars

/-- `old` begins with a character that `s` has nowhere. -/
def Misses (old s : String) : Prop := ∃ a as, old.toList = a :: as ∧ a ∉ s.toList

theorem occurs_self (s : String) : occurs s s := by
  unfold occurs
  cases s.toList with
  | nil => rfl
  | cons c cs => simp [occursIn]

theorem replaceAll_self (old new : String) : replaceAll old new old = new := by
  have hchars : replaceChars old.toList new.toList old.toList = new.toList := by
    unfold replaceChars
    cases old.toList with
    | nil => simp
    | cons a as =>
      have hself : replaceFrom (a :: as) new.toList 0 (a :: as ++ []) = new.toList ++ [] :=
        replaceFrom_self_append List.not_mem_nil
      simpa using hself
  rw [replaceAll, hchars, String.ofList_toList]

namespace Misses

variable {old new s t : String}

theorem occurs_append (h : Misses old s) : occurs old (s ++ t) = occurs old t := by
  obtain ⟨a, as, hold, ha⟩ := h
  rw [occurs, occurs, String.toList_append, hold, occursIn_append ha]

theorem replaceAll_append (h : Misses old s) :
    replaceAll old new (s ++ t) = s ++ replaceAll old new t := by
  obtain ⟨a, as, hold, ha⟩ := h
  apply String.toList_injective
  simp only [replaceAll, replaceChars, hold, List.isEmpty_cons, Bool.false_eq_true, if_false,
    String.toList_append, String.toList_ofList, replaceFrom_append ha]

theorem replaceAll_self_append (h : Misses old s) : replaceAll old new (old ++ s) = new ++ s := by
  obtain ⟨a, as, hold, ha⟩ := h
  apply String.toList_injective
  simp only [replaceAll, replaceChars, hold, List.isEmpty_cons, Bool.false_eq_true, if_false,
    String.toList_append, String.toList_ofList, replaceFrom_self_append ha]

end Misses

example : Misses "Port" "returns " := ⟨'P', _, rfl, by decide⟩

section exchange

variable {old new cs : List Char}

theorem occursIn_iff : occursIn old cs ↔ old <:+: cs := by
  induction cs with
  | nil => simp [occursIn]
  | cons c cs ih => rw [occursIn, Bool.or_eq_true, ih, List.isPrefixOf_iff_prefix, List.infix_cons_iff]

theorem occurs_iff {old s : String} : occurs old s ↔ old.toList <:+: s.toList := occursIn_iff

/-- A text with all occurrences of `old` exchanged for `new`, one behind the other from the left.
The empty text occurs around every character. -/
inductive Exchanged (old new : List Char) : List Char → List Char → Prop
  | nil (hne : old ≠ []) : Exchanged old new [] []
  | here {rest t : List Char} (hne : old ≠ []) (hrest : Exchanged old new rest t) :
    Exchanged old new (old ++ rest) (new ++ t)
  | later {c : Char} {s t : List Char} (hnot : ¬ old <+: c :: s) (hs : Exchanged old new s t) :
    Exchanged old new (c :: s) (c :: t)
  | around {s : List Char} (hempty : old = []) :
    Exchanged old new s (new ++ s.flatMap fun c => c :: new)

theorem exchanged_replaceFrom (hne : old ≠ []) (cs : List Char) :
    Exchanged old new cs (replaceFrom old new 0 cs) := by
  induction hlen : cs.length using Nat.strongRecOn generalizing cs with
  | ind n ih =>
    cases cs with
    | nil => exact .nil hne
    | cons c cs =>
      rw [List.length_cons] at hlen
      rw [replaceFrom]
      split
      · next hprefix =>
        obtain ⟨rest, hrest⟩ := List.isPrefixOf_iff_prefix.1 hprefix
        obtain ⟨a, as, rfl⟩ := List.exists_cons_of_ne_nil hne
        rw [List.cons_append] at hrest
        obtain ⟨rfl, rfl⟩ := List.cons.inj hrest
        rw [List.length_append] at hlen
        rw [List.length_cons, Nat.add_sub_cancel, replaceFrom_skip]
        exact .here hne (ih rest.length (by omega) rest rfl)
      · next hprefix =>
        rw [List.isPrefixOf_iff_prefix] at hprefix
        exact .later hprefix (ih cs.length (by omega) cs rfl)

theorem exchanged_replaceAll (old new s : String) :
    Exchanged old.toList new.toList s.toList (replaceAll old new s).toList := by
  rw [replaceAll, String.toList_ofList, replaceChars]
  split
  · next hempty => exact .around (List.isEmpty_iff.1 hempty)
  · next hne => exact exchanged_replaceFrom (mt List.isEmpty_iff.2 hne) s.toList

end exchange

end YangApi.Text
