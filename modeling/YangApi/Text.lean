/-! Texts and lists of them: the first numbered variant of a text that is not taken, the occurrences
of one text in another, and lists without repetitions, in the order of first appearance. -/

namespace YangApi.Text

/-- The variants `stem2`, `stem3`, … as far as they can all be taken. -/
def numbered (stem : String) (taken : List String) : List String :=
  (List.range (taken.length + 1)).map fun i => stem ++ toString (i + 2)

def firstNumbered (stem : String) (taken : List String) : String :=
  ((numbered stem taken).find? fun s => s ∉ taken).getD stem

def occursIn (old : List Char) : List Char → Bool
  | [] => old.isEmpty
  | c :: cs => old.isPrefixOf (c :: cs) || occursIn old cs

/-- Drops `skip` characters, then replaces the occurrences of `old` from left to right; none is
looked for inside one that was replaced. -/
def replaceFrom (old new : List Char) : Nat → List Char → List Char
  | _, [] => []
  | skip + 1, _ :: cs => replaceFrom old new skip cs
  | 0, c :: cs =>
    if old.isPrefixOf (c :: cs) then new ++ replaceFrom old new (old.length - 1) cs
    else c :: replaceFrom old new 0 cs

def replaceChars (old new cs : List Char) : List Char :=
  if old.isEmpty then new ++ cs.flatMap fun c => c :: new else replaceFrom old new 0 cs

def occurs (old s : String) : Bool := occursIn old.toList s.toList

def replaceAll (old new s : String) : String :=
  String.ofList (replaceChars old.toList new.toList s.toList)

def pushNew {α : Type} [DecidableEq α] (xs : List α) (x : α) : List α :=
  if x ∈ xs then xs else xs ++ [x]

def distinct {α : Type} [DecidableEq α] (xs : List α) : List α := xs.foldl pushNew []

variable {α : Type} [DecidableEq α]

theorem mem_pushNew {xs : List α} {x y : α} : y ∈ pushNew xs x ↔ y ∈ xs ∨ y = x := by
  unfold pushNew
  split
  · next h => exact ⟨Or.inl, fun e => e.elim id fun e => e ▸ h⟩
  · simp

theorem nodup_pushNew {xs : List α} (h : xs.Nodup) (x : α) : (pushNew xs x).Nodup := by
  unfold pushNew
  split
  · exact h
  · next hx =>
    refine List.nodup_append.2 ⟨h, by simp, ?_⟩
    intro a ha b hb
    rintro rfl
    exact hx (List.mem_singleton.1 hb ▸ ha)

theorem mem_foldl_pushNew (xs seen : List α) (y : α) :
    y ∈ xs.foldl pushNew seen ↔ y ∈ seen ∨ y ∈ xs := by
  induction xs generalizing seen with
  | nil => simp
  | cons x xs ih => rw [List.foldl_cons, ih, mem_pushNew, List.mem_cons, or_assoc]

theorem nodup_foldl_pushNew (xs : List α) {seen : List α} (h : seen.Nodup) :
    (xs.foldl pushNew seen).Nodup := by
  induction xs generalizing seen with
  | nil => exact h
  | cons x xs ih => exact ih (nodup_pushNew h x)

theorem mem_distinct {xs : List α} {y : α} : y ∈ distinct xs ↔ y ∈ xs := by
  simp [distinct, mem_foldl_pushNew]

theorem nodup_distinct (xs : List α) : (distinct xs).Nodup :=
  nodup_foldl_pushNew xs List.nodup_nil

end YangApi.Text
