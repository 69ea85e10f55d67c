/-! Tables that remember the order in which keys came first: writing to a key that is there keeps
its place, and no key stands twice. -/

namespace YangApi

structure Table (α : Type) where
  entries : List (String × α)
  nodup : (entries.map Prod.fst).Nodup

namespace Table

variable {α β : Type}

/-- Replaces the value of `k` by `f` of the old one, or appends `f none`. -/
def upsertEntries (k : String) (f : Option α → α) : List (String × α) → List (String × α)
  | [] => [(k, f none)]
  | (j, a) :: es => if j = k then (j, f (some a)) :: es else (j, a) :: upsertEntries k f es

theorem map_fst_upsertEntries (k : String) (f : Option α → α) (es : List (String × α)) :
    (upsertEntries k f es).map Prod.fst =
      if k ∈ es.map Prod.fst then es.map Prod.fst else es.map Prod.fst ++ [k] := by
  induction es with
  | nil => rfl
  | cons e es ih =>
    obtain ⟨j, a⟩ := e
    by_cases h : j = k
    · simp [upsertEntries, h]
    · have h' : k ≠ j := fun e => h e.symm
      simp only [upsertEntries, h, if_false, List.map_cons, ih, List.mem_cons, h', false_or]
      split <;> rfl

theorem nodup_upsertEntries (k : String) (f : Option α → α) {es : List (String × α)}
    (h : (es.map Prod.fst).Nodup) : ((upsertEntries k f es).map Prod.fst).Nodup := by
  rw [map_fst_upsertEntries]
  split
  · exact h
  · next hk =>
    refine List.nodup_append.2 ⟨h, by simp, ?_⟩
    intro a ha b hb
    rintro rfl
    exact hk (List.mem_singleton.1 hb ▸ ha)

def empty : Table α := ⟨[], List.nodup_nil⟩

instance : Inhabited (Table α) := ⟨empty⟩

def keys (t : Table α) : List String := t.entries.map Prod.fst

def values (t : Table α) : List α := t.entries.map Prod.snd

def size (t : Table α) : Nat := t.entries.length

def isEmpty (t : Table α) : Bool := t.entries.isEmpty

def get? (t : Table α) (k : String) : Option α := (t.entries.find? (·.1 = k)).map Prod.snd

def upsert (t : Table α) (k : String) (f : Option α → α) : Table α :=
  ⟨upsertEntries k f t.entries, nodup_upsertEntries k f t.nodup⟩

/-- The value of `k` becomes `a`; a new key goes to the end. -/
def insert (t : Table α) (k : String) (a : α) : Table α := t.upsert k fun _ => a

def ofList (es : List (String × α)) : Table α := es.foldl (fun t e => t.insert e.1 e.2) empty

def map (f : String → α → β) (t : Table α) : Table β :=
  ⟨t.entries.map fun e => (e.1, f e.1 e.2), by
    have : (t.entries.map fun e => (e.1, f e.1 e.2)).map Prod.fst = t.entries.map Prod.fst := by
      simp
    exact this ▸ t.nodup⟩

def filterKeys (p : String → Bool) (t : Table α) : Table α :=
  ⟨t.entries.filter fun e => p e.1, by
    refine List.Nodup.sublist ?_ t.nodup
    exact List.Sublist.map _ List.filter_sublist⟩

theorem keys_upsert (t : Table α) (k : String) (f : Option α → α) :
    (t.upsert k f).keys = if k ∈ t.keys then t.keys else t.keys ++ [k] :=
  map_fst_upsertEntries k f t.entries

theorem keys_insert (t : Table α) (k : String) (a : α) :
    (t.insert k a).keys = if k ∈ t.keys then t.keys else t.keys ++ [k] :=
  keys_upsert t k _

theorem keys_map (f : String → α → β) (t : Table α) : (t.map f).keys = t.keys := by
  simp [keys, map]

end Table

end YangApi
