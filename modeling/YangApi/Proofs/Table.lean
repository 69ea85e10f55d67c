import YangApi.Document.Basic
import YangApi.Table

/-! What a table answers after a write, a change of all values and a restriction, and a document
after a definition. The look-up is the membership of its entries, since no key stands twice. -/

namespace YangApi.Table

variable {α β : Type}

theorem find?_key_eq_some {es : List (String × α)} (h : (es.map Prod.fst).Nodup) {k : String}
    {a : α} : es.find? (·.1 = k) = some (k, a) ↔ (k, a) ∈ es := by
  induction es with
  | nil => simp
  | cons e es ih =>
    obtain ⟨j, b⟩ := e
    simp only [List.map_cons, List.nodup_cons] at h
    by_cases hj : j = k
    · subst hj
      have hout : (j, a) ∉ es := fun hmem => h.1 (List.mem_map.2 ⟨_, hmem, rfl⟩)
      simp [hout, eq_comm]
    · have hj' : k ≠ j := fun e => hj e.symm
      simp [hj, hj', ih h.2]

theorem get?_eq_some_iff {t : Table α} {k : String} {a : α} :
    t.get? k = some a ↔ (k, a) ∈ t.entries := by
  rw [← find?_key_eq_some t.nodup]
  constructor
  · intro h
    obtain ⟨⟨j, b⟩, hb, rfl⟩ := Option.map_eq_some_iff.1 h
    have hj : j = k := by simpa using List.find?_some hb
    rw [hb, hj]
  · intro h
    simp [get?, h]

@[simp] theorem keys_empty : (empty : Table α).keys = [] := rfl

theorem find?_upsertEntries (k j : String) (f : Option α → α) (es : List (String × α)) :
    ((upsertEntries k f es).find? (·.1 = j)).map Prod.snd =
      if j = k then some (f ((es.find? (·.1 = k)).map Prod.snd))
      else (es.find? (·.1 = j)).map Prod.snd := by
  induction es with
  | nil =>
    by_cases h : j = k
    · simp [upsertEntries, h]
    · simp [upsertEntries, h, Ne.symm h]
  | cons e es ih =>
    obtain ⟨i, a⟩ := e
    by_cases hi : i = k
    · by_cases h : j = k
      · simp [upsertEntries, hi, h]
      · simp [upsertEntries, hi, h, Ne.symm h]
    · by_cases h : i = j
      · subst h
        simp [upsertEntries, hi]
      · simp [upsertEntries, hi, h, ih]

theorem get?_upsert (t : Table α) (k j : String) (f : Option α → α) :
    (t.upsert k f).get? j = if j = k then some (f (t.get? k)) else t.get? j :=
  find?_upsertEntries k j f t.entries

theorem get?_insert (t : Table α) (k j : String) (a : α) :
    (t.insert k a).get? j = if j = k then some a else t.get? j :=
  get?_upsert t k j _

theorem entries_upsert_of_notMem {t : Table α} {k : String} (h : k ∉ t.keys) (f : Option α → α) :
    (t.upsert k f).entries = t.entries ++ [(k, f none)] := by
  have hes : ∀ es : List (String × α), k ∉ es.map Prod.fst →
      upsertEntries k f es = es ++ [(k, f none)] := by
    intro es hk
    induction es with
    | nil => rfl
    | cons e es ih =>
      simp only [List.map_cons, List.mem_cons, not_or] at hk
      simp [upsertEntries, Ne.symm hk.1, ih hk.2]
  exact hes t.entries h

theorem entries_insert_of_notMem {t : Table α} {k : String} (h : k ∉ t.keys) (a : α) :
    (t.insert k a).entries = t.entries ++ [(k, a)] :=
  entries_upsert_of_notMem h _

theorem keys_ofList {es : List (String × α)} (h : (es.map Prod.fst).Nodup) :
    (ofList es).keys = es.map Prod.fst := by
  have hfold : ∀ (es : List (String × α)) (t : Table α), (t.keys ++ es.map Prod.fst).Nodup →
      (es.foldl (fun t e => t.insert e.1 e.2) t).keys = t.keys ++ es.map Prod.fst := by
    intro es
    induction es with
    | nil => simp
    | cons e es ih =>
      intro t h
      have hnew : e.1 ∉ t.keys := fun hmem =>
        (List.nodup_append.1 h).2.2 _ hmem _ (List.mem_cons_self ..) rfl
      have hkeys : (t.insert e.1 e.2).keys = t.keys ++ [e.1] := by rw [keys_insert, if_neg hnew]
      rw [List.foldl_cons, ih _ (by simpa [hkeys] using h), hkeys]
      simp
  exact (hfold es .empty (by simpa using h)).trans (by simp)

theorem keys_prefix_insert (t : Table α) (k : String) (a : α) : t.keys <+: (t.insert k a).keys := by
  rw [keys_insert]
  split
  · exact List.prefix_refl _
  · exact List.prefix_append _ _

theorem get?_map (f : String → α → β) (t : Table α) (k : String) :
    (t.map f).get? k = (t.get? k).map (f k) := by
  ext b
  rw [get?_eq_some_iff, Option.map_eq_some_iff]
  simp only [get?_eq_some_iff, map, List.mem_map, Prod.mk.injEq, Prod.exists]
  constructor
  · rintro ⟨j, a, ha, rfl, rfl⟩
    exact ⟨a, ha, rfl⟩
  · rintro ⟨a, ha, rfl⟩
    exact ⟨k, a, ha, rfl, rfl⟩

theorem get?_filterKeys (p : String → Bool) (t : Table α) (k : String) :
    (t.filterKeys p).get? k = if p k then t.get? k else none := by
  ext a
  rw [get?_eq_some_iff]
  by_cases h : p k
  · simp [filterKeys, h, get?_eq_some_iff]
  · simp [filterKeys, h]

end YangApi.Table

namespace YangApi.Document

def table (d : Document) : Table Model := d.definitions.getD .empty

def others (d : Document) : Document := { d with definitions := none }

theorem definition?_eq (d : Document) (name : String) : d.definition? name = d.table.get? name := by
  unfold definition? table
  cases d.definitions <;> rfl

theorem hasDefinition_iff {d : Document} {name : String} :
    d.hasDefinition name ↔ ∃ m, d.definition? name = some m :=
  Option.isSome_iff_exists

theorem table_define (d : Document) (name : String) (m : Model) :
    (d.define name m).table = d.table.insert name m := rfl

theorem definition?_define (d : Document) (name k : String) (m : Model) :
    (d.define name m).definition? k = if k = name then some m else d.definition? k := by
  rw [definition?_eq, definition?_eq, table_define, Table.get?_insert]

theorem hasDefinition_define (d : Document) (name : String) (m : Model) :
    (d.define name m).hasDefinition name := by
  rw [hasDefinition_iff]
  exact ⟨m, by rw [definition?_define, if_pos rfl]⟩

end YangApi.Document
