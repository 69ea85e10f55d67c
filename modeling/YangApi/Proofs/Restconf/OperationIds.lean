import YangApi.Proofs.Restconf.Paths
import YangApi.Proofs.Restconf.Stamps

/-! Which operations share an id. An id is a method and the names of a segment in camel case, one
behind the other with nothing between them. Words are read back from that, since each begins at a
capital; a name of several parts has capitals inside, and may be spelled like a chain of names. -/

namespace YangApi

def Segment.camelNames (s : Segment) : String := String.join (s.names.map camelCase)

theorem Segment.isCamel_camelNames (s : Segment) : IsCamel s.camelNames :=
  isCamel_join (List.forall_mem_map.2 fun name _ => isCamel_camelCase name)

theorem divide_inj {α : Type} {p : α → Bool} {xs ys zs ws : List α} (hx : ∀ a ∈ xs, p a)
    (hy : ∀ a ∈ ys, p a) (hz : ∀ a, zs.head? = some a → ¬ p a)
    (hw : ∀ a, ws.head? = some a → ¬ p a) (h : xs ++ zs = ys ++ ws) : xs = ys ∧ zs = ws := by
  have htake : ∀ {xs zs : List α}, (∀ a ∈ xs, p a) → (∀ a, zs.head? = some a → ¬ p a) →
      (xs ++ zs).takeWhile p = xs := by
    intro xs zs hx hz
    rw [List.takeWhile_append_of_pos hx]
    cases zs with
    | nil => simp
    | cons a zs => simp [hz a rfl]
  have hfirst : xs = ys := by rw [← htake hx hz, ← htake hy hw, h]
  subst hfirst
  exact ⟨rfl, List.append_cancel_left h⟩

section words

/-- A small letter, with small letters and digits behind it. -/
structure IsWord (s : String) : Prop where
  chars : s.toList.all fun c => c.isLower || c.isDigit
  first : s.toList.head?.any Char.isLower

instance (s : String) : Decidable (IsWord s) :=
  decidable_of_iff
    ((s.toList.all fun c => c.isLower || c.isDigit) ∧ s.toList.head?.any Char.isLower)
    ⟨fun ⟨hchars, hfirst⟩ => ⟨hchars, hfirst⟩, fun h => ⟨h.chars, h.first⟩⟩

theorem not_isUpper_of_isLower_or_isDigit {c : Char} (h : c.isLower ∨ c.isDigit) : ¬ c.isUpper := by
  have hzero : '0'.toNat = 48 := rfl
  have hnine : '9'.toNat = 57 := rfl
  rw [isLower_iff_toNat, Char.isDigit_iff_toNat] at h
  rw [isUpper_iff_toNat]
  omega

theorem camelChars_of_isAlphanum {cs : List Char} (h : ∀ c ∈ cs, c.isAlphanum) :
    camelChars false cs = cs := by
  induction cs with
  | nil => rfl
  | cons c cs ih =>
    rw [List.forall_mem_cons] at h
    simp [camelChars, h.1, ih h.2]

theorem IsWord.exists_toList {s : String} (h : IsWord s) : ∃ c cs, s.toList = c :: cs ∧
    c.isLower ∧ (∀ d ∈ cs, ¬ d.isUpper) ∧ (camelCase s).toList = c.toUpper :: cs := by
  obtain ⟨hchars, hfirst⟩ := h
  simp only [List.all_eq_true, Bool.or_eq_true] at hchars
  cases hs : s.toList with
  | nil => simp [hs] at hfirst
  | cons c cs =>
    rw [hs] at hchars hfirst
    have halphanum : ∀ d ∈ c :: cs, d.isAlphanum := by
      intro d hd
      rcases hchars d hd with h | h <;> simp [isAlphanum_eq, h]
    rw [List.forall_mem_cons] at hchars halphanum
    refine ⟨c, cs, rfl, by simpa using hfirst, fun d hd => ?_, ?_⟩
    · exact not_isUpper_of_isLower_or_isDigit (hchars.2 d hd)
    · simp [camelCase, hs, camelChars, halphanum.1, camelChars_of_isAlphanum halphanum.2]

/-- Words one behind the other in camel case begin with a capital, if there are any. -/
theorem isUpper_of_head?_join {ns : List String} (h : ∀ n ∈ ns, IsWord n) {c : Char}
    (hc : (String.join (ns.map camelCase)).toList.head? = some c) : c.isUpper := by
  cases ns with
  | nil => simp at hc
  | cons n ns =>
    obtain ⟨d, ds, -, hlower, -, hcamel⟩ := (h n (List.mem_cons_self ..)).exists_toList
    rw [List.map_cons, String.join_cons, String.toList_append, hcamel] at hc
    obtain rfl := Option.some.inj hc
    exact isUpper_toUpper hlower

/-- Words are read back from their camel case: each begins at a capital. -/
theorem join_camelCase_inj {ns ms : List String} (hn : ∀ n ∈ ns, IsWord n) (hm : ∀ m ∈ ms, IsWord m)
    (h : String.join (ns.map camelCase) = String.join (ms.map camelCase)) : ns = ms := by
  have hne : ∀ {n : String} {ns : List String}, IsWord n →
      "" ≠ String.join ((n :: ns).map camelCase) := by
    intro n ns hword hempty
    obtain ⟨c, cs, -, -, -, hcamel⟩ := hword.exists_toList
    have hchars := congrArg String.toList hempty
    simp [hcamel] at hchars
  induction ns generalizing ms with
  | nil =>
    cases ms with
    | nil => rfl
    | cons m ms => exact absurd h (hne (hm m (List.mem_cons_self ..)))
  | cons n ns ih =>
    cases ms with
    | nil => exact absurd h.symm (hne (hn n (List.mem_cons_self ..)))
    | cons m ms =>
      rw [List.forall_mem_cons] at hn hm
      obtain ⟨c, cs, hsn, hc, hcs, hcamel⟩ := hn.1.exists_toList
      obtain ⟨d, ds, hsm, hd, hds, hcamel'⟩ := hm.1.exists_toList
      have hchars := congrArg String.toList h
      simp only [List.map_cons, String.join_cons, String.toList_append, hcamel, hcamel',
        List.cons_append, List.cons.injEq] at hchars
      obtain ⟨hfirst, hrest⟩ := hchars
      obtain rfl := toUpper_inj hc hd hfirst
      obtain ⟨rfl, hjoined⟩ := divide_inj (p := fun c => !c.isUpper) (by simpa using hcs)
        (by simpa using hds) (fun a ha => by simpa using isUpper_of_head?_join hn.2 ha)
        (fun a ha => by simpa using isUpper_of_head?_join hm.2 ha) hrest
      have hname : n = m := String.toList_inj.1 (hsn.trans hsm.symm)
      rw [hname, ih hn.2 hm.2 (String.toList_inj.1 hjoined)]

end words

theorem Method.isLower_of_mem_name (m : Method) : ∀ c ∈ m.name.toList, c.isLower := by
  cases m <;> simp [name]

theorem Method.name_inj {m n : Method} (h : m.name = n.name) : m = n := by
  cases m <;> cases n <;> first | rfl | exact absurd h (by decide)

namespace Restconf

/-- An id tells its method, and the names in camel case as one text. -/
theorem operationId_inj {m n : Method} {s t : Segment} :
    operationId m s = operationId n t ↔ m = n ∧ s.camelNames = t.camelNames := by
  constructor
  · intro h
    have hchars := congrArg String.toList h
    rw [operationId, operationId, String.toList_append, String.toList_append] at hchars
    obtain ⟨hmethod, hnames⟩ := divide_inj m.isLower_of_mem_name n.isLower_of_mem_name
      s.isCamel_camelNames.first t.isCamel_camelNames.first hchars
    exact ⟨Method.name_inj (String.toList_inj.1 hmethod), String.toList_inj.1 hnames⟩
  · rintro ⟨rfl, h⟩
    exact congrArg (m.name ++ ·) h

end Restconf

theorem PathItem.nodup_methods (i : PathItem) : i.methods.Nodup := by
  have hfilter : i.methods = Method.all.filter fun m => (i.get? m).isSome := by
    rw [methods, operations, List.map_filterMap, ← List.filterMap_eq_filter]
    refine List.filterMap_congr fun m _ => ?_
    cases h : i.get? m <;> simp [Option.guard, h]
  rw [hfilter]
  exact List.Nodup.filter _ (by decide)

namespace Document

def located (d : Document) : List ((String × Method) × Operation) :=
  d.paths.entries.flatMap fun e => e.2.operations.map fun x => ((e.1, x.1), x.2)

theorem operations_eq_located (d : Document) : d.operations = d.located.map Prod.snd := by
  simp [operations, located, Table.values, List.flatMap_map, List.map_flatMap, Function.comp_def]

theorem mem_located {d : Document} {p : String} {m : Method} {o : Operation} :
    ((p, m), o) ∈ d.located ↔ d.paths.operation? p m = some o := by
  simp only [located, List.mem_flatMap, List.mem_map, Table.operation?, Option.bind_eq_some_iff,
    Table.get?_eq_some_iff, Prod.mk.injEq, Prod.exists, PathItem.mem_operations]
  constructor
  · rintro ⟨_, item, hitem, _, _, ho, ⟨rfl, rfl⟩, rfl⟩
    exact ⟨item, hitem, ho⟩
  · rintro ⟨item, hitem, ho⟩
    exact ⟨p, item, hitem, m, o, ho, ⟨rfl, rfl⟩, rfl⟩

/-- For each path and method there is one operation at most. -/
theorem nodup_located (d : Document) : (d.located.map Prod.fst).Nodup := by
  have hlocated : d.located.map Prod.fst =
      d.paths.entries.flatMap fun e => e.2.methods.map (Prod.mk e.1) := by
    simp [located, PathItem.methods, List.map_flatMap, Function.comp_def]
  rw [hlocated, List.nodup_flatMap]
  constructor
  · intro e _
    exact e.2.nodup_methods.map fun _ _ h => (Prod.mk.inj h).2
  · refine (List.pairwise_map.1 d.paths.nodup).imp fun hne x hx hy => hne ?_
    obtain ⟨_, -, rfl⟩ := List.mem_map.1 hx
    obtain ⟨_, -, h⟩ := List.mem_map.1 hy
    exact (Prod.mk.inj h).1.symm

end Document

namespace Generator

variable {g : Generator}

theorem id_result (g : Generator) (p : String) (m : Method) :
    (g.result.paths.operation? p m).map Operation.id =
      (g.segmentFor? p m).map fun s => some (Restconf.operationId m s) := by
  have hstamp := congrArg (Option.map Operation.Stamp.id) (g.stamp_result p m)
  rwa [Option.map_map, Option.map_map] at hstamp

theorem exists_of_segmentFor? {p : String} {m : Method} {s : Segment}
    (h : g.segmentFor? p m = some s) : ∃ o, g.result.paths.operation? p m = some o ∧
      o.id = some (Restconf.operationId m s) := by
  have hid := g.id_result p m
  rw [h, Option.map_some] at hid
  exact Option.map_eq_some_iff.1 hid

theorem exists_of_operation? {p : String} {m : Method} {o : Operation}
    (h : g.result.paths.operation? p m = some o) : ∃ s, g.segmentFor? p m = some s ∧
      o.id = some (Restconf.operationId m s) := by
  have hid := g.id_result p m
  rw [h, Option.map_some] at hid
  obtain ⟨s, hs, heq⟩ := Option.map_eq_some_iff.1 hid.symm
  exact ⟨s, hs, heq.symm⟩

/-- No segments that a method is written for on different paths spell the same text. -/
def SpelledApart (g : Generator) : Prop :=
  ∀ p q m s t, g.segmentFor? p m = some s → g.segmentFor? q m = some t →
    s.camelNames = t.camelNames → p = q

/-- That is all it takes for ids to differ, for the methods of one path differ anyway. -/
theorem nodup_operationIds_iff : (g.result.operations.map Operation.id).Nodup ↔ g.SpelledApart := by
  have hlocated : g.result.located.Nodup := .of_map _ g.result.nodup_located
  rw [Document.operations_eq_located, List.map_map, List.nodup_map_iff_inj_on hlocated]
  constructor
  · intro h p q m s t hs ht hsame
    obtain ⟨o, ho, hid⟩ := exists_of_segmentFor? hs
    obtain ⟨o', ho', hid'⟩ := exists_of_segmentFor? ht
    have hids : o.id = o'.id := by
      rw [hid, hid', Restconf.operationId_inj.2 ⟨rfl, hsame⟩]
    have hplace := h _ (Document.mem_located.2 ho) _ (Document.mem_located.2 ho') hids
    exact congrArg (·.1.1) hplace
  · rintro h ⟨⟨p, m⟩, o⟩ ho ⟨⟨q, n⟩, o'⟩ ho' hids
    rw [Document.mem_located] at ho ho'
    obtain ⟨s, hs, hid⟩ := exists_of_operation? ho
    obtain ⟨t, ht, hid'⟩ := exists_of_operation? ho'
    have hsame : some (Restconf.operationId m s) = some (Restconf.operationId n t) := by
      rw [← hid, ← hid']
      exact hids
    obtain ⟨rfl, hnames⟩ := Restconf.operationId_inj.1 (Option.some.inj hsame)
    obtain rfl := h p q m s t hs ht hnames
    rw [Option.some.inj (ho.symm.trans ho')]

/-- The names down to each container and list that is gone through and of each procedure, with the
path of it. -/
def routes (g : Generator) : List (List String × String) :=
  g.modules.flatMap fun m =>
    ((m.visited .down g.moduleNames).map fun p =>
        (p.names, Restconf.dataPath (p.segment m.name))) ++
      m.rpcs.map fun r => ([r.name], Restconf.operationPath (r.ownerIn m.name) r.name)

theorem mem_routes {p : String} {m : Method} {s : Segment} (h : g.segmentFor? p m = some s) :
    (s.names, p) ∈ g.routes := by
  obtain ⟨⟨moduleName, v⟩, hv, hset⟩ := List.exists_of_findSome?_eq_some h
  obtain ⟨M, hM, rfl, hvM⟩ := mem_visits.1 (List.mem_reverse.1 hv)
  refine List.mem_flatMap.2 ⟨M, hM, List.mem_append.2 ?_⟩
  have hcall : v.isCall := by
    cases v with
    | define i => cases hset
    | path | rpc => rfl
  rcases Module.visit_of_isCall hvM hcall with ⟨place, hplace, rfl⟩ | ⟨r, hr, rfl⟩
  · simp only [Place.visit, Visit.segmentFor?, Option.ite_none_right_eq_some] at hset
    obtain ⟨⟨rfl, -⟩, hs⟩ := hset
    obtain rfl := Option.some.inj hs
    have hnames : (place.segment M.name).names = place.names :=
      (Segment.follows_along M.name place.levels).names
    exact .inl (List.mem_map.2 ⟨place, hplace, by rw [hnames]⟩)
  · simp only [Rpc.visit, Visit.segmentFor?, Option.ite_none_right_eq_some] at hset
    obtain ⟨⟨rfl, -⟩, hs⟩ := hset
    obtain rfl := Option.some.inj hs
    exact .inr (List.mem_map.2 ⟨r, hr, rfl⟩)

end Generator

namespace Module

def tops (m : Module Resolved) : List String := Node.standing m.children ++ m.rpcs.map Rpc.name

/-- The names down to each container and list that is gone through, and those of procedures. -/
def trails (selected : List String) (m : Module Resolved) : List (List String) :=
  (m.visited .down selected).map Place.names ++ m.rpcs.map fun r => [r.name]

variable {m : Module Resolved} {selected : List String}

theorem exists_of_mem_visited {p : Place} (hp : p ∈ m.visited .down selected) :
    ∃ name ∈ Node.standing m.children, ∃ rest, p.names = name :: rest :=
  Node.exists_step (List.mem_filter.1 hp).1

theorem exists_of_mem_trails {names : List String} (h : names ∈ m.trails selected) :
    ∃ name ∈ m.tops, ∃ rest, names = name :: rest := by
  rcases List.mem_append.1 h with h | h
  · obtain ⟨p, hp, rfl⟩ := List.mem_map.1 h
    obtain ⟨name, hname, rest, hrest⟩ := exists_of_mem_visited hp
    exact ⟨name, List.mem_append_left _ hname, rest, hrest⟩
  · obtain ⟨r, hr, rfl⟩ := List.mem_map.1 h
    exact ⟨r.name, List.mem_append_right _ (List.mem_map_of_mem hr), [], rfl⟩

theorem nodup_trails (htops : m.tops.Nodup) (hsiblings : m.DistinctSiblings) :
    (m.trails selected).Nodup := by
  obtain ⟨-, hrpcs, hapart⟩ := List.nodup_append'.1 htops
  refine List.nodup_append'.2 ⟨?_, ?_, fun names hdata hrpc => ?_⟩
  · exact List.pairwise_map.2 ((Node.pairwise_names hsiblings.1 hsiblings.2).filter _)
  · refine List.pairwise_map.2 ((List.pairwise_map.1 hrpcs).imp fun hne h => hne ?_)
    exact (List.cons.inj h).1
  · obtain ⟨p, hp, rfl⟩ := List.mem_map.1 hdata
    obtain ⟨r, hr, hsame⟩ := List.mem_map.1 hrpc
    obtain ⟨name, hname, rest, hrest⟩ := exists_of_mem_visited hp
    obtain rfl := (List.cons.inj (hsame.trans hrest)).1
    exact hapart hname (List.mem_map_of_mem hr)

end Module

namespace Generator

/-- Containers, lists and procedures are named by words, and these differ at each level, those at
the top over all selected modules. -/
structure NamedByWords (g : Generator) : Prop where
  tops : (g.modules.flatMap Module.tops).Nodup
  siblings : ∀ m ∈ g.modules, m.DistinctSiblings
  interiors : ∀ m ∈ g.modules, ∀ i ∈ Node.interiors m.children, IsWord i.head.name
  procedures : ∀ m ∈ g.modules, ∀ r ∈ m.rpcs, IsWord r.name

namespace NamedByWords

variable {g : Generator}

theorem isWord (h : g.NamedByWords) {e : List String × String} (he : e ∈ g.routes) :
    ∀ n ∈ e.1, IsWord n := by
  obtain ⟨m, hm, he⟩ := List.mem_flatMap.1 he
  rcases List.mem_append.1 he with he | he
  · obtain ⟨p, hp, rfl⟩ := List.mem_map.1 he
    refine List.forall_mem_map.2 fun level hlevel => ?_
    rcases Node.exists_of_mem_levels (List.mem_filter.1 hp).1 hlevel with hlevel | ⟨i, hi, rfl⟩
    · cases hlevel
    · exact h.interiors m hm i hi
  · obtain ⟨r, hr, rfl⟩ := List.mem_map.1 he
    exact List.forall_mem_singleton.2 (h.procedures m hm r hr)

theorem nodup_routes (h : g.NamedByWords) : (g.routes.map Prod.fst).Nodup := by
  have htrails : g.routes.map Prod.fst = g.modules.flatMap (Module.trails g.moduleNames) := by
    rw [routes, List.map_flatMap]
    refine List.flatMap_congr fun m _ => ?_
    simp [Module.trails, Function.comp_def]
  obtain ⟨htops, hapart⟩ := List.nodup_flatMap.1 h.tops
  rw [htrails]
  refine List.nodup_flatMap.2 ⟨fun m hm => ?_, hapart.imp fun hdisjoint names hm hm' => ?_⟩
  · exact Module.nodup_trails (htops m hm) (h.siblings m hm)
  · obtain ⟨name, hname, rest, rfl⟩ := Module.exists_of_mem_trails hm
    obtain ⟨name', hname', rest', hsame⟩ := Module.exists_of_mem_trails hm'
    obtain rfl := (List.cons.inj hsame).1
    exact hdisjoint hname hname'

theorem spelledApart (h : g.NamedByWords) : g.SpelledApart := by
  intro p q m s t hs ht hsame
  have hnames : s.names = t.names :=
    join_camelCase_inj (h.isWord (mem_routes hs)) (h.isWord (mem_routes ht)) hsame
  exact congrArg Prod.snd
    (List.inj_on_of_nodup_map h.nodup_routes (mem_routes hs) (mem_routes ht) hnames)

end NamedByWords

instance (g : Generator) : Decidable g.NamedByWords :=
  decidable_of_iff
    ((g.modules.flatMap Module.tops).Nodup ∧ (∀ m ∈ g.modules, m.DistinctSiblings) ∧
      (∀ m ∈ g.modules, ∀ i ∈ Node.interiors m.children, IsWord i.head.name) ∧
      ∀ m ∈ g.modules, ∀ r ∈ m.rpcs, IsWord r.name)
    ⟨fun ⟨htops, hsiblings, hinteriors, hprocedures⟩ =>
        ⟨htops, hsiblings, hinteriors, hprocedures⟩,
      fun h => ⟨h.tops, h.siblings, h.interiors, h.procedures⟩⟩

/-- The id of an operation is its method and the names of what it was written for last. The ids of a
document are pairwise different exactly if these names are never spelled alike for one method of
different paths, and that is so where names are words which tell siblings and tops apart. -/
theorem operationIds_distinct {c : Context} {names : List String} {config : Config} {g : Generator}
    (hg : ofNames c names config = .ok g) (hvalid : config.fault? = none) (handler : PathHandler) :
    ∃ d ws, ({ g with handler } : Generator).generate = .ok (d, ws) ∧
      (∀ p m, (d.paths.operation? p m).map Operation.id =
        (g.segmentFor? p m).map fun s => some (m.name ++ s.camelNames)) ∧
      ((d.operations.map Operation.id).Nodup ↔ g.SpelledApart) ∧
      (g.NamedByWords → (d.operations.map Operation.id).Nodup) := by
  obtain ⟨-, rfl, -⟩ := ofNames_fields hg
  set g' : Generator := { g with handler }
  obtain ⟨ws, hws⟩ := generate_of_valid (g := g') hvalid
  refine ⟨g'.result, ws, hws, g'.id_result, nodup_operationIds_iff, fun hwords => ?_⟩
  exact nodup_operationIds_iff.2 (NamedByWords.spelledApart (g := g) hwords)

theorem operationIds_distinct_shop : ∃ c g d ws, Context.resolve shop = .ok c ∧
    ofNames c ["shop"] {} = .ok g ∧ g.generate = .ok (d, ws) ∧
    (d.paths.operation? "/data/shop:order=\x7bid\x7d/change" .delete).map Operation.id =
      some (some "deleteOrderChange") ∧
    (d.operations.map Operation.id).Nodup := by
  obtain ⟨c, g, hresolve, hg⟩ := exists_run_shop {}
  have hwords : g.NamedByWords := by
    cases hresolve
    cases hg
    decide
  obtain ⟨d, ws, hgenerate, hid, -, hids⟩ :=
    operationIds_distinct hg (Config.fault?_of_choices ..) g.handler
  refine ⟨c, g, d, ws, hresolve, hg, hgenerate, (hid _ _).trans ?_, hids hwords⟩
  cases hresolve
  cases hg
  decide

/-- A container inside another, and one that has the names of both, with a hyphen between them. -/
def hyphenated : List (Module Declared) :=
  let named (name : String) : Declared := ⟨name, none, none, none, none⟩
  let container (name : String) (cs : List (Node Declared)) : Node Declared :=
    .inner (named name) (.container false) [] cs
  [{ name := "net", xmlNamespace := none, abbreviation := none, revision := none
     description := none
     children := [container "a" [container "b" [.leaf (named "x") .string false none]],
       container "a-b" [.leaf (named "y") .string false none]]
     rpcs := []
     groupings := [] }]

/-- They are spelled alike, though all siblings have different names. -/
theorem operationIds_repeated_hyphenated : ∃ c g d ws, Context.resolve hyphenated = .ok c ∧
    (∀ m ∈ c.modules,
      (((Node.flat m.children).map fun n => n.head.name) ++ m.rpcs.map Rpc.name).Nodup ∧
        ∀ i ∈ m.dataInteriors, ((Node.flat i.children).map fun n => n.head.name).Nodup) ∧
    ofNames c ["net"] {} = .ok g ∧ g.generate = .ok (d, ws) ∧
    ¬ (d.operations.map Operation.id).Nodup := by
  obtain ⟨c, g, hresolve, hg⟩ : ∃ c g, Context.resolve hyphenated = .ok c ∧
      ofNames c ["net"] {} = .ok g := ⟨_, _, rfl, rfl⟩
  have hsiblings : ∀ m ∈ c.modules,
      (((Node.flat m.children).map fun n => n.head.name) ++ m.rpcs.map Rpc.name).Nodup ∧
        ∀ i ∈ m.dataInteriors, ((Node.flat i.children).map fun n => n.head.name).Nodup := by
    cases hresolve
    decide
  obtain ⟨ws, hws⟩ := generate_of_ofNames hg (Config.fault?_of_choices ..)
  refine ⟨c, g, g.result, ws, hresolve, hsiblings, hg, hws, fun hnodup => ?_⟩
  obtain ⟨s, t, hs, ht, hsame⟩ : ∃ s t, g.segmentFor? "/data/net:a/b" .get = some s ∧
      g.segmentFor? "/data/net:a-b" .get = some t ∧ s.camelNames = t.camelNames := by
    cases hresolve
    cases hg
    exact ⟨_, _, rfl, rfl, by decide⟩
  exact absurd (nodup_operationIds_iff.1 hnodup _ _ _ s t hs ht hsame) (by decide)

end Generator

end YangApi
