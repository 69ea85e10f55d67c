import YangApi.Proofs.Traversal
import YangApi.Restconf

/-! What can be read off a path. Names without the signs of the layout leave no doubt about the
levels that a data path was written for, nor about the procedure that has an operation path. -/

namespace YangApi

/-- None of the signs occurs in a text. -/
def Text.Without (signs : List Char) (s : String) : Prop := ∀ c ∈ signs, c ∉ s.toList

namespace Text

variable {signs : List Char} {s t : String}

instance : Decidable (Without signs s) := List.decidableBAll _ signs

theorem Without.mono {signs' : List Char} (h : Without signs s) (hsub : signs' ⊆ signs) :
    Without signs' s :=
  fun c hc => h c (hsub hc)

theorem without_of_toList_eq {c : Char} (hs : s.toList = [c]) (h : c ∉ signs) :
    Without signs s := by
  intro d hd hmem
  rw [hs, List.mem_singleton] at hmem
  exact h (hmem ▸ hd)

theorem Without.append (hs : Without signs s) (ht : Without signs t) : Without signs (s ++ t) := by
  intro c hc
  rw [String.toList_append, List.mem_append, not_or]
  exact ⟨hs c hc, ht c hc⟩

theorem Without.intercalate (hs : Without signs s) {l : List String}
    (hl : ∀ t ∈ l, Without signs t) : Without signs (s.intercalate l) := by
  induction l with
  | nil => simp [Without]
  | cons t l ih =>
    rw [List.forall_mem_cons] at hl
    cases l with
    | nil =>
      rw [String.intercalate_singleton]
      exact hl.1
    | cons u l =>
      rw [String.intercalate_cons_cons]
      exact (hl.1.append hs).append (ih hl.2)

/-- The texts between the occurrences of a sign. -/
def pieces (sign : Char) (s : String) : List String := (s.toList.splitOn sign).map String.ofList

/-- Texts are read back from a line of them if the sign between them occurs in none. -/
theorem pieces_intercalate {sign : Char} {l : List String} (hs : s.toList = [sign])
    (hl : ∀ t ∈ l, Without [sign] t) (hne : l ≠ []) : pieces sign (s.intercalate l) = l := by
  have hsplit : (s.intercalate l).toList.splitOn sign = l.map String.toList := by
    rw [String.toList_intercalate, hs]
    refine List.splitOn_intercalate sign ?_ (by simpa using hne)
    rw [List.forall_mem_map]
    exact fun t ht => hl t ht sign (List.mem_singleton_self sign)
  rw [pieces, hsplit, List.map_map]
  simp [Function.comp_def]

theorem before_inj {sign : Char} {xs ys zs ws : List Char} (hx : sign ∉ xs) (hy : sign ∉ ys)
    (h : xs ++ sign :: zs = ys ++ sign :: ws) : xs = ys ∧ zs = ws := by
  induction xs generalizing ys with
  | nil =>
    cases ys with
    | nil => exact ⟨rfl, (List.cons.inj h).2⟩
    | cons y ys => exact absurd ((List.cons.inj h).1 ▸ List.mem_cons_self ..) hy
  | cons x xs ih =>
    cases ys with
    | nil => exact absurd ((List.cons.inj h).1 ▸ List.mem_cons_self ..) hx
    | cons y ys =>
      obtain ⟨hhead, htail⟩ := List.cons.inj h
      obtain ⟨hbefore, hbehind⟩ :=
        ih (List.not_mem_of_not_mem_cons hx) (List.not_mem_of_not_mem_cons hy) htail
      exact ⟨by rw [hhead, hbefore], hbehind⟩

end Text

/-- Signs that a parameter has from names and keys only. -/
def Foreign (signs : List Char) : Prop := ∀ c ∈ signs, c ≠ '-' ∧ ¬ c.isDigit

instance (signs : List Char) : Decidable (Foreign signs) := List.decidableBAll _ signs

structure Level.Without (signs : List Char) (l : Level) : Prop where
  name : Text.Without signs l.name
  owner : Text.Without signs l.owner
  params : ∀ p ∈ l.params, Text.Without signs p

theorem Level.Without.mono {signs signs' : List Char} {l : Level} (h : l.Without signs)
    (hsub : signs' ⊆ signs) : l.Without signs' where
  name := h.name.mono hsub
  owner := h.owner.mono hsub
  params p hp := (h.params p hp).mono hsub

namespace Segment

variable {signs : List Char}

theorem NamedFor.without (hsigns : Foreign signs) {e : String × String} {param : String}
    (h : NamedFor e param) (hname : Text.Without signs e.1) (hkey : Text.Without signs e.2) :
    Text.Without signs param := by
  have hdash : Text.Without signs "-" :=
    Text.without_of_toList_eq (by rfl) fun h => (hsigns '-' h).1 rfl
  have hnumber : ∀ n : Nat, Text.Without signs (toString n) := by
    intro n c hc hmem
    rw [Nat.toString_eq_repr, Nat.toList_repr] at hmem
    exact (hsigns c hc).2 (Nat.isDigit_of_mem_toDigits (by omega) (by omega) hmem)
  have hqualified := (hname.append hdash).append hkey
  obtain rfl | rfl | ⟨n, -, rfl⟩ := h
  · exact hkey
  · exact hqualified
  · exact (hqualified.append hdash).append (hnumber n)

theorem exists_namedFor {es : List (String × String)} {params : List String}
    (h : List.Forall₂ NamedFor es params) {param : String} (hparam : param ∈ params) :
    ∃ e ∈ es, NamedFor e param := by
  induction h with
  | nil => exact absurd hparam List.not_mem_nil
  | cons hfirst _ ih =>
    rcases List.mem_cons.1 hparam with rfl | hparam
    · exact ⟨_, List.mem_cons_self .., hfirst⟩
    · obtain ⟨e, he, hfor⟩ := ih hparam
      exact ⟨e, List.mem_cons_of_mem _ he, hfor⟩

structure Push.Without (signs : List Char) (p : Push) : Prop where
  name : Text.Without signs p.name
  owner : Text.Without signs p.owner
  keys : ∀ k ∈ p.keys, Text.Without signs k

instance (signs : List Char) (p : Push) : Decidable (p.Without signs) :=
  decidable_of_iff
    (Text.Without signs p.name ∧ Text.Without signs p.owner ∧ ∀ k ∈ p.keys, Text.Without signs k)
    ⟨fun ⟨hname, howner, hkeys⟩ => ⟨hname, howner, hkeys⟩, fun h => ⟨h.name, h.owner, h.keys⟩⟩

theorem without_pushAll (hsigns : Foreign signs) {s : Segment}
    (hs : ∀ l ∈ s.levels, l.Without signs) {ps : List Push}
    (hps : ∀ p ∈ ps, p.Without signs) : ∀ l ∈ (s.pushAll ps).levels, l.Without signs := by
  induction ps generalizing s with
  | nil => exact hs
  | cons p ps ih =>
    rw [List.forall_mem_cons] at hps
    obtain ⟨⟨hname, howner, hkeys⟩, hps⟩ := hps
    refine ih ?_ hps
    simp only [push, List.forall_mem_append, List.forall_mem_singleton]
    refine ⟨hs, hname, howner, fun param hparam => ?_⟩
    obtain ⟨e, he, hfor⟩ := exists_namedFor (namedFor_localParams p.name p.keys s.params) hparam
    obtain ⟨k, hk, rfl⟩ := List.mem_map.1 he
    exact hfor.without hsigns hname (hkeys k hk)

theorem length_levels_pushAll (s : Segment) (ps : List Push) :
    (s.pushAll ps).levels.length = s.levels.length + ps.length := by
  induction ps generalizing s with
  | nil => rfl
  | cons p ps ih =>
    rw [pushAll_cons, ih]
    simp [push, Nat.add_right_comm, Nat.add_assoc]

end Segment

/-- The names of a module's containers, lists and keys are without the signs, and so are its own
name and those of the modules of its procedures. -/
structure Module.NamedWithout (signs : List Char) (m : Module Resolved) : Prop where
  name : Text.Without signs m.name
  interiors : ∀ i ∈ Node.interiors m.children,
    Text.Without signs i.head.name ∧ ∀ k ∈ i.shape.keys, Text.Without signs k
  rpcs : ∀ r ∈ m.rpcs, Text.Without signs (r.ownerIn m.name)

instance (signs : List Char) (m : Module Resolved) : Decidable (m.NamedWithout signs) :=
  decidable_of_iff
    (Text.Without signs m.name ∧
      (∀ i ∈ Node.interiors m.children,
        Text.Without signs i.head.name ∧ ∀ k ∈ i.shape.keys, Text.Without signs k) ∧
      ∀ r ∈ m.rpcs, Text.Without signs (r.ownerIn m.name))
    ⟨fun ⟨hname, hinteriors, hrpcs⟩ => ⟨hname, hinteriors, hrpcs⟩,
      fun h => ⟨h.name, h.interiors, h.rpcs⟩⟩

theorem Module.NamedWithout.segment {signs : List Char} {m : Module Resolved}
    (h : m.NamedWithout signs) (hsigns : Foreign signs) {way : Way} {selected : List String}
    {p : Place} (hp : p ∈ m.visited way selected) :
    ∀ l ∈ (p.segment m.name).levels, l.Without signs := by
  refine Segment.without_pushAll hsigns (List.forall_mem_nil _) ?_
  rw [List.forall_mem_map]
  intro e he
  rcases Node.exists_of_mem_levels (List.mem_filter.1 hp).1 he with he | ⟨i, hi, rfl⟩
  · cases he
  · exact ⟨(h.interiors i hi).1, h.name, (h.interiors i hi).2⟩

namespace Restconf

def separators : List Char := ['/', ':', '=', ',', '\x7b', '\x7d']

def readPlaceholder (t : String) : String := String.ofList t.toList.tail.dropLast

theorem readPlaceholder_placeholder (p : String) : readPlaceholder (placeholder p) = p := by
  simp [readPlaceholder, placeholder]

/-- The name of a level, behind that of its module where the module stands. -/
def labels (above : Option String) (l : Level) : List String :=
  if above = some l.owner then [l.name] else [l.owner, l.name]

/-- What stands behind the equals sign of a level. -/
def listing (l : Level) : List String :=
  if l.params.isEmpty then [] else [",".intercalate (l.params.map placeholder)]

theorem part_eq (above : Option String) (l : Level) :
    part above l = "=".intercalate (":".intercalate (labels above l) :: listing l) := by
  unfold part labels listing
  dsimp only
  split <;> split <;> simp [String.intercalate_cons_cons]

/-- A level apart from what a path does not show. -/
def shown (l : Level) : String × String × List String := (l.name, l.owner, l.params)

theorem labels_without {signs : List Char} {l : Level} (h : l.Without signs)
    (above : Option String) : ∀ t ∈ labels above l, Text.Without signs t := by
  unfold labels
  split <;> simp [h.name, h.owner]

def readLabels (above : Option String) : List String → String × String
  | [owner, name] => (name, owner)
  | texts => (texts.headD "", above.getD "")

theorem readLabels_labels (above : Option String) (l : Level) :
    readLabels above (labels above l) = (l.name, l.owner) := by
  unfold labels
  split
  · next h => simp [readLabels, h]
  · rfl

theorem without_placeholder {signs : List Char} {p : String} (h : Text.Without signs p)
    (hopen : '\x7b' ∉ signs) (hclose : '\x7d' ∉ signs) : Text.Without signs (placeholder p) := by
  intro c hc
  have hne : c ≠ '\x7b' ∧ c ≠ '\x7d' :=
    ⟨ne_of_mem_of_not_mem hc hopen, ne_of_mem_of_not_mem hc hclose⟩
  simp [placeholder, hne, h c hc]

theorem listing_without {signs : List Char} {l : Level} (h : l.Without signs)
    (hown : ∀ c ∈ [',', '\x7b', '\x7d'], c ∉ signs) : ∀ t ∈ listing l, Text.Without signs t := by
  have hcomma : Text.Without signs "," := Text.without_of_toList_eq (by rfl) (hown ',' (by simp))
  unfold listing
  split
  · simp
  · rw [List.forall_mem_singleton]
    refine hcomma.intercalate (List.forall_mem_map.2 fun p hp => ?_)
    exact without_placeholder (h.params p hp) (hown _ (by simp)) (hown _ (by simp))

/-- The parameters of a level. Where nothing is listed there are none. -/
def readListing (texts : List String) : List String :=
  texts.flatMap fun t => (Text.pieces ',' t).map readPlaceholder

theorem readListing_listing {l : Level} (h : l.Without separators) :
    readListing (listing l) = l.params := by
  unfold listing
  split
  · next hempty => exact (List.isEmpty_iff.1 hempty).symm
  · next hempty =>
    have hcommas : ∀ t ∈ l.params.map placeholder, Text.Without [','] t :=
      List.forall_mem_map.2 fun p hp =>
        without_placeholder ((h.mono (by decide)).params p hp) (by decide) (by decide)
    have hne : l.params.map placeholder ≠ [] := by simpa using hempty
    have hread : readPlaceholder ∘ placeholder = id := funext readPlaceholder_placeholder
    rw [readListing, List.flatMap_singleton, Text.pieces_intercalate (by rfl) hcommas hne,
      List.map_map, hread, List.map_id]

theorem sides_without {signs : List Char} {l : Level} (h : l.Without signs) (above : Option String)
    (hown : ∀ c ∈ [':', ',', '\x7b', '\x7d'], c ∉ signs) :
    ∀ t ∈ ":".intercalate (labels above l) :: listing l, Text.Without signs t := by
  have hcolon : Text.Without signs ":" := Text.without_of_toList_eq (by rfl) (hown ':' (by simp))
  rw [List.forall_mem_cons]
  exact ⟨hcolon.intercalate (labels_without h above),
    listing_without h fun c hc => hown c (List.mem_cons_of_mem _ hc)⟩

def readPart (above : Option String) (t : String) : String × String × List String :=
  let sides := Text.pieces '=' t
  let (name, owner) := readLabels above (Text.pieces ':' (sides.headD ""))
  (name, owner, readListing sides.tail)

theorem readPart_part (above : Option String) {l : Level} (h : l.Without separators) :
    readPart above (part above l) = shown l := by
  have hsides : Text.pieces '=' (part above l) = ":".intercalate (labels above l) :: listing l := by
    rw [part_eq]
    exact Text.pieces_intercalate (by rfl) (sides_without (h.mono (by decide)) above (by simp))
      (by simp)
  have hlabels : Text.pieces ':' (":".intercalate (labels above l)) = labels above l := by
    refine Text.pieces_intercalate (by rfl) (labels_without (h.mono (by decide)) above) ?_
    unfold labels
    split <;> simp
  rw [readPart, hsides, List.headD_cons, hlabels, readLabels_labels, List.tail_cons,
    readListing_listing h]
  rfl

theorem part_without {above : Option String} {l : Level} (h : l.Without separators) :
    Text.Without ['/'] (part above l) := by
  rw [part_eq]
  exact Text.Without.intercalate (by decide)
    (sides_without (h.mono (by decide)) above (by simp))

theorem parts_without {above : Option String} {ls : List Level}
    (h : ∀ l ∈ ls, l.Without separators) : ∀ t ∈ parts above ls, Text.Without ['/'] t := by
  induction ls generalizing above with
  | nil => simp [parts]
  | cons l ls ih =>
    rw [List.forall_mem_cons] at h
    rw [parts, List.forall_mem_cons]
    exact ⟨part_without h.1, ih h.2⟩

/-- Levels, outermost first. Each stands below the module of the one before. -/
def readParts (above : Option String) : List String → List (String × String × List String)
  | [] => []
  | t :: ts =>
    let l := readPart above t
    l :: readParts (some l.2.1) ts

theorem readParts_parts (above : Option String) {ls : List Level}
    (h : ∀ l ∈ ls, l.Without separators) : readParts above (parts above ls) = ls.map shown := by
  induction ls generalizing above with
  | nil => rfl
  | cons l ls ih =>
    rw [List.forall_mem_cons] at h
    rw [parts, readParts, readPart_part above h.1]
    exact congrArg (shown l :: ·) (ih (some l.owner) h.2)

/-- The levels of a data path, which stand behind the first two of its slashes. -/
def readDataPath (path : String) : List (String × String × List String) :=
  readParts none ((Text.pieces '/' path).drop 2)

theorem readDataPath_dataPath {s : Segment} (h : ∀ l ∈ s.levels, l.Without separators)
    (hne : s.levels ≠ []) : readDataPath (dataPath s) = s.levels.map shown := by
  have hpath : dataPath s = "/".intercalate ("" :: "data" :: parts none s.levels) := by
    cases hs : s.levels with
    | nil => exact absurd hs hne
    | cons l ls => simp [dataPath, hs, parts, String.intercalate_cons_cons, ← String.append_assoc]
  have hslashes : ∀ t ∈ "" :: "data" :: parts none s.levels, Text.Without ['/'] t :=
    List.forall_mem_cons.2 ⟨by decide, List.forall_mem_cons.2 ⟨by decide, parts_without h⟩⟩
  rw [readDataPath, hpath, Text.pieces_intercalate (by rfl) hslashes (by simp)]
  exact readParts_parts none h

example : readDataPath "/data/acme:interface=\x7bname\x7d/unit/vendor:ext" =
    [("interface", "acme", ["name"]), ("unit", "acme", []), ("ext", "vendor", [])] := by
  decide

/-- A data path tells for which levels it was written. -/
theorem dataPath_inj {s s' : Segment} (h : ∀ l ∈ s.levels, l.Without separators)
    (h' : ∀ l ∈ s'.levels, l.Without separators) (hne : s.levels ≠ []) (hne' : s'.levels ≠ [])
    (heq : dataPath s = dataPath s') : s.levels.map shown = s'.levels.map shown := by
  rw [← readDataPath_dataPath h hne, heq, readDataPath_dataPath h' hne']

theorem parts_congr {above : Option String} {ls ls' : List Level}
    (h : ls.map shown = ls'.map shown) : parts above ls = parts above ls' := by
  induction ls generalizing above ls' with
  | nil => rw [List.map_eq_nil_iff.1 h.symm]
  | cons l ls ih =>
    cases ls' with
    | nil => cases h
    | cons l' ls' =>
      obtain ⟨hlevel, hlevels⟩ := List.cons.inj h
      obtain ⟨hname, hrest⟩ := Prod.mk.inj hlevel
      obtain ⟨howner, hparams⟩ := Prod.mk.inj hrest
      rw [parts, parts, part, part, hname, howner, hparams, ih hlevels]

/-- However a chain of levels was pushed, and of whatever modules, its path is read back level by
level. Two chains have one path exactly if they have the same names, modules and parameters. -/
theorem dataPath_decodable (root root' : String) {ps qs : List Segment.Push} (hps : ps ≠ [])
    (hqs : qs ≠ []) (hps' : ∀ p ∈ ps, p.Without separators)
    (hqs' : ∀ q ∈ qs, q.Without separators) :
    let s := (Segment.ofModule root).pushAll ps
    let t := (Segment.ofModule root').pushAll qs
    readDataPath (dataPath s) = s.levels.map shown ∧
      (dataPath s = dataPath t ↔ s.levels.map shown = t.levels.map shown) := by
  intro s t
  have hs : ∀ l ∈ s.levels, l.Without separators :=
    Segment.without_pushAll (by decide) (List.forall_mem_nil _) hps'
  have ht : ∀ l ∈ t.levels, l.Without separators :=
    Segment.without_pushAll (by decide) (List.forall_mem_nil _) hqs'
  have hne : ∀ {root : String} {ps : List Segment.Push}, ps ≠ [] →
      ((Segment.ofModule root).pushAll ps).levels ≠ [] := by
    intro root ps hps
    rw [← List.length_pos_iff, Segment.length_levels_pushAll]
    exact Nat.add_pos_right _ (List.length_pos_iff.2 hps)
  exact ⟨readDataPath_dataPath hs (hne hps), dataPath_inj hs ht (hne hps) (hne hqs),
    fun h => congrArg (fun l => "/data/" ++ "/".intercalate l) (parts_congr h)⟩

theorem dataPath_decodable_unit :
    let interface (readOnly : Bool) : Segment.Push := ⟨"interface", "acme", readOnly, ["name"]⟩
    let unit (key : String) : Segment.Push := ⟨"unit", "vendor", false, [key]⟩
    let s := (Segment.ofModule "acme").pushAll [interface false, unit "name"]
    let t := (Segment.ofModule "vendor").pushAll [interface true, unit "unit-name"]
    s.levels ≠ t.levels ∧
      dataPath t = "/data/acme:interface=\x7bname\x7d/vendor:unit=\x7bunit-name\x7d" ∧
      dataPath s = dataPath t ∧ s.levels.map shown = t.levels.map shown := by
  intro interface unit s t
  have hps : ∀ p ∈ [interface false, unit "name"], p.Without separators := by decide
  have hqs : ∀ q ∈ [interface true, unit "unit-name"], q.Without separators := by decide
  have hpath : dataPath s = dataPath t := by decide
  obtain ⟨-, hiff⟩ := dataPath_decodable "acme" "vendor" (by simp) (by simp) hps hqs
  exact ⟨by decide, by decide, hpath, hiff.1 hpath⟩

theorem toList_operationPath (owner name : String) : (operationPath owner name).toList =
    "/operations/".toList ++ (owner.toList ++ ':' :: name.toList) := by
  unfold operationPath
  simp

/-- The path of a procedure tells its module and its name, which may hold any sign. -/
theorem operationPath_inj {owner owner' name name' : String} (h : Text.Without [':'] owner)
    (h' : Text.Without [':'] owner') (heq : operationPath owner name = operationPath owner' name') :
    owner = owner' ∧ name = name' := by
  have hsplit : owner.toList ++ ':' :: name.toList = owner'.toList ++ ':' :: name'.toList := by
    have hchars := congrArg String.toList heq
    rw [toList_operationPath, toList_operationPath] at hchars
    exact List.append_cancel_left hchars
  have hcolon : ∀ {t : String}, Text.Without [':'] t → ':' ∉ t.toList :=
    fun ht => ht ':' (List.mem_singleton_self ':')
  obtain ⟨howner, hname⟩ := Text.before_inj (hcolon h) (hcolon h') hsplit
  exact ⟨String.toList_inj.1 howner, String.toList_inj.1 hname⟩

theorem dataPath_ne_operationPath (s : Segment) (owner name : String) :
    dataPath s ≠ operationPath owner name := by
  intro h
  have hchars := congrArg String.toList h
  rw [toList_operationPath] at hchars
  simp [dataPath] at hchars

end Restconf

end YangApi
