import Mathlib.Data.Finset.Erase
import Mathlib.Data.Finset.Insert
import YangApi.Proofs.Definitions.Build

/-! Making definitions without a count of the groupings that may still be opened. The groupings under
way are a set of names that every call changes and sees, and the calls are bounded only in how deep
they nest. Whatever groupings use each other there is a depth that is enough, for a grouping is opened
only if none of its name is under way; and with it the calls come to what the making with a count of
openings comes to. -/

namespace YangApi.Shared

/-- The definition of a grouping is begun, or done. -/
inductive Event where
  | opened (grouping : SchemaPath)
  | closed (grouping : SchemaPath)

/-- The groupings under way after an event, innermost first: none is opened while it is under way,
and the innermost is closed first. -/
def Event.step : List SchemaPath → Event → Option (List SchemaPath)
  | ps, .opened p => if p ∈ ps then none else some (p :: ps)
  | p :: ps, .closed q => if p = q then some ps else none
  | [], .closed _ => none

/-- Beginning with `ps` under way, what is opened is closed again and not opened in between. -/
def Nested (ps : List SchemaPath) (es : List Event) : Prop := es.foldlM Event.step ps = some ps

theorem Nested.nil (ps : List SchemaPath) : Nested ps [] := rfl

theorem Nested.append {ps : List SchemaPath} {es fs : List Event} (h : Nested ps es)
    (h' : Nested ps fs) : Nested ps (es ++ fs) := by
  rw [Nested, List.foldlM_append, h]
  exact h'

theorem Nested.wrap {ps : List SchemaPath} {p : SchemaPath} {es : List Event}
    (h : Nested (p :: ps) es) (hnew : p ∉ ps) :
    Nested ps ([.opened p] ++ es ++ [.closed p]) := by
  have hopen : Event.step ps (.opened p) = some (p :: ps) := if_neg hnew
  have hclose : Event.step (p :: ps) (.closed p) = some ps := if_pos rfl
  rw [Nested, List.foldlM_append, List.foldlM_append, List.foldlM_cons, hopen]
  simp only [Option.bind_eq_bind, Option.bind_some, List.foldlM_nil, Option.pure_def]
  rw [h]
  simp [hclose]

/-- How far the making of definitions has come. `building` names the groupings whose definitions are
under way; the events record when that began and ended. -/
structure Progress where
  draft : Draft
  building : Finset String := ∅
  events : List Event := []

abbrev Making := StateT Progress Option

namespace Making

def onDraft {α : Type} (f : Draft → Draft × α) : Making α :=
  modifyGet fun w => ((f w.draft).2, { w with draft := (f w.draft).1 })

def enter (p : SchemaPath) (name : String) : Making Unit :=
  modify fun w => { w with building := insert name w.building, events := w.events ++ [.opened p] }

def leave (p : SchemaPath) (name : String) : Making Unit :=
  modify fun w => { w with building := w.building.erase name, events := w.events ++ [.closed p] }

mutual

/-- Defines a node unless it is defined. At most `depth` calls are nested, and one that has none
left fails. -/
def add (c : Context) : (depth : Nat) → Interior → Making Unit
  | 0, _ => failure
  | depth + 1, i => do
    let name ← onDraft fun d => nameOf d i.head
    if (← get).draft.document.hasDefinition name then pure ()
    else
      let m ← build c depth i.site
      onDraft fun d => (d.define name m, ())

def build (c : Context) : (depth : Nat) → Site → Making Model
  | 0, _ => failure
  | depth + 1, s => do
    if s.source.uses.isEmpty then
      let m ← plain c depth s false
      pure (.plain { m with description := s.source.description })
    else
      let parents ← s.source.uses.foldlM (fun names reference => do
        let name ← addGrouping c depth reference s.source.owner
        pure (names ++ name.toList)) []
      let own ← plain c depth s true
      pure (if parents.isEmpty then .plain { own with description := s.source.description }
        else .composed s.source.description
          (parents.map .ref ++ if own.isEmpty then [] else [Model.plain own]) parents)

def plain (c : Context) : (depth : Nat) → Site → (ownOnly : Bool) → Making Plain
  | 0, _, _ => failure
  | depth + 1, s, ownOnly =>
    (Node.kept ownOnly (Node.flattenAll false s.children)).foldlM (fun m n =>
      match n.interior? with
      | none => pure (m.addChild s.source.parent n none)
      | some i => do
        add c depth i
        let name ← onDraft fun d => nameOf d i.head
        pure (m.addChild s.source.parent n (some name))) {}

def addGrouping (c : Context) : (depth : Nat) → (reference owner : String) → Making (Option String)
  | 0, _, _ => failure
  | depth + 1, reference, owner =>
    match c.grouping? reference owner with
    | none => onDraft fun d => (d.warn (.missingGrouping reference owner), none)
    | some g => do
      let name ← onDraft fun d => nameOfGrouping d reference owner
      let w ← get
      if w.draft.document.hasDefinition name || name ∈ w.building then pure (some name)
      else
        let s := Site.ofGrouping (.read reference owner) g
        enter s.key name
        let m ← build c depth s
        onDraft fun d => (d.define name m, ())
        leave s.key name
        pure (some name)

end

def child (c : Context) (depth : Nat) (p : Parent) (m : Plain) (n : Node Resolved) :
    Making Plain :=
  match n.interior? with
  | none => pure (m.addChild p n none)
  | some i => do
    add c depth i
    let name ← onDraft fun d => nameOf d i.head
    pure (m.addChild p n (some name))

theorem plain_succ (c : Context) (depth : Nat) (s : Site) (ownOnly : Bool) :
    plain c (depth + 1) s ownOnly =
      (Node.kept ownOnly (Node.flattenAll false s.children)).foldlM
        (child c depth s.source.parent) {} := rfl

end Making

def Under (ps : List SchemaPath) (w : Progress) : Prop :=
  ∀ p ∈ ps, ∃ n ∈ w.building, w.draft.names.get? p = some n

/-- No two paths share a name, and only the groupings `ps` have theirs among those under way. -/
structure Only (ps : List SchemaPath) (w : Progress) : Prop where
  distinct : w.draft.names.Distinct
  named : ∀ n ∈ w.building, ∃ p ∈ ps, w.draft.names.get? p = some n

/-- What a call that has ended leaves as it found it, with `ps` under way. -/
structure Keeps (ps : List SchemaPath) (w w' : Progress) : Prop where
  building : w'.building = w.building
  names : w.draft.names.Within w'.draft.names
  distinct : w.draft.names.Distinct → w'.draft.names.Distinct
  nested : ∃ es, w'.events = w.events ++ es ∧ Nested ps es

theorem Keeps.refl (ps : List SchemaPath) (w : Progress) : Keeps ps w w :=
  ⟨rfl, .refl _, id, [], (List.append_nil _).symm, .nil ps⟩

theorem Keeps.ofDraft {ps : List SchemaPath} {w : Progress} {d : Draft}
    (hnames : w.draft.names.Within d.names)
    (hdistinct : w.draft.names.Distinct → d.names.Distinct) : Keeps ps w { w with draft := d } :=
  ⟨rfl, hnames, hdistinct, [], (List.append_nil _).symm, .nil ps⟩

theorem Keeps.assignPath (ps : List SchemaPath) (w : Progress) (key : SchemaPath) (last : String) :
    Keeps ps w { w with draft := (w.draft.assignPath key last).1 } :=
  .ofDraft (Registry.within_assign w.draft.names key _ _) fun h => h.assign key _ _

theorem Keeps.trans {ps : List SchemaPath} {w w' w'' : Progress} (h : Keeps ps w w')
    (h' : Keeps ps w' w'') : Keeps ps w w'' where
  building := h'.building.trans h.building
  names := h.names.trans h'.names
  distinct hd := h'.distinct (h.distinct hd)
  nested := by
    obtain ⟨es, hes, hnested⟩ := h.nested
    obtain ⟨fs, hfs, hnested'⟩ := h'.nested
    exact ⟨es ++ fs, by rw [hfs, hes, List.append_assoc], hnested.append hnested'⟩

theorem Under.keep {ps : List SchemaPath} {w w' : Progress} (h : Under ps w) (hk : Keeps ps w w') :
    Under ps w' := by
  intro p hp
  obtain ⟨n, hn, hget⟩ := h p hp
  exact ⟨n, hk.building ▸ hn, hk.names p n hget⟩

theorem Only.keep {ps : List SchemaPath} {w w' : Progress} (h : Only ps w) (hk : Keeps ps w w') :
    Only ps w' where
  distinct := hk.distinct h.distinct
  named n hn := by
    obtain ⟨p, hp, hget⟩ := h.named n (hk.building ▸ hn)
    exact ⟨p, hp, hk.names p n hget⟩

/-- With `ps` under way, `x` ends from `w` if its calls may nest deep enough, and comes to `r` if only
`ps` are under way. -/
def Ends {α : Type} (ps : List SchemaPath) (x : Nat → Making α) (w : Progress) (r : Draft × α) :
    Prop :=
  ∃ a w', (∃ enough, ∀ depth, enough ≤ depth → (x depth).run w = some (a, w')) ∧ Keeps ps w w' ∧
    (Only ps w → (w'.draft, a) = r)

/-- With `ps` under way, `x` ends and does what `f` does. -/
def Follows {α : Type} (ps : List SchemaPath) (x : Nat → Making α) (f : Draft → Draft × α) : Prop :=
  ∀ w, Under ps w → Ends ps x w (f w.draft)

section calls

variable {α β : Type} {c : Context} {ps : List SchemaPath} {use : Use}

/-- A call nests one deeper than what it does. -/
theorem Ends.succ {x : Nat → Making α} {w : Progress} {r : Draft × α}
    (h : Ends ps (fun depth => x (depth + 1)) w r) : Ends ps x w r := by
  obtain ⟨a, w', ⟨enough, hrun⟩, hrest⟩ := h
  refine ⟨a, w', ⟨enough + 1, fun depth hdepth => ?_⟩, hrest⟩
  obtain ⟨depth, rfl⟩ : ∃ k, depth = k + 1 := ⟨depth - 1, by omega⟩
  exact hrun depth (by omega)

theorem Follows.succ {x : Nat → Making α} {f : Draft → Draft × α}
    (h : Follows ps (fun depth => x (depth + 1)) f) : Follows ps x f :=
  fun w hw => (h w hw).succ

theorem Ends.of_run {x : Making α} {a : α} {w w' : Progress} {r : Draft × α}
    (hrun : x.run w = some (a, w')) (hkeeps : Keeps ps w w')
    (hsame : Only ps w → (w'.draft, a) = r) : Ends ps (fun _ => x) w r :=
  ⟨a, w', ⟨0, fun _ _ => hrun⟩, hkeeps, hsame⟩

theorem Follows.pure (a : α) : Follows ps (fun _ => Pure.pure a) fun d => (d, a) :=
  fun w _ => .of_run rfl (.refl ps w) fun _ => rfl

theorem Ends.bind {x : Nat → Making α} {w : Progress} {r : Draft × α} {k : Nat → α → Making β}
    {g : α → Draft → Draft × β} (hx : Ends ps x w r)
    (hk : ∀ a w', Keeps ps w w' → Ends ps (fun depth => k depth a) w' (g a w'.draft)) :
    Ends ps (fun depth => x depth >>= k depth) w (g r.2 r.1) := by
  obtain ⟨a, w', ⟨enough, hrun⟩, hkeeps, hsame⟩ := hx
  obtain ⟨b, w'', ⟨enough', hrun'⟩, hkeeps', hsame'⟩ := hk a w' hkeeps
  refine ⟨b, w'', ⟨max enough enough', fun depth hdepth => ?_⟩, hkeeps.trans hkeeps',
    fun honly => ?_⟩
  · rw [StateT.run_bind, hrun depth (by omega)]
    exact hrun' depth (by omega)
  · rw [hsame' (honly.keep hkeeps), ← hsame honly]

theorem Ends.get {k : Nat → Progress → Making α} {w : Progress} {r : Draft × α}
    (h : Ends ps (fun depth => k depth w) w r) :
    Ends ps (fun depth => MonadState.get >>= k depth) w r := h

theorem Ends.onDraft {f : Draft → Draft × α} {k : Nat → α → Making β} {w : Progress}
    {r : Draft × β} (hkeeps : Keeps ps w { w with draft := (f w.draft).1 })
    (h : Ends ps (fun depth => k depth (f w.draft).2) { w with draft := (f w.draft).1 } r) :
    Ends ps (fun depth => Making.onDraft f >>= k depth) w r := by
  obtain ⟨a, w', hrun, hkeeps', hsame⟩ := h
  exact ⟨a, w', hrun, hkeeps.trans hkeeps', fun honly => hsame (honly.keep hkeeps)⟩

theorem Follows.bind {x : Nat → Making α} {f : Draft → Draft × α} {k : Nat → α → Making β}
    {g : α → Draft → Draft × β} (hx : Follows ps x f)
    (hk : ∀ a, Follows ps (fun depth => k depth a) (g a)) :
    Follows ps (fun depth => x depth >>= k depth) fun d => g (f d).2 (f d).1 :=
  fun w hw => (hx w hw).bind fun a w' hkeeps => hk a w' (hw.keep hkeeps)

theorem Follows.assignPath (key : SchemaPath) (last : String) :
    Follows ps (fun _ => Making.onDraft fun d => d.assignPath key last)
      fun d => d.assignPath key last :=
  fun w _ => .of_run rfl (.assignPath ps w key last) fun _ => rfl

theorem Follows.define (name : String) (m : Model) :
    Follows ps (fun _ => Making.onDraft fun d => (d.define name m, ()))
      fun d => (d.define name m, ()) :=
  fun _ _ => .of_run rfl (.ofDraft (.refl _) id) fun _ => rfl

theorem Follows.foldlM {γ : Type} {step : Nat → α → γ → Making α}
    {f : Draft × α → γ → Draft × α}
    (h : ∀ a b, Follows ps (fun depth => step depth a b) fun d => f (d, a) b) (bs : List γ) (a : α) :
    Follows ps (fun depth => bs.foldlM (step depth) a) fun d => bs.foldl f (d, a) := by
  induction bs generalizing a with
  | nil => exact .pure a
  | cons b bs ih =>
    simp only [List.foldlM_cons]
    exact (h a b).bind ih

def Level (c : Context) (ps : List SchemaPath) (use : Use) (ns : List (Node Resolved)) : Prop :=
  ∀ p ownOnly inherited m, Follows ps
    (fun depth =>
      (Node.kept ownOnly (Node.flattenAll inherited ns)).foldlM (Making.child c depth p) m)
    fun d => fillAll use p ownOnly inherited (d, m) ns

def Usage (c : Context) (ps : List SchemaPath) (use : Use) : Prop :=
  ∀ reference owner,
    Follows ps (fun depth => Making.addGrouping c depth reference owner) (use reference owner)

theorem Level.plain {s : Site} (h : Level c ps use s.children) (ownOnly : Bool) :
    Follows ps (fun depth => Making.plain c depth s ownOnly)
      fun d => below use s ownOnly (d, {}) := by
  apply Follows.succ
  simp only [Making.plain_succ]
  exact h _ _ _ _

theorem Level.build {s : Site} (h : Level c ps use s.children) (hu : Usage c ps use) :
    Follows ps (fun depth => Making.build c depth s) (build use s.source (below use s)) := by
  have huse : ∀ names reference, Follows ps
      (fun depth => do
        let name ← Making.addGrouping c depth reference s.source.owner
        Pure.pure (names ++ name.toList))
      fun d => useStep use s.source.owner (d, names) reference :=
    fun names reference => (hu _ _).bind fun name => .pure (names ++ name.toList)
  apply Follows.succ
  simp only [Making.build]
  by_cases huses : s.source.uses.isEmpty
  · simp only [huses, if_true]
    rw [funext (build_of_isEmpty use huses _)]
    exact (h.plain false).bind fun m => .pure _
  · simp only [huses, Bool.false_eq_true, if_false]
    rw [funext (build_of_uses use huses _)]
    exact (Follows.foldlM huse s.source.uses []).bind fun parents =>
      (h.plain true).bind fun own => .pure _

theorem Follows.once {name : String} {x : Nat → Making Model} {f : Draft → Draft × Model}
    (hx : Follows ps x f) :
    Follows ps
      (fun depth => do
        if (← get).draft.document.hasDefinition name then Pure.pure ()
        else
          let m ← x depth
          Making.onDraft fun d => (d.define name m, ()))
      fun d => (d.defineOnce name f, ()) := by
  intro w hw
  apply Ends.get
  by_cases h : w.draft.document.hasDefinition name
  · simp only [h, if_true, Draft.defineOnce]
    exact Follows.pure () w hw
  · simp only [h, Bool.false_eq_true, if_false, Draft.defineOnce]
    exact (hx.bind fun m => .define name m) w hw

theorem Follows.add {i : Interior}
    (hb : Follows ps (fun depth => Making.build c depth i.site)
      (Shared.build use i.site.source (below use i.site))) :
    Follows ps (fun depth => Making.add c depth i)
      fun d => ((register use i.head i.site.source (below use i.site) d).1, ()) :=
  Follows.succ ((Follows.assignPath (key i.head) i.head.name).bind fun _ => hb.once)

/-- The node's name is there when its definition begins, so it is the same when it is asked for
again. -/
theorem Follows.register {i : Interior}
    (hb : Follows ps (fun depth => Making.build c depth i.site)
      (Shared.build use i.site.source (below use i.site))) :
    Follows ps
      (fun depth => do
        Making.add c depth i
        Making.onDraft fun d => nameOf d i.head)
      fun d => register use i.head i.site.source (below use i.site) d := by
  intro w hw
  have hassign := Keeps.assignPath ps w (key i.head) i.head.name
  have hkey := w.draft.get?_assignPath (key i.head) i.head.name
  have hlast : ∀ (u : Unit) w', Keeps ps { w with draft := (nameOf w.draft i.head).1 } w' →
      Ends ps (fun _ => Making.onDraft fun d => nameOf d i.head) w'
        (w'.draft, (nameOf w.draft i.head).2) := by
    intro _ w' hkeeps
    have hsame : nameOf w'.draft i.head = (w'.draft, (nameOf w.draft i.head).2) :=
      Draft.assignPath_eq (hkeeps.names _ _ hkey) _
    refine .of_run ?_ (.refl ps w') fun _ => rfl
    change some ((nameOf w'.draft i.head).2, { w' with draft := (nameOf w'.draft i.head).1 }) = _
    rw [hsame]
  apply Ends.succ
  simp only [Making.add, bind_assoc]
  refine Ends.onDraft hassign ?_
  exact (hb.once _ (hw.keep hassign)).bind (g := fun _ d => (d, (nameOf w.draft i.head).2)) hlast

theorem Follows.kept {n : Node Resolved} {ownOnly : Bool} {p : Parent} {m : Plain}
    {f : Draft → Draft × Plain} (h : Follows ps (fun depth => Making.child c depth p m n) f)
    (b : Bool) :
    Follows ps (fun depth => (Node.kept ownOnly [(n, b)]).foldlM (Making.child c depth p) m)
      fun d => if ownOnly && b then (d, m) else f d := by
  rw [Node.kept_singleton]
  by_cases hskip : ownOnly && b
  · simp only [hskip, if_true]
    exact .pure m
  · simp only [hskip, Bool.false_eq_true, if_false, List.foldlM_cons, List.foldlM_nil, bind_pure]
    exact h

theorem Level.cases {ks : Cases Resolved} (hks : ∀ k ∈ ks, Level c ps use k.2) (p : Parent)
    (ownOnly inherited : Bool) (m : Plain) :
    Follows ps
      (fun depth =>
        (Node.kept ownOnly (Node.flattenCases inherited ks)).foldlM (Making.child c depth p) m)
      fun d => fillCases use p ownOnly inherited (d, m) ks := by
  induction ks generalizing m with
  | nil => exact .pure m
  | cons k ks ih =>
    simp only [Node.flattenCases, Node.kept_append, List.foldlM_append]
    have hfirst := hks k (List.mem_cons_self ..) p ownOnly inherited m
    exact hfirst.bind fun m' => ih (fun k' hk' => hks k' (List.mem_cons_of_mem _ hk')) m'

theorem Level.all (hu : Usage c ps use) (ns : List (Node Resolved)) : Level c ps use ns := by
  induction ns using Node.levels with
  | nil => exact fun _ _ _ m => .pure m
  | cons n ns ihn ihns =>
    intro p ownOnly inherited m
    rw [Node.flattenAll_cons, Node.kept_append]
    simp only [List.foldlM_append]
    exact (ihn p ownOnly inherited m).bind fun m' => ihns p ownOnly inherited m'
  | choice r ks ih =>
    intro p ownOnly inherited m
    rw [Node.flattenAll_singleton, Node.flatten]
    exact Level.cases ih p ownOnly _ m
  | inner r shape uses cs ih =>
    intro p ownOnly inherited m
    simp only [Node.flattenAll_singleton, Node.flatten, fillAll, fill]
    have hregister := (ih.build (s := Interior.site ⟨r, shape, uses, cs⟩) hu).register
    have hchild := hregister.bind (g := fun name d => (d, m.addChild p _ (some name)))
      fun name => .pure (m.addChild p (.inner r shape uses cs) (some name))
    simp only [bind_assoc] at hchild
    exact hchild.kept _
  | leaf | leafList | anyxml =>
    intro p ownOnly inherited m
    simp only [Node.flattenAll_singleton, Node.flatten, fillAll, fill]
    exact Follows.kept (.pure _) _

/-- A call between the opening of a grouping and its closing. While it runs the grouping's name is
under way, where it was not before. -/
theorem Ends.wrap {p : SchemaPath} {name : String} {w : Progress} {x : Nat → Making Unit}
    {f : Draft → Draft × Unit} (hx : Follows (p :: ps) x f) (hw : Under ps w)
    (hget : w.draft.names.get? p = some name) (hnew : name ∉ w.building) (a : α) :
    Ends ps
      (fun depth => do
        Making.enter p name
        x depth
        Making.leave p name
        Pure.pure a)
      w ((f w.draft).1, a) := by
  let w₁ : Progress := ⟨w.draft, insert name w.building, w.events ++ [.opened p]⟩
  have hfresh : p ∉ ps := by
    intro hp
    obtain ⟨n, hn, hget'⟩ := hw p hp
    exact hnew (Option.some.inj (hget'.symm.trans hget) ▸ hn)
  have hunder : Under (p :: ps) w₁ := by
    intro q hq
    rcases List.mem_cons.1 hq with rfl | hq
    · exact ⟨name, Finset.mem_insert_self _ _, hget⟩
    · obtain ⟨n, hn, hget'⟩ := hw q hq
      exact ⟨n, Finset.mem_insert_of_mem hn, hget'⟩
  have honly : Only ps w → Only (p :: ps) w₁ := by
    refine fun h => ⟨h.distinct, fun n hn => ?_⟩
    rcases Finset.mem_insert.1 hn with rfl | hn
    · exact ⟨p, List.mem_cons_self .., hget⟩
    · obtain ⟨q, hq, hget'⟩ := h.named n hn
      exact ⟨q, List.mem_cons_of_mem _ hq, hget'⟩
  obtain ⟨u, w₂, ⟨enough, hrun⟩, hkeeps, hsame⟩ := hx w₁ hunder
  obtain ⟨es, hes, hnested⟩ := hkeeps.nested
  refine ⟨a, ⟨w₂.draft, w₂.building.erase name, w₂.events ++ [.closed p]⟩,
    ⟨enough, fun depth hdepth => ?_⟩,
    ⟨?_, hkeeps.names, hkeeps.distinct, _, ?_, hnested.wrap hfresh⟩, fun h => ?_⟩
  · change ((x depth).run w₁).bind _ = _
    rw [hrun depth hdepth]
    rfl
  · change w₂.building.erase name = w.building
    rw [hkeeps.building]
    exact Finset.erase_insert hnew
  · simp [hes, w₁]
  · exact congrArg (fun r => (r.1, a)) (hsame (honly h))

end calls

section groupings

variable {c : Context} {ps : List SchemaPath} {opens : Nat} {reference owner : String} {w : Progress}

def Progress.named (w : Progress) (reference owner : String) : Progress :=
  { w with draft := (nameOfGrouping w.draft reference owner).1 }

theorem Keeps.named (ps : List SchemaPath) (w : Progress) (reference owner : String) :
    Keeps ps w (w.named reference owner) :=
  .assignPath ps w _ _

theorem get?_named (w : Progress) (reference owner : String) :
    (w.named reference owner).draft.names.get? (GroupingRef.read reference owner).path =
      some (nameOfGrouping w.draft reference owner).2 :=
  w.draft.get?_assignPath _ _

theorem Under.name_mem (hw : Under ps w) (h : (GroupingRef.read reference owner).path ∈ ps) :
    (nameOfGrouping w.draft reference owner).2 ∈ w.building := by
  obtain ⟨n, hn, hget⟩ := hw.keep (.named ps w reference owner) _ h
  rw [get?_named] at hget
  exact Option.some.inj hget ▸ hn

theorem Only.path_mem (honly : Only ps (w.named reference owner))
    (h : (nameOfGrouping w.draft reference owner).2 ∈ w.building) :
    (GroupingRef.read reference owner).path ∈ ps := by
  obtain ⟨p, hp, hget⟩ := honly.named _ h
  exact honly.distinct _ _ _ hget (get?_named w reference owner) ▸ hp

theorem Ends.missing (hg : c.grouping? reference owner = none) :
    Ends ps (fun depth => Making.addGrouping c depth reference owner) w
      (useGrouping c opens ps reference owner w.draft) := by
  apply Ends.succ
  simp only [useGrouping_none hg, Making.addGrouping, hg]
  exact .of_run rfl (.ofDraft (.refl _) id) fun _ => rfl

/-- A grouping that is there, or whose name is under way, is only named. -/
theorem Ends.named {g : Grouping Resolved} (hg : c.grouping? reference owner = some g)
    (h : (nameOfGrouping w.draft reference owner).1.document.hasDefinition
      (nameOfGrouping w.draft reference owner).2 ∨
        (nameOfGrouping w.draft reference owner).2 ∈ w.building) :
    Ends ps (fun depth => Making.addGrouping c depth reference owner) w
      (useGrouping c opens ps reference owner w.draft) := by
  apply Ends.succ
  simp only [Making.addGrouping, hg]
  refine Ends.onDraft (.named ps w reference owner) (Ends.get ?_)
  simp only [Bool.or_eq_true, decide_eq_true_eq, h, if_true]
  refine .of_run rfl (.refl ps _) fun honly => ?_
  rw [useGrouping_named hg (h.imp id honly.path_mem)]

/-- Any other grouping is built while its name is under way. -/
theorem Ends.opened {g : Grouping Resolved} (hg : c.grouping? reference owner = some g)
    (hw : Under ps w)
    (hu : Usage c ((GroupingRef.read reference owner).path :: ps)
      (useGrouping c opens ((GroupingRef.read reference owner).path :: ps)))
    (h : ¬ ((nameOfGrouping w.draft reference owner).1.document.hasDefinition
      (nameOfGrouping w.draft reference owner).2 ∨
        (nameOfGrouping w.draft reference owner).2 ∈ w.building)) :
    Ends ps (fun depth => Making.addGrouping c depth reference owner) w
      (useGrouping c (opens + 1) ps reference owner w.draft) := by
  let s := Site.ofGrouping (.read reference owner) g
  have hnew : (GroupingRef.read reference owner).path ∉ ps :=
    fun hmem => h (.inr (hw.name_mem hmem))
  have hbuild : Follows (s.key :: ps) (fun depth => Making.build c depth s) _ :=
    (Level.all hu s.children).build hu
  have hdefine :=
    hbuild.bind fun m => Follows.define (nameOfGrouping w.draft reference owner).2 m
  have hwrap := Ends.wrap hdefine (hw.keep (.named ps w reference owner))
    (get?_named w reference owner) (not_or.1 h).2 (some (nameOfGrouping w.draft reference owner).2)
  simp only [bind_assoc] at hwrap
  rw [useGrouping_opened hg (not_or.2 ⟨(not_or.1 h).1, hnew⟩)]
  apply Ends.succ
  simp only [Making.addGrouping, hg]
  refine Ends.onDraft (.named ps w reference owner) (Ends.get ?_)
  simp only [Bool.or_eq_true, decide_eq_true_eq, h, if_false]
  exact hwrap

/-- Every grouping under way is another one, so they run out and the calls end. -/
theorem Usage.all (hnodup : ps.Nodup) (hsub : ps ⊆ c.groupingPaths)
    (hopens : c.groupingCount ≤ opens + ps.length) : Usage c ps (useGrouping c opens ps) := by
  induction opens generalizing ps with
  | zero =>
    intro reference owner w hw
    cases hg : c.grouping? reference owner with
    | none => exact .missing hg
    | some g =>
      have hmem : (GroupingRef.read reference owner).path ∈ ps :=
        Context.mem_of_groupingCount_le hnodup hsub (by omega) (Context.path_mem_groupingPaths hg)
      exact .named hg (.inr (hw.name_mem hmem))
  | succ opens ih =>
    intro reference owner w hw
    cases hg : c.grouping? reference owner with
    | none => exact .missing hg
    | some g =>
      by_cases h : (nameOfGrouping w.draft reference owner).1.document.hasDefinition
          (nameOfGrouping w.draft reference owner).2 ∨
            (nameOfGrouping w.draft reference owner).2 ∈ w.building
      · exact .named hg h
      · have hnew : (GroupingRef.read reference owner).path ∉ ps :=
          fun hmem => h (.inr (hw.name_mem hmem))
        refine .opened hg hw (ih (List.nodup_cons.2 ⟨hnew, hnodup⟩) ?_ ?_) h
        · exact List.cons_subset.2 ⟨Context.path_mem_groupingPaths hg, hsub⟩
        · rw [List.length_cons]
          omega

end groupings

def Progress.underWay (c : Context) (w : Progress) : List SchemaPath :=
  c.groupingPaths.dedup.filter fun p => (w.draft.names.get? p).any (· ∈ w.building)

theorem under_underWay (c : Context) (w : Progress) : Under (w.underWay c) w := by
  intro p hp
  obtain ⟨n, hget, hn⟩ := (Option.any_eq_true _ _).1 (List.mem_filter.1 hp).2
  exact ⟨n, of_decide_eq_true hn, hget⟩

/-- From wherever it starts the call ends, with the groupings under way as they were. Those that it
opens it closes, and opens none inside itself or while it was under way at the start. -/
def Making.Returns {α : Type} (c : Context) (x : Nat → Making α) : Prop :=
  ∀ w, ∃ a w', (∃ enough, ∀ depth, enough ≤ depth → (x depth).run w = some (a, w')) ∧
    w'.building = w.building ∧ ∃ es, w'.events = w.events ++ es ∧ Nested (w.underWay c) es

theorem Making.Returns.of_follows {α : Type} {c : Context} {x : Nat → Making α}
    {f : List SchemaPath → Draft → Draft × α}
    (h : ∀ ps : List SchemaPath, ps.Nodup → ps ⊆ c.groupingPaths → Follows ps x (f ps)) :
    Making.Returns c x := by
  intro w
  have hnodup : (w.underWay c).Nodup := (List.nodup_dedup _).filter _
  have hsub : w.underWay c ⊆ c.groupingPaths :=
    fun p hp => List.mem_dedup.1 (List.mem_filter.1 hp).1
  obtain ⟨a, w', hrun, hkeeps, -⟩ := h _ hnodup hsub w (under_underWay c w)
  exact ⟨a, w', hrun, hkeeps.building, hkeeps.nested⟩

/-- The recursion that makes definitions ends for every node from every progress, whatever groupings
use each other or themselves, and all its calls return. Where no two paths share a name and nothing
is under way, it comes to what the making with a count of openings comes to. -/
theorem making_ends (c : Context) :
    (∀ i, Making.Returns c fun depth => Making.add c depth i) ∧
      (∀ s, Making.Returns c fun depth => Making.build c depth s) ∧
      (∀ s ownOnly, Making.Returns c fun depth => Making.plain c depth s ownOnly) ∧
      (∀ reference owner,
        Making.Returns c fun depth => Making.addGrouping c depth reference owner) ∧
      ∀ i w, w.building = ∅ → w.draft.names.Distinct → ∃ enough, ∀ depth, enough ≤ depth →
        ((Making.add c depth i).run w).map (fun r => r.2.draft) = some (Shared.add c w.draft i) := by
  have huse : ∀ ps : List SchemaPath, ps.Nodup → ps ⊆ c.groupingPaths →
      Usage c ps (useGrouping c c.groupingCount ps) :=
    fun ps hnodup hsub => Usage.all hnodup hsub (by omega)
  have hbuild : ∀ ps : List SchemaPath, ps.Nodup → ps ⊆ c.groupingPaths → ∀ s,
      Follows ps (fun depth => Making.build c depth s)
        (build (useGrouping c c.groupingCount ps) s.source
          (below (useGrouping c c.groupingCount ps) s)) :=
    fun ps hnodup hsub s => (Level.all (huse ps hnodup hsub) _).build (huse ps hnodup hsub)
  refine ⟨fun i => ?_, fun s => ?_, fun s ownOnly => ?_, fun reference owner => ?_,
    fun i w hnone hdistinct => ?_⟩
  · exact .of_follows fun ps hnodup hsub => (hbuild ps hnodup hsub i.site).add
  · exact .of_follows fun ps hnodup hsub => hbuild ps hnodup hsub s
  · exact .of_follows fun ps hnodup hsub => (Level.all (huse ps hnodup hsub) _).plain ownOnly
  · exact .of_follows fun ps hnodup hsub => huse ps hnodup hsub reference owner
  · have hadd := (hbuild [] List.nodup_nil (List.nil_subset _) i.site).add
    obtain ⟨_, w', ⟨enough, hrun⟩, -, hsame⟩ := hadd w fun p hp => absurd hp List.not_mem_nil
    have honly : Only [] w := ⟨hdistinct, by simp [hnone]⟩
    refine ⟨enough, fun depth hdepth => ?_⟩
    rw [hrun depth hdepth]
    exact congrArg (fun r => some r.1) (hsame honly)

/-- Two groupings that use each other and themselves, from their children too. -/
def ring : List (Module Declared) :=
  let node (name : String) (uses : List String) : Node Declared :=
    .inner ⟨name, none, none, none, none⟩ (.container false) uses []
  [{ name := "net", xmlNamespace := none, abbreviation := none, revision := none
     description := none
     children := [node "hub" ["left"]]
     rpcs := []
     groupings := [⟨"left", none, [node "onward" ["right"], node "again" ["left"]], ["left"]⟩,
       ⟨"right", none, [node "back" ["left"]], ["right", "left"]⟩] }]

theorem making_ends_ring : ∃ c i w, Context.resolve ring = .ok c ∧ i ∈ c.interiors ∧
    w.building = ∅ ∧ w.draft.names.Distinct ∧ ∃ enough, ∀ depth, enough ≤ depth →
      ((Making.add c depth i).run w).map (fun r => r.2.draft.document.table.keys) =
        some ["Back", "Right", "Onward", "Again", "Left", "Hub"] := by
  obtain ⟨c, hresolve⟩ : ∃ c, Context.resolve ring = .ok c := ⟨_, rfl⟩
  obtain ⟨i, hi, hdefined⟩ : ∃ i ∈ c.interiors, (add c {} i).document.table.keys =
      ["Back", "Right", "Onward", "Again", "Left", "Hub"] := by
    cases hresolve
    refine ⟨_, List.mem_cons_self .., ?_⟩
    decide +kernel
  obtain ⟨enough, hrun⟩ := (making_ends c).2.2.2.2 i { draft := {} } rfl Registry.distinct_empty
  refine ⟨c, i, { draft := {} }, hresolve, hi, rfl, Registry.distinct_empty, enough,
    fun depth hdepth => ?_⟩
  have hkeys := congrArg (Option.map fun d => d.document.table.keys) (hrun depth hdepth)
  rw [Option.map_map, Option.map_some, hdefined] at hkeys
  exact hkeys

end YangApi.Shared
