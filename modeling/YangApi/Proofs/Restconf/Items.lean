import YangApi.Proofs.Alias.Stable
import YangApi.Proofs.Restconf.Layout
import YangApi.Proofs.Restconf.Operations
import YangApi.Proofs.Unpacked

/-! What the operations of a data path say. If a path is written for one definition only, then all
that stands there names that definition and refers to it, and when aliases are collapsed the
references go to what the definition stands for. -/

namespace YangApi

/-- How the operations on data begin to describe themselves; data is not patched. -/
def Method.phrase : Method → String
  | .get => "returns "
  | .put => "creates or updates "
  | .post => "creates "
  | .delete => "removes "
  | .patch => ""

namespace Operation

/-- The operation of a method refers to the definition of its data. A removal has no content. -/
def RefersTo (definition : String) (o : Operation) : Method → Prop
  | .get => (o.responses.get? "200").bind Response.schema = some (.ref definition none)
  | .put | .post => o.body?.map BodyParam.schema = some (.ref definition)
  | .delete => True
  | .patch => False

/-- It refers to the definition and describes its content by the name of it. -/
def Carries (definition : String) (o : Operation) : Method → Prop
  | .get => o.responses.get? "200" = some (Restconf.returning definition definition)
  | .put =>
    o.body? = some ⟨"body", some (definition ++ " to be added or updated"), true, .ref definition⟩
  | .post =>
    o.body? = some ⟨"body", some (definition ++ " to be added to list"), true, .ref definition⟩
  | .delete => True
  | .patch => False

/-- It carries the definition, and calls it `text` where it describes itself. -/
structure Describes (definition text : String) (o : Operation) (m : Method) : Prop where
  itself : o.description = some (m.phrase ++ text)
  content : o.Carries definition m

variable {definition text : String} {o : Operation} {m : Method} {a : AliasMap}

theorem Carries.refersTo (h : o.Carries definition m) : o.RefersTo definition m := by
  cases m with
  | get =>
    have hresponse : o.responses.get? "200" = _ := h
    simp [RefersTo, hresponse, Restconf.returning]
  | put | post =>
    have hbody : o.body? = _ := h
    simp [RefersTo, hbody]
  | delete => trivial
  | patch => exact h

theorem body?_retarget (a : AliasMap) (o : Operation) :
    (o.retarget a).body? = o.body?.map (BodyParam.retarget a) := by
  unfold body? retarget
  dsimp only
  induction o.parameters with
  | nil => rfl
  | cons p ps ih =>
    cases p with
    | body b => rfl
    | path p => exact ih

theorem get?_responses_retarget (a : AliasMap) (o : Operation) (code : String) :
    (o.retarget a).responses.get? code = (o.responses.get? code).map (Response.retarget a) :=
  Table.get?_map _ _ _

theorem RefersTo.retarget (h : o.RefersTo definition m) (a : AliasMap) :
    (o.retarget a).RefersTo (a.target definition) m := by
  cases m with
  | get =>
    obtain ⟨r, hr, hschema⟩ := Option.bind_eq_some_iff.1 h
    have hreference : r.schema.map (Property.retargetSchema a) =
        some (.ref (a.target definition) none) := by rw [hschema]; rfl
    rw [RefersTo, get?_responses_retarget, hr]
    exact hreference
  | put | post =>
    obtain ⟨b, hb, hschema⟩ := Option.map_eq_some_iff.1 h
    have hreference : b.schema.retarget a = .ref (a.target definition) := by rw [hschema]; rfl
    rw [RefersTo, body?_retarget, hb]
    exact congrArg some hreference
  | delete => trivial
  | patch => exact h

end Operation

namespace Restconf

variable {rules : List TagRule} {s : Segment} {definition : String}

theorem body?_withBody (m : Method) (name description : String) :
    (withBody (base rules m s) (body name definition description)).body? =
      some ⟨name, some description, true, .ref definition⟩ := by
  unfold withBody Operation.body? base body
  dsimp only
  induction s.params with
  | nil => rfl
  | cons p ps ih => exact ih

theorem describes_setData {m : Method} {o : Operation}
    (h : (setData rules s definition {}).get? m = some o) :
    o.Describes definition definition m := by
  cases dataOperation_of_get?_setData h with
  | get => exact ⟨rfl, rfl⟩
  | put => exact ⟨rfl, body?_withBody .put _ _⟩
  | post => exact ⟨rfl, body?_withBody .post _ _⟩
  | delete => exact ⟨rfl, trivial⟩

theorem isSome_get?_setData {m : Method} : ((setData rules s definition {}).get? m).isSome ↔
    m = .get ∨ (m ≠ .patch ∧ ¬ s.isReadOnly) := by
  unfold setData
  dsimp only
  split <;> cases m <;> simp_all [PathItem.get?, PathItem.set]

end Restconf

/-- The data of a path can be read, and all that can be done with it is as `P` says. -/
structure PathItem.Offers (P : Operation → Method → Prop) (i : PathItem) : Prop where
  read : (i.get? .get).isSome
  operations : ∀ m o, i.get? m = some o → P o m

theorem PathItem.Offers.map {P Q : Operation → Method → Prop} {i : PathItem} (h : i.Offers P)
    {f : Operation → Operation} (hf : ∀ o m, P o m → Q (f o) m) : (i.map f).Offers Q where
  read := by
    rw [get?_map, Option.isSome_map]
    exact h.read
  operations m o ho := by
    rw [get?_map] at ho
    obtain ⟨o', ho', rfl⟩ := Option.map_eq_some_iff.1 ho
    exact hf o' m (h.operations m o' ho')

/-- Where `f` finds something first, any `g` that finds nothing where `f` finds nothing has its first
find as well, or finds nothing there. -/
theorem exists_first {α β : Type} {l : List α} {f : α → Option β} {b : β}
    (hf : l.findSome? f = some b) : ∃ a ∈ l, f a = some b ∧
      ∀ g : α → Option β, (∀ x ∈ l, f x = none → g x = none) →
        ∀ c, g a = some c → l.findSome? g = some c := by
  obtain ⟨before, a, after, rfl, ha, hbefore⟩ := List.findSome?_eq_some_iff.1 hf
  refine ⟨a, by simp, ha, fun g hg c hc => ?_⟩
  refine List.findSome?_eq_some_iff.2 ⟨before, a, after, rfl, hc, fun x hx => ?_⟩
  exact hg x (List.mem_append_left _ hx) (hbefore x hx)

namespace Visit

variable {rules : List TagRule} {nameOf : Resolved → String}

/-- What a visit sets on the data path of `s`. -/
def set? (rules : List TagRule) (nameOf : Resolved → String) (s : Segment) (m : Method) :
    Visit → Option Operation
  | .path i s' =>
    if Restconf.dataPath s' = Restconf.dataPath s then
      (Restconf.setData rules s' (nameOf i.head) {}).get? m
    else none
  | _ => none

theorem exists_of_set? {s : Segment} {m : Method} {v : Visit} {o : Operation}
    (h : v.set? rules nameOf s m = some o) : ∃ i s', v = .path i s' ∧
      Restconf.dataPath s' = Restconf.dataPath s ∧
      ∀ m, v.set? rules nameOf s m = (Restconf.setData rules s' (nameOf i.head) {}).get? m := by
  cases v with
  | define i => cases h
  | rpc r s' => cases h
  | path i s' =>
    rw [set?] at h
    split at h
    · next hpath => exact ⟨i, s', rfl, hpath, fun m => if_pos hpath⟩
    · cases h

theorem set?_eq_none {s : Segment} {v : Visit} (h : v.set? rules nameOf s .get = none) (m : Method) :
    v.set? rules nameOf s m = none := by
  rw [Option.eq_none_iff_forall_ne_some]
  intro o ho
  obtain ⟨i, s', -, -, hset⟩ := exists_of_set? ho
  have hread : (v.set? rules nameOf s .get).isSome := by
    rw [hset]
    exact Restconf.isSome_get?_setData.2 (.inl rfl)
  rw [h] at hread
  cases hread

/-- A data path is only written by the containers and lists which have it. -/
theorem set?_eq (moduleName : String) (s : Segment) (m : Method) (v : Visit) :
    v.set? rules nameOf s m = v.written? rules nameOf (Restconf.dataPath s) m moduleName := by
  cases v with
  | define i => rfl
  | path i s' => rfl
  | rpc r s' =>
    rw [written?, if_neg fun h => Restconf.dataPath_ne_operationPath _ _ _ h.1.symm]
    rfl

end Visit

theorem Document.paths_collapse (d : Document) (chains : Bool) : (d.collapse chains).1.paths =
    d.paths.map fun _ i => i.map (Operation.retarget (aliases chains d.table)) := by
  rw [collapse_eq]
  rfl

namespace Generator

variable {g : Generator} {i : Interior} {p n : String}

/-- The run calls its handler for a container or list whose data path is `p`. -/
def Calls (g : Generator) (p : String) (i : Interior) (s : Segment) : Prop :=
  (∃ moduleName, (moduleName, Visit.path i s) ∈ g.visits) ∧ Restconf.dataPath s = p

/-- The run writes the operations of a container or list to the path `p`. -/
def Writes (g : Generator) (p : String) (i : Interior) : Prop := ∃ s, g.Calls p i s

/-- Containers and lists on one path that have different definitions are all read-only, or none of
them is. -/
def Alike (g : Generator) (p : String) : Prop :=
  ∀ i s j t, g.Calls p i s → g.Calls p j t →
    g.modelName i.head = g.modelName j.head ∨ s.isReadOnly = t.isReadOnly

/-- The aliases that the run takes out of its document. -/
def aliases (g : Generator) : AliasMap :=
  Document.aliases g.config.collapseAliasChains g.draft.document.table

/-- Without chains an alias goes to what it stands for in the draft. -/
theorem target_aliases_of_step {a b : String} (hsingle : g.config.collapseAliasChains = false)
    (h : (AliasMap.ofDefinitions g.draft.document.table).Step a b) : g.aliases.target a = b := by
  have hget : (AliasMap.ofDefinitions g.draft.document.table).get? a = some b := h
  rw [aliases, hsingle, Document.aliases, if_neg Bool.false_ne_true, AliasMap.target, hget,
    Option.getD_some]

/-- With chains it goes to the end behind that, if there is one. -/
theorem target_aliases_of_end {a b e : String} (hchains : g.config.collapseAliasChains = true)
    (h : (AliasMap.ofDefinitions g.draft.document.table).Step a b)
    (he : Relation.ReflTransGen (AliasMap.ofDefinitions g.draft.document.table).Step b e)
    (hend : e ∉ (AliasMap.ofDefinitions g.draft.document.table).names) :
    g.aliases.target a = e := by
  rw [aliases, hchains, Document.aliases, if_pos rfl]
  exact AliasMap.target_closed_of_end h he hend

theorem Writes.visited (h : g.Writes p i) : g.Visited i := by
  obtain ⟨s, ⟨moduleName, hv⟩, -⟩ := h
  exact ⟨_, hv, List.mem_singleton_self i⟩

theorem get?_paths_result (g : Generator) (p : String) : g.result.paths.get? p =
    (g.draft.document.paths.get? p).map (PathItem.map (Operation.retarget g.aliases)) := by
  have hpaths : g.result.paths =
      g.draft.document.paths.map fun _ i => i.map (Operation.retarget g.aliases) :=
    Document.paths_collapse { g.draft.document with info := g.info } _
  rw [hpaths, Table.get?_map]

theorem operation?_result (g : Generator) (p : String) (m : Method) :
    g.result.paths.operation? p m =
      (g.draft.document.paths.operation? p m).map (Operation.retarget g.aliases) := by
  rw [Table.operation?, get?_paths_result, Table.operation?]
  cases g.draft.document.paths.get? p with
  | none => rfl
  | some item => exact PathItem.get?_map _ _ _

/-- What a call sets on the data path of `s`. -/
def setBy (g : Generator) (s : Segment) (m : Method) (v : String × Visit) : Option Operation :=
  v.2.set? g.handler.rules (fun r => g.finalName (g.config.strategy.key r)) s m

theorem operation?_draft (g : Generator) (s : Segment) (m : Method) :
    g.draft.document.paths.operation? (Restconf.dataPath s) m =
      g.visits.reverse.findSome? (g.setBy s m) := by
  rw [operation?_draft_eq]
  have hset : g.writtenBy (Restconf.dataPath s) m = g.setBy s m :=
    funext fun v => (Visit.set?_eq v.1 s m v.2).symm
  rw [hset]

theorem exists_of_setBy {s : Segment} {m : Method} {v : String × Visit} {o : Operation}
    (hv : v ∈ g.visits) (h : g.setBy s m v = some o) :
    ∃ i t, g.Calls (Restconf.dataPath s) i t ∧ ∀ m, g.setBy s m v =
      (Restconf.setData g.handler.rules t (g.modelName i.head) {}).get? m := by
  obtain ⟨i, t, hpath, hdata, hset⟩ := Visit.exists_of_set? h
  have hcalls : g.Calls (Restconf.dataPath s) i t := ⟨⟨v.1, hpath ▸ hv⟩, hdata⟩
  refine ⟨i, t, hcalls, ?_⟩
  rw [modelName_eq (settled_draft (Writes.visited ⟨t, hcalls⟩))]
  exact hset

/-- Everything on a data path describes the definition of a container or list that has the path. -/
theorem offers_draft (hi : g.Writes p i) :
    ∃ item, g.draft.document.paths.get? p = some item ∧ item.Offers fun o m =>
      ∃ j, g.Writes p j ∧ o.Describes (g.modelName j.head) (g.modelName j.head) m := by
  obtain ⟨s, ⟨moduleName, hv⟩, rfl⟩ := hi
  have hset := g.operation?_draft s
  have hread : (g.draft.document.paths.operation? (Restconf.dataPath s) .get).isSome := by
    rw [hset, List.findSome?_isSome_iff]
    refine ⟨_, List.mem_reverse.2 hv, ?_⟩
    rw [setBy, Visit.set?, if_pos rfl]
    exact Restconf.isSome_get?_setData.2 (.inl rfl)
  obtain ⟨o, ho⟩ := Option.isSome_iff_exists.1 hread
  obtain ⟨item, hitem, hget⟩ := Option.bind_eq_some_iff.1 ho
  refine ⟨item, hitem, by rw [hget]; rfl, fun m o ho => ?_⟩
  have hlast := hset m
  rw [Table.operation?, hitem, Option.bind_some, ho] at hlast
  obtain ⟨v, hv, hby⟩ := List.exists_of_findSome?_eq_some hlast.symm
  obtain ⟨j, t, hj, hdata⟩ := exists_of_setBy (List.mem_reverse.1 hv) hby
  exact ⟨j, ⟨t, hj⟩, Restconf.describes_setData ((hdata m).symm.trans hby)⟩

/-- If they are alike, all of it describes the definition of the one which comes last. -/
theorem offers_draft_of_alike (hi : g.Writes p i) (halike : g.Alike p) {item : PathItem}
    (hitem : g.draft.document.paths.get? p = some item) : ∃ j, g.Writes p j ∧
      item.Offers (Operation.Describes (g.modelName j.head) (g.modelName j.head)) := by
  obtain ⟨item', hitem', hread, hoperations⟩ := offers_draft hi
  obtain rfl := Option.some.inj (hitem'.symm.trans hitem)
  obtain ⟨s, -, rfl⟩ := hi
  have hset : ∀ m, item'.get? m = g.visits.reverse.findSome? (g.setBy s m) := fun m => by
    rw [← operation?_draft, Table.operation?, hitem, Option.bind_some]
  obtain ⟨read, hget⟩ := Option.isSome_iff_exists.1 hread
  rw [hset] at hget
  obtain ⟨v, hv, hby, hfirst⟩ := exists_first hget
  obtain ⟨j, t, hj, hdata⟩ := exists_of_setBy (List.mem_reverse.1 hv) hby
  refine ⟨j, ⟨t, hj⟩, by rw [hset, hget]; rfl, fun m o ho => ?_⟩
  have hlast := (hset m).symm.trans ho
  obtain ⟨w, hw, hwby⟩ := List.exists_of_findSome?_eq_some hlast
  obtain ⟨k, u, hk, hkdata⟩ := exists_of_setBy (List.mem_reverse.1 hw) hwby
  have hwrote := (hkdata m).symm.trans hwby
  rcases halike j t k u hj hk with hname | haccess
  · rw [hname]
    exact Restconf.describes_setData hwrote
  · -- with the same access, what comes last sets this method as well
    have hsets := Restconf.isSome_get?_setData.1 (Option.isSome_iff_exists.2 ⟨o, hwrote⟩)
    rw [← haccess] at hsets
    obtain ⟨o', ho'⟩ := Option.isSome_iff_exists.1 (Restconf.isSome_get?_setData.2 hsets)
    have hnew := hfirst (g.setBy s m) (fun x _ hx => Visit.set?_eq_none hx m) o'
      ((hdata m).trans ho')
    obtain rfl := Option.some.inj (hnew.symm.trans hlast)
    exact Restconf.describes_setData ho'

theorem offers_result (hi : g.Writes p i) (hall : ∀ j, g.Writes p j → g.modelName j.head = n) :
    ∃ item, g.result.paths.get? p = some item ∧
      item.Offers (Operation.RefersTo (g.aliases.target n)) := by
  obtain ⟨item, hitem, hoffers⟩ := offers_draft hi
  refine ⟨item.map (Operation.retarget g.aliases), ?_, ?_⟩
  · rw [get?_paths_result, hitem]
    rfl
  · refine hoffers.map fun o m h => ?_
    obtain ⟨j, hj, hdescribes⟩ := h
    rw [hall j hj] at hdescribes
    exact hdescribes.content.refersTo.retarget g.aliases

end Generator

end YangApi
