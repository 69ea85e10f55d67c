import YangApi.Proofs.CamelCase
import YangApi.Proofs.Definitions.Site
import YangApi.Proofs.Table

/-! What making definitions does to a draft. Names and definitions that are there stay, and every
new definition is that of a site whose needs are met: each path it names has its name, and is
defined or about to be. `name` stands for the names that paths have in the end. -/

namespace YangApi

namespace Draft

/-- The names given so far agree with `name`. -/
def NamedBy (name : SchemaPath → String) (d : Draft) : Prop :=
  ∀ p n, d.names.get? p = some n → name p = n

/-- The path has a name, under which there is a definition or one is under way. -/
def Settled (pending : List SchemaPath) (d : Draft) (p : SchemaPath) : Prop :=
  ∃ n, d.names.get? p = some n ∧ (d.document.hasDefinition n ∨ p ∈ pending)

/-- There is a warning for every grouping that a site uses and that does not exist. -/
def Reports (c : Context) (d : Draft) (s : Site) : Prop :=
  ∀ u ∈ s.source.uses, c.grouping? u s.source.owner = none →
    .missingGrouping u s.source.owner ∈ d.warnings

/-- `m` is the definition of a site named `k`, what it refers to is settled, and what is missing is
reported. -/
def Written (c : Context) (name : SchemaPath → String) (reach : Site → Prop)
    (pending : List SchemaPath) (d : Draft) (k : String) (m : Model) : Prop :=
  ∃ s, reach s ∧ d.names.get? s.key = some k ∧ m = s.model c name ∧
    (∀ p ∈ s.needs c, Settled pending d p) ∧ Reports c d s

end Draft

open Draft

structure Grows (c : Context) (name : SchemaPath → String) (reach : Site → Prop)
    (pending : List SchemaPath) (d d' : Draft) : Prop where
  names : d.names.Within d'.names
  distinct : d.names.Distinct → d'.names.Distinct
  camel : d.names.Camel → d'.names.Camel
  order : d.document.table.keys <+: d'.document.table.keys
  retains : ∀ k m, d.document.definition? k = some m → d'.document.definition? k = some m
  warnings : d.warnings ⊆ d'.warnings
  introduced : ∀ k m, d'.document.definition? k = some m → d.document.definition? k = none →
    Written c name reach pending d' k m

/-- A growth that leaves all but the definitions of the document as it is. -/
structure Adds (c : Context) (name : SchemaPath → String) (reach : Site → Prop)
    (pending : List SchemaPath) (d d' : Draft) : Prop extends
    Grows c name reach pending d d' where
  others : d'.document.others = d.document.others

variable {c : Context} {name : SchemaPath → String} {reach : Site → Prop}
  {pending pending' : List SchemaPath} {d d' d'' : Draft}

theorem Grows.hasDefinition (h : Grows c name reach pending d d') {k : String}
    (hk : d.document.hasDefinition k) : d'.document.hasDefinition k := by
  obtain ⟨m, hm⟩ := Document.hasDefinition_iff.1 hk
  exact Document.hasDefinition_iff.2 ⟨m, h.retains k m hm⟩

theorem Draft.Settled.grow {p : SchemaPath} (hp : Settled pending' d p)
    (h : Grows c name reach pending d d') : Settled pending' d' p := by
  obtain ⟨n, hn, hdef⟩ := hp
  exact ⟨n, h.names _ _ hn, hdef.imp h.hasDefinition id⟩

theorem Draft.Settled.mono {p : SchemaPath} (hp : Settled pending d p)
    (hsub : pending ⊆ pending') : Settled pending' d p := by
  obtain ⟨n, hn, hdef⟩ := hp
  exact ⟨n, hn, hdef.imp id fun h => hsub h⟩

theorem Draft.NamedBy.shrink (h' : NamedBy name d') (h : Grows c name reach pending d d') :
    NamedBy name d :=
  fun p n hp => h' p n (h.names p n hp)

theorem Draft.Reports.grow {s : Site} (hs : Reports c d s) (h : Grows c name reach pending d d') :
    Reports c d' s :=
  fun u hu hnone => h.warnings (hs u hu hnone)

theorem Draft.Written.grow {k : String} {m : Model} (hw : Written c name reach pending d k m)
    (h : Grows c name reach pending d d') : Written c name reach pending d' k m := by
  obtain ⟨s, hs, hk, hm, hneeds, hreports⟩ := hw
  exact ⟨s, hs, h.names _ _ hk, hm, fun p hp => (hneeds p hp).grow h, hreports.grow h⟩

theorem Draft.Written.mono {k : String} {m : Model} (hw : Written c name reach pending d k m)
    (hsub : pending ⊆ pending') : Written c name reach pending' d k m := by
  obtain ⟨s, hs, hk, hm, hneeds, hreports⟩ := hw
  exact ⟨s, hs, hk, hm, fun p hp => (hneeds p hp).mono hsub, hreports⟩

theorem Grows.mono (h : Grows c name reach pending d d') (hsub : pending ⊆ pending') :
    Grows c name reach pending' d d' where
  names := h.names
  distinct := h.distinct
  camel := h.camel
  order := h.order
  retains := h.retains
  warnings := h.warnings
  introduced k m hm hnone := (h.introduced k m hm hnone).mono hsub

theorem Grows.trans (h : Grows c name reach pending d d') (h' : Grows c name reach pending d' d'') :
    Grows c name reach pending d d'' where
  names := h.names.trans h'.names
  distinct hd := h'.distinct (h.distinct hd)
  camel hd := h'.camel (h.camel hd)
  order := h.order.trans h'.order
  retains k m hm := h'.retains k m (h.retains k m hm)
  warnings := List.Subset.trans h.warnings h'.warnings
  introduced k m hm hnone := by
    cases hmid : d'.document.definition? k with
    | none => exact h'.introduced k m hm hmid
    | some m' =>
      have hsame : m' = m := Option.some.inj ((h'.retains k m' hmid).symm.trans hm)
      exact hsame ▸ (h.introduced k m' hmid hnone).grow h'

/-- Names may change and warnings be added: the document is the same. -/
theorem Adds.ofNames (hnames : d.names.Within d'.names)
    (hdistinct : d.names.Distinct → d'.names.Distinct) (hcamel : d.names.Camel → d'.names.Camel)
    (hdoc : d'.document = d.document) (hwarnings : d.warnings ⊆ d'.warnings) :
    Adds c name reach pending d d' where
  names := hnames
  distinct := hdistinct
  camel := hcamel
  order := hdoc ▸ List.prefix_refl _
  retains k m hm := by rwa [hdoc]
  warnings := hwarnings
  introduced k m hm hnone := by simp [hdoc, hnone] at hm
  others := by rw [hdoc]

theorem Adds.refl (d : Draft) : Adds c name reach pending d d :=
  .ofNames (.refl _) id id rfl (List.Subset.refl _)

theorem Adds.assign (d : Draft) (key : SchemaPath) {base : String} (hbase : IsCamel base)
    (qualifiers : List String) : Adds c name reach pending d (d.assign key base qualifiers).1 :=
  .ofNames (Registry.within_assign d.names key _ _) (fun h => h.assign key _ _)
    (fun h => h.assign key hbase _) rfl (List.Subset.refl _)

theorem Adds.assignPath (d : Draft) (key : SchemaPath) (last : String) :
    Adds c name reach pending d (d.assignPath key last).1 :=
  .assign d key (isCamel_camelCase last) _

theorem Adds.trans (h : Adds c name reach pending d d') (h' : Adds c name reach pending d' d'') :
    Adds c name reach pending d d'' :=
  ⟨h.toGrows.trans h'.toGrows, h'.others.trans h.others⟩

theorem Adds.mono (h : Adds c name reach pending d d') (hsub : pending ⊆ pending') :
    Adds c name reach pending' d d' :=
  ⟨h.toGrows.mono hsub, h.others⟩

/-- The end of a site's definition: what was built while the site was pending, and then the
definition itself, under a name that was free at the start. -/
theorem Adds.define {s : Site} {k : String} (h : Adds c name reach (s.key :: pending) d d')
    (hfree : ¬ d.document.hasDefinition k) (hkey : d'.names.get? s.key = some k) (hs : reach s)
    (hneeds : ∀ p ∈ s.needs c, Settled (s.key :: pending) d' p) (hreports : Reports c d' s) :
    Adds c name reach pending d (d'.define k (s.model c name)) := by
  have hdef : ∀ j, (d'.define k (s.model c name)).document.definition? j =
      if j = k then some (s.model c name) else d'.document.definition? j :=
    fun j => Document.definition?_define _ _ _ _
  have hsettle : ∀ p, Settled (s.key :: pending) d' p →
      Settled pending (d'.define k (s.model c name)) p := by
    rintro p ⟨n, hn, hp⟩
    refine ⟨n, hn, ?_⟩
    rw [Document.hasDefinition_iff, hdef]
    by_cases hnk : n = k
    · exact .inl ⟨_, if_pos hnk⟩
    · rw [if_neg hnk, ← Document.hasDefinition_iff]
      refine hp.imp id fun hmem => (List.mem_cons.1 hmem).resolve_left ?_
      rintro rfl
      exact hnk (Option.some.inj (hn.symm.trans hkey))
  refine ⟨⟨h.names, h.distinct, h.camel, h.order.trans (Table.keys_prefix_insert _ _ _), ?_,
    h.warnings, ?_⟩, h.others⟩
  · intro j m hm
    rw [hdef, if_neg]
    · exact h.retains j m hm
    · rintro rfl
      exact hfree (Document.hasDefinition_iff.2 ⟨m, hm⟩)
  · intro j m hm hnone
    rw [hdef] at hm
    split at hm
    · next hj =>
      subst hj
      cases hm
      exact ⟨s, hs, hkey, rfl, fun p hp => hsettle p (hneeds p hp), hreports⟩
    · obtain ⟨s', hs', hk', hm', hneeds', hreports'⟩ := h.introduced j m hm hnone
      exact ⟨s', hs', hk', hm', fun p hp => hsettle p (hneeds' p hp), hreports'⟩

end YangApi
