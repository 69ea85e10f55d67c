import YangApi.Proofs.References

/-! Adding a container, list or side of a procedure to a document. The definitions that are there
stand where they stood, the new ones behind them, and nothing that a new one refers to is missing;
to add the same again changes nothing. -/

namespace YangApi

open Draft

theorem Table.entries_prefix {α : Type} {t t' : Table α} (hkeys : t.keys <+: t'.keys)
    (hvalues : ∀ k a, t.get? k = some a → t'.get? k = some a) : t.entries <+: t'.entries := by
  obtain ⟨rest, hrest⟩ := hkeys
  have hlength : t.entries.length = t.keys.length := (List.length_map _).symm
  have htake : (t'.entries.take t.entries.length).map Prod.fst = t.entries.map Prod.fst := by
    rw [List.map_take, hlength]
    exact (congrArg (List.take _) hrest.symm).trans List.take_left
  have hsame : t'.entries.take t.entries.length = t.entries := by
    refine List.ext_getElem (by simpa using congrArg List.length htake) fun n hn hn' => ?_
    have hkey : (t'.entries.take t.entries.length)[n].1 = t.entries[n].1 := by
      simpa using List.getElem_of_eq htake (by simpa using hn)
    have hold : t.get? t.entries[n].1 = some t.entries[n].2 :=
      get?_eq_some_iff.2 (List.getElem_mem hn')
    have hnew : t'.get? t.entries[n].1 = some (t'.entries.take t.entries.length)[n].2 := by
      rw [← hkey]
      exact get?_eq_some_iff.2 (List.mem_of_mem_take (List.getElem_mem hn))
    exact Prod.ext hkey (Option.some.inj (hnew.symm.trans (hvalues _ _ hold)))
  exact ⟨_, hsame ▸ List.take_append_drop _ _⟩

theorem Shared.add_of_settled {c : Context} {d : Draft} {i : Interior}
    (h : Settled [] d (key i.head)) : add c d i = d := by
  obtain ⟨n, hn, hdef⟩ := h
  have hregister := register_eq (useGrouping c c.groupingCount []) i d
  rw [assignPath_eq hn] at hregister
  have hadd := congrArg Prod.fst hregister
  refine Eq.trans hadd ?_
  simp [defineOnce, hdef.resolve_right List.not_mem_nil]

/-- With nothing under way, what is added goes behind what was there and refers to what is there. -/
theorem Adds.appends {c : Context} {name : SchemaPath → String} {reach : Site → Prop} {d d' : Draft}
    (h : Adds c name reach [] d d') (hnamed : NamedBy name d') :
    ∃ new, d'.document.table.entries = d.document.table.entries ++ new ∧
      ∀ e ∈ new, ∀ n ∈ e.2.refs, d'.document.hasDefinition n := by
  have hretains : ∀ k m, d.document.table.get? k = some m → d'.document.table.get? k = some m := by
    simp only [← Document.definition?_eq]
    exact h.retains
  obtain ⟨new, hnew⟩ := Table.entries_prefix h.order hretains
  refine ⟨new, hnew.symm, fun e he n hn => ?_⟩
  obtain ⟨k, x⟩ := e
  have hdef : d'.document.definition? k = some x := by
    rw [Document.definition?_eq, Table.get?_eq_some_iff, ← hnew]
    exact List.mem_append_right _ he
  have hfree : d.document.definition? k = none := by
    have hnodup := d'.document.table.nodup
    rw [← hnew, List.map_append, List.nodup_append'] at hnodup
    rw [Option.eq_none_iff_forall_ne_some]
    intro m hm
    rw [Document.definition?_eq, Table.get?_eq_some_iff] at hm
    exact hnodup.2.2 (List.mem_map.2 ⟨_, hm, rfl⟩) (List.mem_map.2 ⟨_, he, rfl⟩)
  obtain ⟨site, -, -, rfl, hneeds, -⟩ := h.introduced k x hdef hfree
  obtain ⟨p, hp, rfl⟩ := Site.refs_model hn
  obtain ⟨j, hj, hthere⟩ := hneeds p hp
  rw [hnamed p j hj]
  exact hthere.resolve_right List.not_mem_nil

namespace Strategy

variable {c : Context} {s : Strategy} {d : Draft} {i : Interior}

theorem add_of_settled (h : Settled [] d (s.key i.head)) : s.add c d i = d := by
  rw [key_eq] at h
  rw [add_eq]
  exact Shared.add_of_settled h

/-- Whatever names were given before and whatever the document holds, adding a container, list or
side of a procedure keeps every definition in its place and leaves the rest of the document alone.
New definitions stand behind the old ones and refer to none that is missing, the node has its
definition, and adding it again makes no difference, be it to the document, the names or the
warnings. Groupings may be missing or use each other in circles. -/
theorem add_conservative (s : Strategy) (c : Context) (d : Draft) (i : Interior) :
    let d' := s.add c d i
    d'.document.others = d.document.others ∧
      (∃ new, d'.document.table.entries = d.document.table.entries ++ new ∧
        ∀ e ∈ new, ∀ n ∈ e.2.refs, d'.document.hasDefinition n) ∧
      d'.document.hasDefinition (s.nameOf d' i.head).2 ∧ s.add c d' i = d' := by
  intro d'
  -- the names are those that the call ends with
  have hnamed : NamedBy (fun p => (d'.names.get? p).getD "") d' := by
    intro p n hn
    simp [hn]
  obtain ⟨hadds, hsettled⟩ := add_spec (Site.Closed.all c) trivial d hnamed
  refine ⟨hadds.others, hadds.appends hnamed, ?_, add_of_settled hsettled⟩
  obtain ⟨n, hn, hthere⟩ := hsettled
  have hname : (s.nameOf d' i.head).2 = n := congrArg Prod.snd (assignPath_eq hn _)
  rw [hname]
  exact hthere.resolve_right List.not_mem_nil

end Strategy

end YangApi
