import YangApi.Proofs.Decode.Faithful
import YangApi.Proofs.Schema.Tree
import YangApi.Schema.Decode.Module
import YangApi.Schema.Encode

/-! Schema trees are read back as they were written. What is left out when it is absent or empty is
read as absent or empty, and all that decides how the rest is read comes first. -/

namespace YangApi

open Datum

section leafTypes

namespace LeafType

def part (d : Datum) : TypePart := ⟨d, membersOf d⟩

theorem fieldsOf_eq (fs : Value.Fields) : fieldsOf (Value.dataOfFields fs) = written part fs := by
  induction fs with
  | nil => rfl
  | cons f fs ih =>
    obtain ⟨k, v⟩ := f
    rw [Value.dataOfFields, fieldsOf, ih]
    rfl

/-- The base comes first and decides how the other fields are read. -/
theorem ofDatum_based {base : String} {fs : Value.Fields} (hbase : base ∈ bases)
    (hfs : fs.at "base" = []) :
    ofDatum (Value.record (("base", .text base) :: fs)).datum =
      ofParts base (.fields (written part fs)) := by
  have hextract := extract_written part (v := .text base) hfs
  rw [Value.datum, ofDatum, fieldsOf_eq, hextract]
  simp only [pure_bind, part, Value.datum, asName, hbase, if_true]

mutual

theorem ofDatum_value : ∀ t : LeafType, ofDatum t.value.datum = pure t
  | .string | .boolean | .int8 | .int16 | .int32 | .int64 | .uint8 | .uint16 | .uint32 | .uint64
  | .decimal64 | .empty | .binary => rfl
  | .leafref p => rfl
  | .identityref b => rfl
  | .enumeration vs => by
    obtain ⟨es, hes, hshows⟩ := keyed_written part ["values"] [("values", Value.texts vs)]
    have hvalues : es.optional "values" [] TypePart.texts = pure vs := by
      refine hshows.optional rfl fun p hp => ?_
      rw [hp]
      exact faithful.texts rfl
    rw [value, fields, ofDatum_based (by decide) (by simp)]
    simp only [ofParts, TypeParts.named, hes, pure_bind, hvalues]
  | .union ts => by
    obtain ⟨es, hes, hshows⟩ := keyed_written part ["types"] [("types", .list (values ts))]
    have htypes : es.optional "types" [] TypePart.members = pure ts := by
      refine hshows.optional rfl fun p hp => ?_
      rw [hp]
      exact allOf_values ts
    rw [value, fields, ofDatum_based (by decide) (by simp)]
    simp only [ofParts, TypeParts.named, hes, pure_bind, htypes]

theorem allOf_values : ∀ ts : List LeafType, allOf (Value.dataOf (values ts)) = pure ts
  | [] => rfl
  | t :: ts => by
    have hhead := ofDatum_value t
    rw [value] at hhead
    rw [values, Value.dataOf, allOf, hhead, pure_bind, allOf_values ts, pure_bind]

end

theorem require_written {es : Fields Datum} {fs : Value.Fields} {name : String} {t : LeafType}
    (hes : ShowsFields (ShowsPart id) es fs) (hfs : fs.at name = [t.value]) :
    es.require name ofDatum = pure t := by
  refine hes.require hfs ?_
  rintro _ rfl
  exact t.ofDatum_value

end LeafType

end leafTypes

def Declared.names : List String := ["name", "module", "config", "description", "grouping"]

theorem Declared.ofFields_written {d : Declared} {fs : Value.Fields} {es : Fields Datum}
    (h : ShowsFields (ShowsPart id) es fs) (hfs : ∀ k ∈ names, fs.at k = d.fields.at k) :
    ofFields es = pure d := by
  simp only [names, List.forall_mem_cons, List.not_mem_nil, false_implies, implies_true,
    and_true] at hfs
  obtain ⟨hname, howner, hconfig, hdescription, hgrouping⟩ := hfs
  have hreadName : es.optional "name" "" asText = pure d.name :=
    h.optional (by rw [hname]; simp [fields]) fun _ => faithful.text
  have hreadOwner : es.option "module" asText = pure d.owner :=
    faithful.optionText h (by rw [howner]; simp [fields])
  have hreadConfig : es.option "config" asBool = pure d.config :=
    faithful.option h (by rw [hconfig]; simp [fields]) fun _ _ _ => faithful.bool
  have hreadDescription : es.option "description" asText = pure d.description :=
    faithful.optionText h (by rw [hdescription]; simp [fields])
  have hreadGrouping : es.option "grouping" asText = pure d.grouping :=
    faithful.optionText h (by rw [hgrouping]; simp [fields])
  simp only [ofFields, hreadName, hreadOwner, hreadConfig, hreadDescription, hreadGrouping,
    pure_bind]

namespace Node

def part (d : Datum) : NodePart := ⟨d, listOf d, casesOf d⟩

theorem fieldsOf_eq (fs : Value.Fields) : fieldsOf (Value.dataOfFields fs) = written part fs := by
  induction fs with
  | nil => rfl
  | cons f fs ih =>
    obtain ⟨k, v⟩ := f
    rw [Value.dataOfFields, fieldsOf, ih]
    rfl

theorem values_eq (ns : List (Node Declared)) : values ns = ns.map value := by
  induction ns with
  | nil => rfl
  | cons n ns ih => rw [values, ih, List.map_cons]

def kind : Node Declared → String
  | .inner _ (.container _) _ _ => "container"
  | .inner _ (.list _) _ _ => "list"
  | .choice .. => "choice"
  | .leaf .. => "leaf"
  | .leafList .. => "leaf-list"
  | .anyxml _ => "anyxml"

def others : Node Declared → Value.Fields
  | .inner _ (.container presence) us cs =>
    Value.ifAny "children" (values cs) ++ (Value.ifAny "uses" (us.map .text) ++
      [("presence", .bool presence)])
  | .inner _ (.list keys) us cs =>
    Value.ifAny "keys" (keys.map .text) ++ (Value.ifAny "children" (values cs) ++
      Value.ifAny "uses" (us.map .text))
  | .choice _ ks => [("cases", .list (caseValues ks))]
  | .leaf _ t m v => ("type", t.value) :: ("mandatory", .bool m) :: Value.ifSome "default" .text v
  | .leafList _ t => [("type", t.value)]
  | .anyxml _ => []

theorem value_eq (n : Node Declared) :
    n.value = .record (("kind", .text n.kind) :: (n.head.fields ++ n.others)) := by
  rcases n with ⟨d, ⟨⟩, us, cs⟩ | _ | _ | _ | _ <;>
    simp [value, kind, head, others]

theorem at_others {n : Node Declared} {k : String} (hk : k ∈ "kind" :: Declared.names) :
    n.others.at k = [] := by
  simp only [Declared.names, List.mem_cons, List.not_mem_nil, or_false] at hk
  rcases hk with rfl | rfl | rfl | rfl | rfl | rfl <;>
    rcases n with ⟨d, ⟨⟩, us, cs⟩ | _ | _ | _ | _ <;> simp [others]

theorem at_kind (n : Node Declared) : Value.Fields.at (n.head.fields ++ n.others) "kind" = [] := by
  simp [Declared.fields, at_others]

/-- The node is read back from what stands after its kind. -/
def Reads (n : Node Declared) : Prop :=
  ofFields n.kind (written part (n.head.fields ++ n.others)) = pure n

theorem ofDatum_value {n : Node Declared} (h : n.Reads) : ofDatum n.value.datum = pure n := by
  have hextract := extract_written part (v := .text n.kind) n.at_kind
  have hkinds : n.kind ∈ kinds := by
    rcases n with ⟨d, ⟨⟩, us, cs⟩ | _ | _ | _ | _ <;> simp [kind, kinds]
  rw [value_eq, Value.datum, ofDatum, fieldsOf_eq, hextract]
  simp only [pure_bind, part, Value.datum, asName, hkinds, if_true]
  exact h

theorem allOf_values {ns : List (Node Declared)} (h : ∀ n ∈ ns, n.Reads) :
    allOf (Value.dataOf (values ns)) = pure ns := by
  induction ns with
  | nil => rfl
  | cons n ns ih =>
    rw [List.forall_mem_cons] at h
    rw [values, Value.dataOf, allOf, ofDatum_value h.1, pure_bind, ih h.2, pure_bind]

theorem optional_children {es : Fields NodePart} {fs : Value.Fields} {ns : List (Node Declared)}
    (hes : ShowsFields (ShowsPart part) es fs)
    (hfs : fs.at "children" = Value.Fields.at (Value.ifAny "children" (values ns)) "children")
    (h : ∀ n ∈ ns, n.Reads) : es.optional "children" [] NodePart.nodes = pure ns := by
  refine hes.optionalAny hfs ?_ ?_
  · rw [values_eq]
    exact List.map_eq_nil_iff.1
  · rintro _ rfl
    exact allOf_values h

theorem caseOf_value {k : String × List (Node Declared)} (h : ∀ n ∈ k.2, n.Reads) :
    caseOf (Value.record [("name", .text k.1), ("children", .list (values k.2))]).datum = pure k := by
  obtain ⟨es, hes, hshows⟩ := keyed_written part ["name", "children"]
    [("name", .text k.1), ("children", .list (values k.2))]
  have hname : es.require "name" (fun p => p.datum.asText) = pure k.1 := by
    refine hshows.require rfl ?_
    rintro _ rfl
    rfl
  have hchildren : es.optional "children" [] NodePart.nodes = pure k.2 := by
    refine hshows.optional rfl ?_
    rintro _ rfl
    exact allOf_values h
  rw [Value.datum, caseOf, fieldsOf_eq, hes]
  simp only [pure_bind, caseOfFields, hname, hchildren]

theorem allCases_values {ks : Cases Declared} (h : ∀ k ∈ ks, ∀ n ∈ k.2, n.Reads) :
    allCases (Value.dataOf (caseValues ks)) = pure ks := by
  induction ks with
  | nil => rfl
  | cons k ks ih =>
    rw [List.forall_mem_cons] at h
    rw [caseValues, Value.dataOf, allCases, caseOf_value h.1, pure_bind, ih h.2, pure_bind]

/-- The fields of a node as parts and as data, with the head that is read from them. -/
theorem shown (n : Node Declared) : ∃ es : Fields NodePart,
    keyed [] (written part (n.head.fields ++ n.others)) = pure es ∧
      ShowsFields (ShowsPart part) es (n.head.fields ++ n.others) ∧
      ShowsFields (ShowsPart id) (es.map fun e => (e.1, e.2.datum)) (n.head.fields ++ n.others) ∧
      Declared.ofFields (es.map fun e => (e.1, e.2.datum)) = pure n.head := by
  obtain ⟨es, hes, hparts⟩ := keyed_written part [] (n.head.fields ++ n.others)
  have hdata : ShowsFields (ShowsPart id) (es.map fun e => (e.1, e.2.datum))
      (n.head.fields ++ n.others) :=
    hparts.map NodePart.datum fun _ _ hp => congrArg NodePart.datum hp
  refine ⟨es, hes, hparts, hdata, Declared.ofFields_written hdata fun k hk => ?_⟩
  rw [Value.Fields.at_append, at_others (List.mem_cons_of_mem _ hk), List.append_nil]

theorem reads_container (d : Declared) (presence : Bool) (us : List String)
    {cs : List (Node Declared)} (h : ∀ n ∈ cs, n.Reads) :
    (Node.inner d (.container presence) us cs).Reads := by
  obtain ⟨es, hes, hparts, hdata, hhead⟩ := shown (.inner d (.container presence) us cs)
  have hchildren : es.optional "children" [] NodePart.nodes = pure cs :=
    optional_children hparts (by simp [head, others, Declared.fields]) h
  have huses : Fields.optional (es.map fun e => (e.1, e.2.datum)) "uses" [] Source.texts = pure us :=
    faithful.optionalTexts hdata (by simp [head, others, Declared.fields])
  have hpresence : Fields.optional (es.map fun e => (e.1, e.2.datum)) "presence" false asBool =
      pure presence :=
    hdata.optional (by simp [head, others, Declared.fields]) fun _ => faithful.bool
  simp only [Reads, kind, ofFields, hes, hchildren, huses, hpresence, hhead, pure_bind]
  rfl

theorem reads_list (d : Declared) (keys us : List String) {cs : List (Node Declared)}
    (h : ∀ n ∈ cs, n.Reads) : (Node.inner d (.list keys) us cs).Reads := by
  obtain ⟨es, hes, hparts, hdata, hhead⟩ := shown (.inner d (.list keys) us cs)
  have hkeys : Fields.optional (es.map fun e => (e.1, e.2.datum)) "keys" [] Source.texts =
      pure keys :=
    faithful.optionalTexts hdata (by simp [head, others, Declared.fields])
  have hchildren : es.optional "children" [] NodePart.nodes = pure cs :=
    optional_children hparts (by simp [head, others, Declared.fields]) h
  have huses : Fields.optional (es.map fun e => (e.1, e.2.datum)) "uses" [] Source.texts = pure us :=
    faithful.optionalTexts hdata (by simp [head, others, Declared.fields])
  simp only [Reads, kind, ofFields, hes, hkeys, hchildren, huses, hhead, pure_bind]
  rfl

theorem reads_choice (d : Declared) {ks : Cases Declared} (h : ∀ k ∈ ks, ∀ n ∈ k.2, n.Reads) :
    (Node.choice d ks).Reads := by
  obtain ⟨es, hes, hparts, -, hhead⟩ := shown (.choice d ks)
  have hcases : es.optional "cases" [] NodePart.cases = pure ks := by
    refine hparts.optional (by simp [head, others, Declared.fields]; rfl) ?_
    rintro _ rfl
    exact allCases_values h
  simp only [Reads, kind, ofFields, hes, hcases, hhead, pure_bind]
  rfl

theorem reads_leaf (d : Declared) (t : LeafType) (m : Bool) (v : Option String) :
    (Node.leaf d t m v).Reads := by
  obtain ⟨es, hes, -, hdata, hhead⟩ := shown (.leaf d t m v)
  have htype : Fields.require (es.map fun e => (e.1, e.2.datum)) "type" LeafType.ofDatum = pure t :=
    LeafType.require_written hdata (by simp [head, others, Declared.fields])
  have hmandatory : Fields.optional (es.map fun e => (e.1, e.2.datum)) "mandatory" false asBool =
      pure m :=
    hdata.optional (by simp [head, others, Declared.fields]) fun _ => faithful.bool
  have hdefault : Fields.option (es.map fun e => (e.1, e.2.datum)) "default" asText = pure v :=
    faithful.optionText hdata (by simp [head, others, Declared.fields])
  simp only [Reads, kind, ofFields, hes, htype, hmandatory, hdefault, hhead, pure_bind]
  rfl

theorem reads_leafList (d : Declared) (t : LeafType) : (Node.leafList d t).Reads := by
  obtain ⟨es, hes, -, hdata, hhead⟩ := shown (.leafList d t)
  have htype : Fields.require (es.map fun e => (e.1, e.2.datum)) "type" LeafType.ofDatum = pure t :=
    LeafType.require_written hdata (by simp [head, others, Declared.fields])
  simp only [Reads, kind, ofFields, hes, htype, hhead, pure_bind]
  rfl

theorem reads_anyxml (d : Declared) : (Node.anyxml d).Reads := by
  obtain ⟨es, hes, -, -, hhead⟩ := shown (.anyxml d)
  simp only [Reads, kind, ofFields, hes, hhead, pure_bind]
  rfl

/-- Every tree is read back. The induction is on its levels, for a node is read with all that is
below it. -/
theorem reads_all (ns : List (Node Declared)) : ∀ n ∈ ns, n.Reads := by
  induction ns using Node.levels with
  | nil => exact fun _ h => absurd h List.not_mem_nil
  | cons n ns ihn ihns =>
    exact List.forall_mem_cons.2 ⟨ihn n (List.mem_singleton_self n), ihns⟩
  | inner d shape us cs ih =>
    refine List.forall_mem_singleton.2 ?_
    cases shape with
    | container presence => exact reads_container d presence us ih
    | list keys => exact reads_list d keys us ih
  | choice d ks ih => exact List.forall_mem_singleton.2 (reads_choice d ih)
  | leaf d t m v => exact List.forall_mem_singleton.2 (reads_leaf d t m v)
  | leafList d t => exact List.forall_mem_singleton.2 (reads_leafList d t)
  | anyxml d => exact List.forall_mem_singleton.2 (reads_anyxml d)

end Node

section formats

variable {σ : Type} [Source σ] {shows : σ → Value → Prop} (hf : Source.Faithful shows)

include hf

theorem Node.decode_written {s : σ} {n : Node Declared} (hs : shows s n.value) :
    Node.decode s = pure n := by
  rw [value_eq] at hs
  rw [decode, hf.tagged n.at_kind hs, pure_bind, Value.datum]
  dsimp only
  rw [fieldsOf_eq]
  exact reads_all [n] n (List.mem_singleton_self n)

theorem Node.children_written {es : Fields σ} {fs : Value.Fields} {ns : List (Node Declared)}
    (hes : ShowsFields shows es fs)
    (hfs : fs.at "children" = Value.Fields.at (Value.ifAny "children" (values ns)) "children") :
    es.optional "children" [] (Source.list Node.decode) = pure ns := by
  rw [values_eq] at hfs
  exact hf.optionalList hes hfs fun _ _ _ => decode_written hf

theorem Grouping.decode_written {s : σ} {g : Grouping Declared} (hs : shows s g.value) :
    Grouping.decode s = pure g := by
  obtain ⟨es, hes, hshows⟩ := hf.fields ["name", "description", "children", "uses"] hs
  have hname : es.require "name" Source.text = pure g.name :=
    hshows.require (by simp) fun _ => hf.text
  have hdescription : es.option "description" Source.text = pure g.description :=
    hf.optionText hshows (by simp)
  have hchildren : es.optional "children" [] (Source.list Node.decode) = pure g.children :=
    Node.children_written hf hshows (by simp)
  have huses : es.optional "uses" [] Source.texts = pure g.uses :=
    hf.optionalTexts hshows (by simp)
  simp only [decode, hes, hname, hdescription, hchildren, huses, pure_bind]

theorem RpcSide.decode_written {s : σ} {side : RpcSide Declared} (hs : shows s side.value) :
    RpcSide.decode s = pure side := by
  obtain ⟨es, hes, hshows⟩ := hf.entries hs
  have hchildren : es.optional "children" [] (Source.list Node.decode) = pure side.children :=
    Node.children_written hf hshows (by simp [Declared.fields])
  have huses : es.optional "uses" [] Source.texts = pure side.uses :=
    hf.optionalTexts hshows (by simp [Declared.fields])
  have hpresence : es.optional "presence" false Source.bool = pure side.presence :=
    hshows.optional (by simp [Declared.fields]) fun _ => hf.bool
  obtain ⟨ds, hds, hdata⟩ :=
    hf.settle_fields (hshows.filter fun k => k ∉ ["children", "uses", "presence"])
  have hhead : Declared.ofFields ds = pure side.head := by
    refine Declared.ofFields_written hdata fun k hk => ?_
    refine (Value.Fields.at_filter _ fun k => k ∉ ["children", "uses", "presence"]).trans ?_
    simp only [Declared.names, List.mem_cons, List.not_mem_nil, or_false] at hk
    rcases hk with rfl | rfl | rfl | rfl | rfl <;> simp
  simp only [decode, hes, hchildren, huses, hpresence, hds, hhead, pure_bind]

theorem Rpc.decode_written {s : σ} {r : Rpc Declared} (hs : shows s r.value) :
    Rpc.decode s = pure r := by
  obtain ⟨es, hes, hshows⟩ := hf.fields ["name", "module", "description", "input", "output"] hs
  have hname : es.require "name" Source.text = pure r.name :=
    hshows.require (by simp) fun _ => hf.text
  have howner : es.option "module" Source.text = pure r.owner :=
    hf.optionText hshows (by simp)
  have hdescription : es.option "description" Source.text = pure r.description :=
    hf.optionText hshows (by simp)
  have hinput : es.option "input" RpcSide.decode = pure r.input :=
    hf.option hshows (by simp) fun _ _ _ => RpcSide.decode_written hf
  have houtput : es.option "output" RpcSide.decode = pure r.output :=
    hf.option hshows (by simp) fun _ _ _ => RpcSide.decode_written hf
  simp only [decode, hes, hname, howner, hdescription, hinput, houtput, pure_bind]

theorem Module.decode_written {s : σ} {m : Module Declared} (hs : shows s m.value) :
    Module.decode s = pure m := by
  obtain ⟨es, hes, hshows⟩ := hf.fields fieldNames hs
  have hname : es.require "name" Source.text = pure m.name :=
    hshows.require (by simp) fun _ => hf.text
  have hnamespace : es.option "namespace" Source.text = pure m.xmlNamespace :=
    hf.optionText hshows (by simp)
  have hprefix : es.option "prefix" Source.text = pure m.abbreviation :=
    hf.optionText hshows (by simp)
  have hrevision : es.option "revision" Source.text = pure m.revision :=
    hf.optionText hshows (by simp)
  have hdescription : es.option "description" Source.text = pure m.description :=
    hf.optionText hshows (by simp)
  have hchildren : es.optional "children" [] (Source.list Node.decode) = pure m.children :=
    Node.children_written hf hshows (by simp)
  have hrpcs : es.optional "rpcs" [] (Source.list Rpc.decode) = pure m.rpcs :=
    hf.optionalList hshows (by simp) fun _ _ _ => Rpc.decode_written hf
  have hgroupings : es.optional "groupings" [] (Source.list Grouping.decode) = pure m.groupings :=
    hf.optionalList hshows (by simp) fun _ _ _ => Grouping.decode_written hf
  simp only [decode, hes, hname, hnamespace, hprefix, hrevision, hdescription, hchildren, hrpcs,
    hgroupings, pure_bind]

theorem Module.decodeAll_written {s : σ} {ms : List (Module Declared)}
    (hs : shows s (.record [("modules", .list (ms.map value))])) : decodeAll s = pure ms := by
  obtain ⟨es, hes, hshows⟩ := hf.fields ["modules"] hs
  rw [decodeAll, hes, pure_bind]
  refine hshows.optional rfl fun s hs => ?_
  exact hf.list hs fun _ _ _ => decode_written hf

end formats

end YangApi
