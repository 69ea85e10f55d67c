import YangApi.Proofs.Decode.Json
import YangApi.Proofs.Schema.Inheritance
import YangApi.Proofs.Schema.Written
import YangApi.Storage.Basic

/-! A context survives saving and loading. Declarations that spell out what was inherited resolve to
what they were taken from, since a word of one's own wins over an inherited one, and places are
counted anew; and what is written is read back as these declarations. -/

namespace YangApi

theorem ok_bind {α β ε : Type} (a : α) (f : α → Except ε β) : (Except.ok a >>= f) = f a := rfl

theorem mapM_map_of_mapM {α β ε : Type} {f : α → Except ε β} {back : β → α} {l : List α}
    {rs : List β} (h : l.mapM f = .ok rs)
    (hback : ∀ a ∈ l, ∀ b, f a = .ok b → f (back b) = .ok b) : (rs.map back).mapM f = .ok rs := by
  induction l generalizing rs with
  | nil =>
    cases h
    rfl
  | cons a l ih =>
    rw [List.mapM_cons] at h
    obtain ⟨b, hb, h⟩ := bind_eq_ok.1 h
    obtain ⟨bs, hbs, h⟩ := bind_eq_ok.1 h
    obtain rfl := pure_eq_ok.1 h
    have hrest := ih hbs fun a ha => hback a (List.mem_cons_of_mem _ ha)
    rw [List.map_cons, List.mapM_cons, hback a (List.mem_cons_self ..) b hb, hrest]
    rfl

theorem Scope.resolve_declared (s : Scope) (d : Declared) :
    s.resolve (s.resolve d).declared = s.resolve d := by
  obtain ⟨name, owner, config, description, grouping⟩ := d
  cases grouping <;> rfl

theorem Scope.resolveHead_declared {s : Scope} {d : Declared} {r : Resolved}
    (h : s.resolveHead d = .ok r) : s.resolveHead r.declared = .ok r := by
  unfold resolveHead at h
  split at h
  · cases h
  · next hname =>
    cases h
    have hnamed : (s.resolve d).declared.name ≠ "" := hname
    rw [resolveHead, if_neg hnamed, resolve_declared]

theorem Node.mapCases_eq {α β : Type} (f : α → β) (ks : Cases α) :
    mapCases f ks = ks.map fun k => (k.1, mapAll f k.2) := by
  induction ks with
  | nil => rfl
  | cons k ks ih => rw [mapCases, List.map_cons, ih]

/-- The scope of a level does not change, so the induction goes through level by level. -/
theorem Node.resolveAll_declared {s : Scope} {ns : List (Node Declared)}
    {rs : List (Node Resolved)} (h : resolveAll s ns = .ok rs) :
    resolveAll s (mapAll Resolved.declared rs) = .ok rs := by
  induction ns using Node.levels generalizing s rs with
  | nil =>
    cases h
    rfl
  | cons n ns ihn ihns =>
    rw [resolveAll] at h
    obtain ⟨r, hr, h⟩ := bind_eq_ok.1 h
    obtain ⟨rest, hrest, h⟩ := bind_eq_ok.1 h
    obtain rfl := pure_eq_ok.1 h
    have hn : resolveAll s (mapAll Resolved.declared [r]) = .ok [r] :=
      ihn (by simp [resolveAll, hr, bind, Except.bind, pure, Except.pure])
    rw [mapAll, mapAll, resolveAll] at hn
    obtain ⟨r', hr', hn⟩ := bind_eq_ok.1 hn
    obtain rfl := (List.cons.inj (pure_eq_ok.1 hn)).1
    rw [mapAll, resolveAll, hr', ihns hrest]
    rfl
  | inner d shape uses cs ih =>
    simp only [resolveAll, resolve, bind_eq_ok, pure_eq_ok, Except.ok.injEq] at h
    obtain ⟨_, ⟨r, hr, cs', hcs, rfl⟩, _, rfl, rfl⟩ := h
    simp only [mapAll, map, resolveAll, resolve, Scope.resolveHead_declared hr, ok_bind, ih hcs]
    rfl
  | choice d ks ih =>
    simp only [resolveAll, resolve, bind_eq_ok, pure_eq_ok, Except.ok.injEq] at h
    obtain ⟨_, ⟨r, hr, ks', hks, rfl⟩, _, rfl, rfl⟩ := h
    have hcases : resolveCases (r.choiceScope s) (mapCases Resolved.declared ks') = .ok ks' := by
      rw [resolveCases_eq, mapCases_eq]
      rw [resolveCases_eq] at hks
      refine mapM_map_of_mapM hks fun k hk k' hk' => ?_
      obtain ⟨cs, hcs, hk'⟩ := bind_eq_ok.1 hk'
      obtain rfl := pure_eq_ok.1 hk'
      dsimp only
      rw [ih k hk hcs]
      rfl
    simp only [mapAll, map, resolveAll, resolve, Scope.resolveHead_declared hr, ok_bind,
      hcases]
    rfl
  | leaf | leafList | anyxml =>
    simp only [resolveAll, resolve, bind_eq_ok, pure_eq_ok, Except.ok.injEq] at h
    obtain ⟨_, ⟨r, hr, rfl⟩, _, rfl, rfl⟩ := h
    simp only [mapAll, map, resolveAll, resolve, Scope.resolveHead_declared hr]
    rfl

theorem Grouping.resolve_declared {moduleName : String} {g : Grouping Declared}
    {r : Grouping Resolved} (h : g.resolve moduleName = .ok r) :
    (r.map Resolved.declared).resolve moduleName = .ok r := by
  simp only [resolve, bind_eq_ok, pure_eq_ok] at h
  obtain ⟨cs, hcs, rfl⟩ := h
  simp only [resolve, map, Node.resolveAll_declared hcs]
  rfl

theorem RpcSide.resolveHead_declared (direction : Direction) (owner : String)
    (rpcPath : SchemaPath) (d : Declared) :
    let r := resolveHead direction owner rpcPath d
    resolveHead direction owner rpcPath r.declared = r := by
  have hname : (resolveHead direction owner rpcPath d).name ≠ "" := by
    unfold resolveHead
    dsimp only
    split
    · cases direction <;> decide
    · assumption
  intro r
  have hnamed : r.declared.name ≠ "" := hname
  rw [resolveHead, if_neg hnamed]
  rfl

theorem RpcSide.resolve?_declared {direction : Direction} {owner : String} {rpcPath : SchemaPath}
    {x : Option (RpcSide Declared)} {y : Option (RpcSide Resolved)}
    (h : resolve? direction owner rpcPath x = .ok y) :
    resolve? direction owner rpcPath (y.map (map Resolved.declared)) = .ok y := by
  cases x with
  | none =>
    cases h
    rfl
  | some s =>
    simp only [resolve?, resolve, bind_eq_ok, pure_eq_ok] at h
    obtain ⟨_, ⟨cs, hcs, rfl⟩, rfl⟩ := h
    have hhead := resolveHead_declared direction owner rpcPath s.head
    dsimp only at hhead
    simp only [Option.map_some, resolve?, resolve, map, hhead, Node.resolveAll_declared hcs]
    rfl

theorem Rpc.resolve_declared {moduleName : String} {r : Rpc Declared} {r' : Rpc Resolved}
    (h : r.resolve moduleName = .ok r') :
    (r'.map Resolved.declared).resolve moduleName = .ok r' := by
  simp only [resolve, bind_eq_ok, pure_eq_ok] at h
  obtain ⟨input, hinput, output, houtput, rfl⟩ := h
  simp only [resolve, map, Option.getD_some, RpcSide.resolve?_declared hinput,
    RpcSide.resolve?_declared houtput]
  rfl

theorem Module.resolve_declared {m : Module Declared} {r : Module Resolved}
    (h : m.resolve = .ok r) : (r.map Resolved.declared).resolve = .ok r := by
  simp only [resolve, bind_eq_ok, pure_eq_ok] at h
  obtain ⟨children, hchildren, groupings, hgroupings, rpcs, hrpcs, rfl⟩ := h
  have hgroupings' := mapM_map_of_mapM hgroupings fun _ _ _ => Grouping.resolve_declared
  have hrpcs' := mapM_map_of_mapM hrpcs fun _ _ _ => Rpc.resolve_declared
  simp only [resolve, map, Node.resolveAll_declared hchildren, hgroupings', hrpcs']
  rfl

namespace Context

/-- Resolving a context's own modules gives the context back. -/
theorem resolve_declared {ms : List (Module Declared)} {c : Context}
    (h : resolve ms = .ok c) : resolve c.declared = .ok c := by
  obtain ⟨hdistinct, hmodules⟩ := resolve_eq_ok.1 h
  refine resolve_eq_ok.2 ⟨?_, mapM_map_of_mapM hmodules fun _ _ _ => Module.resolve_declared⟩
  have hinPlace := eq_map_of_mapM hmodules fun m _ _ => Module.eq_inPlace_of_resolve
  have hnames : c.declared.map Module.name = ms.map Module.name := by
    rw [declared, hinPlace, List.map_map, List.map_map]
    rfl
  rw [hnames]
  exact hdistinct

theorem decodeAll_value {σ : Type} [Source σ] {shows : σ → Value → Prop}
    (hf : Source.Faithful shows) {c : Context} {s : σ} (hs : shows s c.value) :
    Module.decodeAll s = pure c.declared :=
  Module.decodeAll_written hf hs

/-- A context can be resolved again and comes out the same, and whatever faithful format it is saved
in, it is read back and resolves to itself, places and origins included, though these are not
written; so do settled data. -/
theorem reload {ms : List (Module Declared)} {c : Context} (h : resolve ms = .ok c) :
    resolve c.declared = .ok c ∧
      (∀ references, ∃ saved, (Module.decodeAll c.value.datum).eval references = .ok saved ∧
        resolve saved = .ok c) ∧
      ∀ (σ : Type) [Source σ] (shows : σ → Value → Prop), Source.Faithful shows →
        ∀ s, shows s c.value → ∀ references, ∃ saved,
          (Module.decodeAll s).eval references = .ok saved ∧ resolve saved = .ok c := by
  have hagain := resolve_declared h
  have hdata : Module.decodeAll c.value.datum = pure c.declared :=
    decodeAll_value Datum.faithful rfl
  refine ⟨hagain, fun references => ⟨c.declared, ?_, hagain⟩, ?_⟩
  · rw [hdata]
    rfl
  · intro σ _ shows hf s hs references
    refine ⟨c.declared, ?_, hagain⟩
    rw [decodeAll_value hf hs]
    rfl

theorem reload_shop : ∃ c, resolve shop = .ok c ∧ resolve c.declared = .ok c ∧
    ∃ saved, (Module.decodeAll c.value.datum).eval 0 = .ok saved ∧ resolve saved = .ok c := by
  obtain ⟨c, h⟩ := exists_resolve_shop
  obtain ⟨hagain, hdata, -⟩ := reload h
  exact ⟨c, h, hagain, hdata 0⟩

/-- A JSON text that says what a context is, and nothing after it, is loaded as that context. -/
theorem parse_json {ms : List (Module Declared)} {c : Context} (h : resolve ms = .ok c)
    {text : String} {n : Json.Node} {rest : List Char}
    (hread : Json.Node.read? text.toList = some (n, rest)) (hnode : n.Says 127 c.value)
    (hrest : (Json.skipBlanks rest).isEmpty) : parse .json text = .ok c := by
  have hdecode : Module.decodeAll (Json.Place.top n) = pure c.declared :=
    decodeAll_value Json.Place.faithful hnode
  have hcheck : check c.declared = .ok c := by
    rw [check, resolve_declared h]
  have hlift : ParseFault.lift ((pure c.declared : Decoded _).eval 0) = .ok c.declared := rfl
  simp only [parse, Json.parse, hread, hdecode, hlift, ok_bind, hcheck, if_pos hrest]
  rfl

end Context

end YangApi
