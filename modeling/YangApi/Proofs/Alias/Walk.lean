import YangApi.Proofs.Alias.Chains

/-! Where chains of aliases are followed to, cycles included. The search for the end of a chain is
told here as the loop that it is, without a bound on its rounds: it comes to an end, with the last
of the names that the chain takes before it ends or says a name again. -/

namespace YangApi

theorem mapM_eq_some_map {α β : Type} {l : List α} {f : α → Option β} {g : α → β}
    (h : ∀ a ∈ l, f a = some (g a)) : l.mapM f = some (l.map g) := by
  induction l with
  | nil => rfl
  | cons a l ih =>
    rw [List.forall_mem_cons] at h
    rw [List.mapM_cons, h.1, ih h.2]
    rfl

namespace AliasMap

variable {m : AliasMap} {a e name next : String} {seen l l' : List String} {k n : Nat}

/-- The first `n` of the names `a`, its target, the target of that, and so on; fewer if one of them
is no alias. -/
def trail (m : AliasMap) : (n : Nat) → (a : String) → List String
  | 0, _ => []
  | n + 1, a => a :: ((m.get? a).map (trail m n)).getD []

theorem trail_of_step (h : m.Step a next) (n : Nat) :
    m.trail (n + 1) a = a :: m.trail n next := by
  have hget : m.get? a = some next := h
  simp [trail, hget]

theorem trail_of_end (h : m.get? a = none) (n : Nat) : m.trail (n + 1) a = [a] := by
  simp [trail, h]

theorem trail_prefix (m : AliasMap) (a : String) (h : k ≤ n) : m.trail k a <+: m.trail n a := by
  induction k generalizing n a with
  | zero => exact List.nil_prefix
  | succ k ih =>
    obtain ⟨n, rfl⟩ : ∃ n', n = n' + 1 := ⟨n - 1, by omega⟩
    cases hget : m.get? a with
    | none => rw [trail_of_end hget, trail_of_end hget]
    | some next =>
      rw [trail_of_step hget, trail_of_step hget]
      exact List.cons_prefix_cons.2 ⟨rfl, ih next (by omega)⟩

/-- `l` is as much of the trail from `a` as has no name twice. -/
structure Longest (m : AliasMap) (a : String) (l : List String) : Prop where
  trail : ∃ n, m.trail n a = l
  nodup : l.Nodup
  longest : ∀ n, (m.trail n a).Nodup → m.trail n a <+: l

theorem Longest.unique (h : m.Longest a l) (h' : m.Longest a l') : l = l' := by
  obtain ⟨n, rfl⟩ := h.trail
  obtain ⟨n', rfl⟩ := h'.trail
  have hle := h'.longest n h.nodup
  exact hle.eq_of_length_le (h.longest n' h'.nodup).length_le

theorem Longest.of_not_nodup (hl : m.trail n a = l) (hnodup : l.Nodup)
    (hmore : ∀ k > n, ¬ (m.trail k a).Nodup) : m.Longest a l where
  trail := ⟨n, hl⟩
  nodup := hnodup
  longest k hk := by
    have hkn : k ≤ n := Nat.le_of_not_lt fun h => hmore k h hk
    exact hl ▸ trail_prefix m a hkn

/-- One name after the other as long as the next one was not seen; nothing if `rounds` names are not
enough. The name at hand is not yet among those seen: it joins them when the walk goes on. -/
def walk (m : AliasMap) : (rounds : Nat) → (seen : List String) → (name : String) → Option String
  | 0, _, _ => none
  | rounds + 1, seen, name =>
    match m.get? name with
    | none => some name
    | some next => if next ∈ seen then some name else walk m rounds (name :: seen) next

/-- Every alias with what its walk ends with, if every walk ends in this many rounds. -/
def closedWithin (m : AliasMap) (rounds : Nat) : Option AliasMap :=
  m.mapM fun e => (m.walk rounds [e.1] e.2).map (Prod.mk e.1)

/-- A walk that ends is what following with enough steps comes to. -/
theorem follow_of_walk {rounds : Nat} (h : m.walk rounds seen name = some e) :
    ∀ steps ≥ rounds, m.follow steps seen name = e ∧ m.walk steps seen name = some e := by
  induction rounds generalizing seen name with
  | zero => cases h
  | succ rounds ih =>
    intro steps hsteps
    obtain ⟨steps, rfl⟩ : ∃ s, steps = s + 1 := ⟨steps - 1, by omega⟩
    unfold walk at h
    unfold follow walk
    cases hnext : m.get? name with
    | none =>
      simp only [hnext] at h
      exact ⟨Option.some.inj h, h⟩
    | some next =>
      by_cases hmem : next ∈ seen
      · simp only [hnext, hmem, if_true] at h ⊢
        exact ⟨Option.some.inj h, h⟩
      · simp only [hnext, hmem, if_false] at h ⊢
        exact ih h steps (by omega)

/-- How far a walk from `a` has come. The names seen are the trail up to the one at hand; that one
may be among them only as its own target, since it was looked up before its predecessor was seen. -/
structure Walked (m : AliasMap) (a : String) (seen : List String) (name : String) : Prop where
  trail : ∀ n, m.trail (seen.length + n) a = seen.reverse ++ m.trail n name
  nodup : seen.Nodup
  aliases : seen ⊆ m.names
  again : name ∈ seen → seen.head? = some name ∧ m.Step name name

namespace Walked

theorem start (h : m.Step a name) : m.Walked a [a] name where
  trail n := by rw [List.length_singleton, Nat.add_comm, trail_of_step h]; rfl
  nodup := List.nodup_singleton a
  aliases := List.cons_subset.2 ⟨mem_names_of_step h, List.nil_subset _⟩
  again hname := by
    obtain rfl := List.mem_singleton.1 hname
    exact ⟨rfl, h⟩

theorem step (h : m.Walked a seen name) (hstep : m.Step name next) (hnew : next ∉ seen) :
    m.Walked a (name :: seen) next := by
  have hname : name ∉ seen := by
    intro hmem
    obtain rfl := rightUnique_step hstep (h.again hmem).2
    exact hnew hmem
  refine ⟨fun n => ?_, List.nodup_cons.2 ⟨hname, h.nodup⟩,
    List.cons_subset.2 ⟨mem_names_of_step hstep, h.aliases⟩, fun hmem => ?_⟩
  · have hlength : (name :: seen).length + n = seen.length + (n + 1) := by
      rw [List.length_cons]
      omega
    rw [hlength, h.trail, trail_of_step hstep, List.reverse_cons, List.append_assoc]
    rfl
  · obtain rfl := (List.mem_cons.1 hmem).resolve_right hnew
    exact ⟨rfl, hstep⟩

/-- At a name that is no alias the whole trail has been walked. -/
theorem longest_of_end (h : m.Walked a seen name) (hend : m.get? name = none) :
    m.Longest a (seen.reverse ++ [name]) := by
  have hname : name ∉ seen := fun hmem => get?_eq_none_iff.1 hend (h.aliases hmem)
  have hwhole : ∀ n, m.trail (seen.length + (n + 1)) a = seen.reverse ++ [name] := fun n => by
    rw [h.trail, trail_of_end hend]
  refine ⟨⟨_, hwhole 0⟩, ?_, fun n _ => ?_⟩
  · rw [← List.reverse_cons, List.nodup_reverse]
    exact List.nodup_cons.2 ⟨hname, h.nodup⟩
  · rw [← hwhole n]
    exact trail_prefix m a (by omega)

/-- Before a name that was seen, the trail has no name twice, but for one that is its own target. -/
theorem longest_of_seen (h : m.Walked a seen name) (hstep : m.Step name next)
    (hseen : next ∈ seen) : ∃ l, m.Longest a l ∧ l.getLast? = some name ∧ next ∈ l := by
  by_cases hname : name ∈ seen
  · refine ⟨seen.reverse, .of_not_nodup (n := seen.length) ?_ (List.nodup_reverse.2 h.nodup) ?_, ?_,
      List.mem_reverse.2 hseen⟩
    · simpa [AliasMap.trail] using h.trail 0
    · intro k hk hnodup
      obtain ⟨n, rfl⟩ : ∃ n, k = seen.length + (n + 1) := ⟨k - seen.length - 1, by omega⟩
      rw [h.trail, trail_of_step hstep] at hnodup
      exact List.disjoint_of_nodup_append hnodup (List.mem_reverse.2 hname) (List.mem_cons_self ..)
    · rw [List.getLast?_reverse]
      exact (h.again hname).1
  · refine ⟨seen.reverse ++ [name], .of_not_nodup (n := seen.length + 1) ?_ ?_ ?_, by simp,
      List.mem_append_left _ (List.mem_reverse.2 hseen)⟩
    · rw [h.trail, trail_of_step hstep]
      rfl
    · rw [← List.reverse_cons, List.nodup_reverse]
      exact List.nodup_cons.2 ⟨hname, h.nodup⟩
    · intro k hk hnodup
      obtain ⟨n, rfl⟩ : ∃ n, k = seen.length + (n + 1 + 1) := ⟨k - seen.length - 2, by omega⟩
      have hnext : next ∈ m.trail (n + 1 + 1) name := by
        rw [trail_of_step hstep]
        exact List.mem_cons_of_mem _ (List.mem_cons_self ..)
      rw [h.trail] at hnodup
      exact List.disjoint_of_nodup_append hnodup (List.mem_reverse.2 hseen) hnext

/-- The names seen are different aliases, so that there are not more rounds than aliases. -/
theorem ends (h : m.Walked a seen name) {rounds : Nat}
    (hrounds : m.length < rounds + seen.length) :
    ∃ l e, m.walk rounds seen name = some e ∧ m.Longest a l ∧ l.getLast? = some e ∧
      (e ∉ m.names ∧ l.dropLast ⊆ m.names ∨ ∃ next ∈ l, m.Step e next) := by
  induction rounds generalizing seen name with
  | zero =>
    -- More names would have been seen than there are aliases.
    have hlength := h.nodup.length_le_of_subset h.aliases
    simp only [names, List.length_map] at hlength
    omega
  | succ rounds ih =>
    unfold walk
    cases hnext : m.get? name with
    | none =>
      refine ⟨_, name, rfl, h.longest_of_end hnext, by simp, .inl ⟨get?_eq_none_iff.1 hnext, ?_⟩⟩
      rw [List.dropLast_concat]
      exact fun x hx => h.aliases (List.mem_reverse.1 hx)
    | some next =>
      have hstep : m.Step name next := hnext
      by_cases hseen : next ∈ seen
      · obtain ⟨l, hl, hlast, hmem⟩ := h.longest_of_seen hstep hseen
        simp only [hseen, if_true]
        exact ⟨l, name, rfl, hl, hlast, .inr ⟨next, hmem, hstep⟩⟩
      · simp only [hseen, if_false]
        exact ih (h.step hstep hseen) (by rw [List.length_cons]; omega)

end Walked

/-- In as many rounds as there are aliases, the walk from an alias ends, and it ends with what the
closure has for the alias. -/
theorem walk_alias (h : m.Step a name) : ∃ l e,
    (∀ rounds ≥ m.length, m.walk rounds [a] name = some e) ∧ m.follow m.length [a] name = e ∧
      m.Longest a l ∧ l.getLast? = some e ∧
      (e ∉ m.names ∧ l.dropLast ⊆ m.names ∨ ∃ next ∈ l, m.Step e next) := by
  have hrounds : m.length < m.length + [a].length := Nat.lt_succ_self _
  obtain ⟨l, e, hwalk, hlongest, hlast, hend⟩ := (Walked.start h).ends hrounds
  have hfollow := follow_of_walk hwalk
  exact ⟨l, e, fun rounds hrounds => (hfollow rounds hrounds).2, (hfollow _ le_rfl).1, hlongest,
    hlast, hend⟩

theorem closedWithin_eq (hm : m.names.Nodup) {rounds : Nat} (hrounds : m.length ≤ rounds) :
    m.closedWithin rounds = some m.closed := by
  refine mapM_eq_some_map fun e he => ?_
  obtain ⟨-, x, hwalk, hfollow, -⟩ := walk_alias ((step_iff_mem hm).2 he)
  rw [hwalk rounds hrounds, hfollow, Option.map_some]

/-- Where no alias stands for another one, there is nothing to follow. -/
theorem Flat.closed_eq (hm : m.names.Nodup) (hflat : m.Flat) : m.closed = m := by
  have hsame : ∀ e ∈ m, (e.1, m.follow m.length [e.1] e.2) = e := by
    intro e he
    have hend : m.get? e.2 = none := get?_eq_none_iff.2 (hflat _ _ ((step_iff_mem hm).2 he))
    obtain ⟨n, hn⟩ := Nat.exists_eq_add_one.2 (List.length_pos_of_mem he)
    rw [hn]
    simp only [follow, hend]
  rw [closed, List.map_congr_left hsame, List.map_id']

/-- For whatever map of names, each with one target, with whatever chains, cycles, tails and names
that stand for themselves: the walk from every alias comes to an end, the closure has the aliases of
the map, and takes each to the last name of the longest trail from it that has no name twice. That
is the first name that is no alias if there is one, and else the last one before the trail says a
name again. Without cycles the closure takes no alias to an alias, and is its own closure. -/
theorem closed_longest (hm : m.names.Nodup) :
    (∀ rounds ≥ m.length, m.closedWithin rounds = some m.closed) ∧
      m.closed.names = m.names ∧
      (∀ a e, m.closed.get? a = some e ↔
        a ∈ m.names ∧ ∃ l, m.Longest a l ∧ l.getLast? = some e) ∧
      (∀ a ∈ m.names, ∀ l e, m.Longest a l → l.getLast? = some e →
        e ∉ m.names ∧ l.dropLast ⊆ m.names ∨ ∃ next ∈ l, m.Step e next) ∧
      (m.Acyclic → m.closed.Flat ∧ m.closed.closed = m.closed) := by
  have hwalk : ∀ a ∈ m.names, ∃ l e, m.closed.get? a = some e ∧ m.Longest a l ∧
      l.getLast? = some e ∧ (e ∉ m.names ∧ l.dropLast ⊆ m.names ∨ ∃ next ∈ l, m.Step e next) := by
    intro a ha
    obtain ⟨b, hb⟩ := Option.ne_none_iff_exists'.1 fun h => get?_eq_none_iff.1 h ha
    obtain ⟨l, e, -, hfollow, hl⟩ := walk_alias hb
    exact ⟨l, e, by rw [get?_closed, hb, Option.map_some, hfollow], hl⟩
  refine ⟨fun _ => closedWithin_eq hm, m.names_closed, fun a e => ⟨fun h => ?_, ?_⟩,
    fun a ha l e hl hlast => ?_, fun hacyclic => ?_⟩
  · have ha : a ∈ m.names := m.names_closed ▸ mem_names_of_step h
    obtain ⟨l, e', he', hl, hlast, -⟩ := hwalk a ha
    obtain rfl := Option.some.inj (he'.symm.trans h)
    exact ⟨ha, l, hl, hlast⟩
  · rintro ⟨ha, l, hl, hlast⟩
    obtain ⟨l', e', he', hl', hlast', -⟩ := hwalk a ha
    obtain rfl := hl.unique hl'
    obtain rfl := Option.some.inj (hlast.symm.trans hlast')
    exact he'
  · obtain ⟨l', e', -, hl', hlast', hend⟩ := hwalk a ha
    obtain rfl := hl.unique hl'
    obtain rfl := Option.some.inj (hlast.symm.trans hlast')
    exact hend
  · have hflat : m.closed.Flat := fun a b hab => m.names_closed ▸ hacyclic.settles.ends a b hab
    exact ⟨hflat, hflat.closed_eq (m.names_closed ▸ hm)⟩

/-- A chain, a cycle with a tail, and a name with a tail that stands for itself. -/
def trails : AliasMap :=
  [("a", "b"), ("b", "end"), ("p", "q"), ("q", "r"), ("r", "q"), ("t", "u"), ("u", "u")]

theorem closed_longest_trails :
    (trails.names.Nodup ∧ trails.closedWithin 7 = some trails.closed ∧
      (∃ l, trails.Longest "p" l ∧ l.getLast? = some "r") ∧
      ∃ l, trails.Longest "t" l ∧ l.getLast? = some "u") ∧
    (Acyclic (trails.take 2) ∧ Flat (closed (trails.take 2)) ∧
      closed (closed (trails.take 2)) = [("a", "end"), ("b", "end")]) := by
  have hnames : trails.names.Nodup := by decide
  obtain ⟨hwithin, -, hends, -⟩ := closed_longest hnames
  have hchain : (names (trails.take 2)).Nodup := by decide
  obtain ⟨-, -, -, -, hacyclic⟩ := closed_longest hchain
  have hrank : ∀ e ∈ trails.take 2,
      ["end", "b", "a"].idxOf e.2 < ["end", "b", "a"].idxOf e.1 := by decide
  have hnone : Acyclic (trails.take 2) :=
    .of_rank ["end", "b", "a"].idxOf fun _ _ h => hrank _ ((step_iff_mem hchain).1 h)
  obtain ⟨hflat, hagain⟩ := hacyclic hnone
  refine ⟨⟨hnames, hwithin 7 (by decide), ((hends "p" "r").1 (by decide)).2,
    ((hends "t" "u").1 (by decide)).2⟩, hnone, hflat, ?_⟩
  rw [hagain]
  decide

end AliasMap

end YangApi
