import Mathlib.Data.List.Infix
import Mathlib.Logic.Function.Iterate
import YangApi.Proofs.Naming

/-! What a registry answers when it is asked again and again, for any paths, bases and qualifiers.
The search for a name is told here as the loop that it is, without a bound on the numbers that are
tried: it comes to an end, with the first name in its order that no path has. -/

namespace YangApi

theorem Text.firstNumbered_spec (stem : String) (taken : List String) :
    ∃ n, 2 ≤ n ∧ firstNumbered stem taken = stem ++ toString n ∧
      ∀ m, 2 ≤ m → m < n → stem ++ toString m ∈ taken := by
  obtain ⟨s, hs, hfree⟩ := exists_free_numbered stem taken
  obtain ⟨t, ht⟩ : ∃ t, ((numbered stem taken).find? fun s => s ∉ taken) = some t :=
    Option.isSome_iff_exists.1 (List.find?_isSome.2 ⟨s, hs, by simpa using hfree⟩)
  obtain ⟨-, i, hi, rfl, hearlier⟩ := List.find?_eq_some_iff_getElem.1 ht
  refine ⟨i + 2, by omega, ?_, fun m hm hmi => ?_⟩
  · simp only [firstNumbered, ht, Option.getD_some]
    simp [numbered]
  · have hm' := hearlier (m - 2) (by omega)
    simpa [numbered, show m - 2 + 2 = m by omega] using hm'

namespace Registry

/-- `base` behind qualifiers in camel case, the first of them right before it. -/
def qualify (base : String) (inner : List String) : String :=
  inner.foldl (fun name q => camelCase q ++ name) base

theorem candidates_eq (base : String) (outer : List String) :
    candidates base outer = outer.inits.map (qualify base) := by
  induction outer generalizing base with
  | nil => rfl
  | cons q outer ih => simp [candidates, ih, qualify, Function.comp_def]

theorem getLastD_candidates (base first : String) (outer : List String) :
    (candidates base outer).getLastD first = qualify base outer := by
  induction outer generalizing base first with
  | nil => rfl
  | cons q outer ih => rw [candidates, List.getLastD_cons, ih, qualify, qualify, List.foldl_cons]

/-- The first free one of `base`, `base` behind one qualifier, behind two, and so on, where `outer`
goes from the innermost qualifier outwards. If there is none, the longest of them with the smallest
number that makes it free. -/
inductive FirstFree (taken : List String) (base : String) (outer : List String) : String → Prop
  | qualified (k : Nat) (hk : k ≤ outer.length) (hfree : qualify base (outer.take k) ∉ taken)
      (hfirst : ∀ j < k, qualify base (outer.take j) ∈ taken) :
      FirstFree taken base outer (qualify base (outer.take k))
  | numbered (n : Nat) (hn : 2 ≤ n)
      (hall : ∀ j ≤ outer.length, qualify base (outer.take j) ∈ taken)
      (hfree : qualify base outer ++ toString n ∉ taken)
      (hfirst : ∀ m, 2 ≤ m → m < n → qualify base outer ++ toString m ∈ taken) :
      FirstFree taken base outer (qualify base outer ++ toString n)

theorem firstFree_choose (taken : List String) (base : String) (outer : List String) :
    FirstFree taken base outer (choose taken base outer) := by
  cases h : (candidates base outer).find? fun s => s ∉ taken with
  | some s =>
    have hchoose : choose taken base outer = s := by simp only [choose, h]
    rw [candidates_eq] at h
    obtain ⟨hfree, k, hk, rfl, hfirst⟩ := List.find?_eq_some_iff_getElem.1 h
    rw [List.length_map, List.length_inits] at hk
    rw [hchoose, List.getElem_map, List.getElem_inits]
    refine .qualified k (by omega) (by simpa using hfree) fun j hj => ?_
    simpa using hfirst j hj
  | none =>
    have hchoose : choose taken base outer = Text.firstNumbered (qualify base outer) taken := by
      simp only [choose, h, getLastD_candidates]
    obtain ⟨n, hn, hname, hfirst⟩ := Text.firstNumbered_spec (qualify base outer) taken
    have hfree := Text.firstNumbered_notMem (qualify base outer) taken
    rw [hchoose, hname]
    rw [hname] at hfree
    refine .numbered n hn (fun j hj => ?_) hfree hfirst
    rw [candidates_eq] at h
    have hj' := List.find?_eq_none.1 h (qualify base (outer.take j))
      (List.mem_map_of_mem ((List.mem_inits _ _).2 (List.take_prefix j outer)))
    simpa using hj'

/-- What a search is about to try: a name with the qualifiers that may still come in front of it, or
a number behind the longest one. -/
inductive Attempt
  | qualified (candidate : String) (outer : List String)
  | numbered (stem : String) (n : Nat)

namespace Attempt

def name : Attempt → String
  | qualified candidate _ => candidate
  | numbered stem n => stem ++ toString n

/-- What is tried after a name that is taken. -/
def next : Attempt → Attempt
  | qualified candidate (q :: outer) => qualified (camelCase q ++ candidate) outer
  | qualified candidate [] => numbered candidate 2
  | numbered stem n => numbered stem (n + 1)

/-- One attempt after the other as long as names are taken, with the first free name in the end;
nothing if `steps` attempts are not enough. -/
def search (taken : List String) : (steps : Nat) → Attempt → Option String
  | 0, _ => none
  | steps + 1, a => if a.name ∈ taken then a.next.search taken steps else some a.name

variable {taken : List String}

theorem search_iterate (k : Nat) : ∀ a : Attempt, (next^[k] a).name ∉ taken →
    (∀ j < k, (next^[j] a).name ∈ taken) → ∀ steps > k,
    a.search taken steps = some (next^[k] a).name := by
  induction k with
  | zero =>
    intro a hfree _ steps hsteps
    obtain ⟨steps, rfl⟩ : ∃ s, steps = s + 1 := ⟨steps - 1, by omega⟩
    rw [Function.iterate_zero_apply] at hfree ⊢
    rw [search, if_neg hfree]
  | succ k ih =>
    intro a hfree hfirst steps hsteps
    obtain ⟨steps, rfl⟩ : ∃ s, steps = s + 1 := ⟨steps - 1, by omega⟩
    have htaken : a.name ∈ taken := hfirst 0 (by omega)
    rw [search, if_pos htaken]
    exact ih a.next hfree (fun j hj => hfirst (j + 1) (by omega)) steps (by omega)

-- The attempts one after the other: all qualified names, and behind them all numbers.

theorem iterate_qualified (base : String) {outer : List String} {k : Nat} (hk : k ≤ outer.length) :
    next^[k] (qualified base outer) =
      qualified (qualify base (outer.take k)) (outer.drop k) := by
  induction k generalizing base outer with
  | zero => rfl
  | succ k ih =>
    cases outer with
    | nil => simp at hk
    | cons q outer => exact ih (camelCase q ++ base) (by simpa using hk)

theorem iterate_numbered (base : String) (outer : List String) (n : Nat) :
    next^[outer.length + 1 + n] (qualified base outer) =
      numbered (qualify base outer) (n + 2) := by
  induction n with
  | zero =>
    rw [Nat.add_zero, Function.iterate_succ_apply', iterate_qualified base le_rfl, List.drop_length,
      List.take_length]
    rfl
  | succ n ih => rw [← Nat.add_assoc, Function.iterate_succ_apply', ih, next]

end Attempt

theorem FirstFree.search {taken : List String} {base name : String} {outer : List String}
    (h : FirstFree taken base outer name) : ∃ enough, ∀ steps ≥ enough,
      (Attempt.qualified base outer).search taken steps = some name := by
  have hname : ∀ j ≤ outer.length, (Attempt.next^[j] (.qualified base outer)).name =
      qualify base (outer.take j) := fun j hj => by rw [Attempt.iterate_qualified base hj]; rfl
  cases h with
  | qualified k hk hfree hfirst =>
    refine ⟨k + 1, fun steps hsteps => ?_⟩
    rw [← hname k hk] at hfree ⊢
    refine Attempt.search_iterate k _ hfree (fun j hj => ?_) steps hsteps
    rw [hname j (by omega)]
    exact hfirst j hj
  | numbered n hn hall hfree hfirst =>
    have hnumbered : ∀ m, 2 ≤ m → (Attempt.next^[outer.length + 1 + (m - 2)]
        (.qualified base outer)).name = qualify base outer ++ toString m := by
      intro m hm
      rw [Attempt.iterate_numbered, Nat.sub_add_cancel hm]
      rfl
    refine ⟨outer.length + 1 + (n - 2) + 1, fun steps hsteps => ?_⟩
    rw [← hnumbered n hn] at hfree ⊢
    refine Attempt.search_iterate _ _ hfree (fun j hj => ?_) steps hsteps
    rcases Nat.lt_or_ge outer.length j with hj' | hj'
    · obtain ⟨m, rfl⟩ : ∃ m, j = outer.length + 1 + (m + 2 - 2) :=
        ⟨j - (outer.length + 1), by omega⟩
      rw [hnumbered (m + 2) (by omega)]
      exact hfirst _ (by omega) (by omega)
    · rw [hname j hj']
      exact hall j hj'

/-- What a registry is asked. -/
structure Call where
  key : SchemaPath
  base : String
  qualifiers : List String
  deriving DecidableEq

def serve (r : Registry) (call : Call) : Registry × String :=
  r.assign call.key call.base call.qualifiers

def serveWithin (steps : Nat) (r : Registry) (call : Call) : Option (Registry × String) :=
  match r.get? call.key with
  | some name => some (r, name)
  | none => ((Attempt.qualified call.base call.qualifiers.reverse).search r.taken steps).map
      fun name => (⟨(call.key, name) :: r.assigned⟩, name)

theorem serve_terminates (r : Registry) (call : Call) :
    ∃ enough, ∀ steps ≥ enough, r.serveWithin steps call = some (r.serve call) := by
  cases h : r.get? call.key with
  | some name =>
    refine ⟨0, fun steps _ => ?_⟩
    simp only [serveWithin, serve, h, assign_eq h]
  | none =>
    obtain ⟨enough, hsearch⟩ :=
      (firstFree_choose r.taken call.base call.qualifiers.reverse).search
    refine ⟨enough, fun steps hsteps => ?_⟩
    simp only [serveWithin, serve, assign, h, hsearch steps hsteps, Option.map_some]

def after (r : Registry) (calls : List Call) : Registry :=
  calls.foldl (fun r call => (r.serve call).1) r

/-- Calls, each with the name that it is answered with. -/
def answers : Registry → List Call → List (Call × String)
  | _, [] => []
  | r, call :: calls => (call, (r.serve call).2) :: answers (r.serve call).1 calls

theorem map_fst_answers (r : Registry) (calls : List Call) :
    (r.answers calls).map Prod.fst = calls := by
  induction calls generalizing r with
  | nil => rfl
  | cons call calls ih => rw [answers, List.map_cons, ih]

theorem exists_of_answers_eq {before later : List (Call × String)} {a : Call × String}
    {r : Registry} {calls : List Call} (h : r.answers calls = before ++ a :: later) :
    ∃ earlier, r.answers earlier = before ∧ a.2 = ((r.after earlier).serve a.1).2 := by
  induction before generalizing r calls with
  | nil =>
    cases calls with
    | nil => cases h
    | cons call calls =>
      obtain ⟨rfl, -⟩ := List.cons.inj h
      exact ⟨[], rfl, rfl⟩
  | cons b before ih =>
    cases calls with
    | nil => cases h
    | cons call calls =>
      obtain ⟨rfl, hlater⟩ := List.cons.inj h
      obtain ⟨earlier, rfl, ha⟩ := ih hlater
      exact ⟨call :: earlier, rfl, ha⟩

theorem within_after (r : Registry) (calls : List Call) : Within r (r.after calls) := by
  induction calls generalizing r with
  | nil => exact .refl r
  | cons call calls ih => exact (within_assign r _ _ _).trans (ih _)

theorem Distinct.after {r : Registry} (hr : r.Distinct) (calls : List Call) :
    (r.after calls).Distinct := by
  induction calls generalizing r with
  | nil => exact hr
  | cons call calls ih => exact ih (hr.assign _ _ _)

theorem get?_after_of_mem {r : Registry} {calls : List Call} {a : Call × String}
    (ha : a ∈ r.answers calls) : (r.after calls).get? a.1.key = some a.2 := by
  induction calls generalizing r with
  | nil => cases ha
  | cons call calls ih =>
    rcases List.mem_cons.1 ha with rfl | ha
    · exact within_after _ calls _ _ (get?_assign r _ _ _)
    · exact ih ha

/-- One call takes no name but its answer, and names no path but its own. -/
theorem serve_spec (r : Registry) (call : Call) :
    (∀ n, n ∈ (r.serve call).1.taken ↔ n = (r.serve call).2 ∨ n ∈ r.taken) ∧
      ∀ p, p ≠ call.key → (r.serve call).1.get? p = r.get? p := by
  unfold serve
  obtain ⟨name, h, e⟩ | ⟨name, -, -, e⟩ := assign_cases r call.key call.base call.qualifiers
  · rw [e]
    refine ⟨fun n => ?_, fun p _ => rfl⟩
    constructor
    · exact .inr
    · rintro (rfl | hn)
      · exact mem_taken h
      · exact hn
  · rw [e]
    refine ⟨fun n => List.mem_cons, fun p hp => ?_⟩
    rw [get?_cons, if_neg (Ne.symm hp)]

theorem mem_taken_after (r : Registry) (calls : List Call) (n : String) :
    n ∈ (r.after calls).taken ↔ n ∈ (r.answers calls).map Prod.snd ∨ n ∈ r.taken := by
  induction calls generalizing r with
  | nil => simp [after, answers]
  | cons call calls ih =>
    have hafter : r.after (call :: calls) = (r.serve call).1.after calls := rfl
    rw [hafter, ih, (serve_spec r call).1, answers, List.map_cons, List.mem_cons]
    tauto

theorem get?_after_of_new {r : Registry} {calls : List Call} {p : SchemaPath}
    (h : ∀ a ∈ r.answers calls, a.1.key ≠ p) : (r.after calls).get? p = r.get? p := by
  induction calls generalizing r with
  | nil => rfl
  | cons call calls ih =>
    have hcall : p ≠ call.key := (h _ (List.mem_cons_self ..)).symm
    rw [← (serve_spec r call).2 p hcall]
    exact ih fun a ha => h a (List.mem_cons_of_mem _ ha)

theorem serve_of_new {r : Registry} {call : Call} (h : r.get? call.key = none) :
    (r.serve call).2 = choose r.taken call.base call.qualifiers.reverse := by
  simp only [serve, assign, h]

theorem FirstFree.congr {taken taken' : List String} {base name : String} {outer : List String}
    (h : FirstFree taken base outer name) (htaken : ∀ n, n ∈ taken ↔ n ∈ taken') :
    FirstFree taken' base outer name := by
  cases h with
  | qualified k hk hfree hfirst =>
    exact .qualified k hk (by rwa [← htaken]) fun j hj => (htaken _).1 (hfirst j hj)
  | numbered n hn hall hfree hfirst =>
    exact .numbered n hn (fun j hj => (htaken _).1 (hall j hj)) (by rwa [← htaken])
      fun m hm hmn => (htaken _).1 (hfirst m hm hmn)

/-- However often an empty registry is asked, for whatever paths, bases and qualifiers, every search
comes to an end, two calls are answered alike exactly if they name the same path, and a path that is
new gets the first name in the order of its call that no earlier call was answered with. -/
theorem answers_first_free (calls : List Call) :
    let answers := empty.answers calls
    answers.map Prod.fst = calls ∧
      (∀ a ∈ answers, ∀ b ∈ answers, a.2 = b.2 ↔ a.1.key = b.1.key) ∧
      (∀ a ∈ answers, (empty.after calls).get? a.1.key = some a.2) ∧
      (∀ before a later, answers = before ++ a :: later → (∀ b ∈ before, b.1.key ≠ a.1.key) →
        FirstFree (before.map Prod.snd) a.1.base a.1.qualifiers.reverse a.2) ∧
      ∀ r call, ∃ enough, ∀ steps ≥ enough, serveWithin steps r call = some (r.serve call) := by
  intro answers
  have hget : ∀ a ∈ answers, (empty.after calls).get? a.1.key = some a.2 := fun _ =>
    get?_after_of_mem
  refine ⟨map_fst_answers _ _, fun a ha b hb => ?_, hget, fun before a later hsplit hnew => ?_,
    serve_terminates⟩
  · constructor
    · intro he
      exact distinct_empty.after calls _ _ _ (hget a ha) (he ▸ hget b hb)
    · intro he
      exact Option.some.inj ((hget a ha).symm.trans (he ▸ hget b hb))
  · obtain ⟨earlier, rfl, ha⟩ := exists_of_answers_eq hsplit
    have hnone : (empty.after earlier).get? a.1.key = none := get?_after_of_new hnew
    rw [ha, serve_of_new hnone]
    refine (firstFree_choose _ _ _).congr fun n => ?_
    have hempty : n ∉ empty.taken := List.not_mem_nil
    simp [mem_taken_after, hempty]

/-- Six paths that end in one word: names are made from words further out as long as there are any,
and then with a number. -/
def configs : List Call :=
  let call (names : List String) : Call := ⟨⟨names⟩, "Config", (SchemaPath.mk names).qualifiers⟩
  [call ["m", "x", "config"], call ["m", "y", "config"], call ["m", "y", "config", "config"],
    call ["n", "config"], call ["n", "x", "config"],
    ⟨⟨["m", "x", "config", "extra"]⟩, "Config", []⟩]

theorem answers_first_free_configs :
    let names := ["Config", "YConfig", "ConfigConfig", "NConfig", "XConfig"]
    empty.answers configs = configs.zip (names ++ ["Config2"]) ∧
      FirstFree names "Config" [] "Config2" := by
  intro names
  have hanswers : empty.answers configs = configs.zip (names ++ ["Config2"]) := by decide +kernel
  obtain ⟨-, -, -, hfirst, -⟩ := answers_first_free configs
  refine ⟨hanswers, hfirst ((configs.take 5).zip names) _ [] hanswers ?_⟩
  decide

end Registry

end YangApi
