import Mathlib.Data.List.Forall2
import Mathlib.Data.List.Induction
import YangApi.Proofs.Naming
import YangApi.Proofs.Schema.Lineage
import YangApi.Visit

/-! Chains of levels. Every key on a chain has one parameter, and no parameter stands twice, however
often names and keys repeat: each is chosen outside those that are taken. -/

namespace YangApi

theorem Text.firstNumbered_numbered (stem : String) (taken : List String) :
    ∃ n, 2 ≤ n ∧ firstNumbered stem taken = stem ++ toString n := by
  obtain ⟨s, hs, hfree⟩ := exists_free_numbered stem taken
  unfold firstNumbered
  cases h : (numbered stem taken).find? fun s => s ∉ taken with
  | none => exact absurd hfree (by simpa using List.find?_eq_none.1 h s hs)
  | some t =>
    obtain ⟨i, -, rfl⟩ := List.mem_map.1 (List.mem_of_find?_eq_some h)
    exact ⟨i + 2, by omega, rfl⟩

namespace Segment

/-- What a level is made of when it is pushed. -/
structure Push where
  name : String
  owner : String
  readOnly : Bool
  keys : List String

def pushAll (s : Segment) (ps : List Push) : Segment :=
  ps.foldl (fun s p => s.push p.name p.owner p.readOnly p.keys) s

/-- A parameter for a segment's key: the key, or qualified by the segment, or numbered as well. -/
def NamedFor (e : String × String) (param : String) : Prop :=
  param = e.2 ∨ param = e.1 ++ "-" ++ e.2 ∨
    ∃ n, 2 ≤ n ∧ param = e.1 ++ "-" ++ e.2 ++ "-" ++ toString n

def Push.entries (ps : List Push) : List (String × String) :=
  ps.flatMap fun p => p.keys.map fun k => (p.name, k)

theorem uniqueParam_notMem (segment key : String) (taken : List String) :
    uniqueParam segment key taken ∉ taken := by
  unfold uniqueParam
  dsimp only
  split
  · assumption
  · split
    · assumption
    · exact Text.firstNumbered_notMem _ _

theorem namedFor_uniqueParam (segment key : String) (taken : List String) :
    NamedFor (segment, key) (uniqueParam segment key taken) := by
  unfold uniqueParam
  dsimp only
  split
  · exact .inl rfl
  · split
    · exact .inr (.inl rfl)
    · obtain ⟨n, hn, he⟩ := Text.firstNumbered_numbered (segment ++ "-" ++ key ++ "-") taken
      exact .inr (.inr ⟨n, hn, he⟩)

theorem nodup_localParams (segment : String) (ks : List String) {taken : List String}
    (h : taken.Nodup) : (taken ++ localParams segment taken ks).Nodup := by
  induction ks generalizing taken with
  | nil => simpa [localParams] using h
  | cons k ks ih =>
    have hstep : (taken ++ [uniqueParam segment k taken]).Nodup :=
      List.nodup_append.2 ⟨h, by simp, by
        intro a ha b hb
        rintro rfl
        exact uniqueParam_notMem segment k taken (List.mem_singleton.1 hb ▸ ha)⟩
    simpa [localParams] using ih hstep

theorem namedFor_localParams (segment : String) (ks taken : List String) :
    List.Forall₂ NamedFor (ks.map fun k => (segment, k)) (localParams segment taken ks) := by
  induction ks generalizing taken with
  | nil => exact .nil
  | cons k ks ih => exact .cons (namedFor_uniqueParam segment k taken) (ih _)

theorem length_localParams (segment : String) (ks taken : List String) :
    (localParams segment taken ks).length = ks.length := by
  simpa using (namedFor_localParams segment ks taken).length_eq.symm

section push

variable (s : Segment) (name owner : String) (readOnly : Bool) (keys : List String)

theorem params_push : (s.push name owner readOnly keys).params =
    s.params ++ localParams name s.params keys := by
  simp [push, params]

theorem isReadOnly_push :
    (s.push name owner readOnly keys).isReadOnly = (readOnly || s.isReadOnly) := by
  simp [push, isReadOnly, last?]

end push

@[simp] theorem pushAll_nil (s : Segment) : s.pushAll [] = s := rfl

theorem pushAll_cons (s : Segment) (p : Push) (ps : List Push) :
    s.pushAll (p :: ps) = (s.push p.name p.owner p.readOnly p.keys).pushAll ps := rfl

theorem pushAll_append (s : Segment) (ps qs : List Push) :
    s.pushAll (ps ++ qs) = (s.pushAll ps).pushAll qs := by
  simp [pushAll]

theorem nodup_params_pushAll {s : Segment} (h : s.params.Nodup) (ps : List Push) :
    (s.pushAll ps).params.Nodup := by
  induction ps generalizing s with
  | nil => exact h
  | cons p ps ih => exact ih (params_push .. ▸ nodup_localParams p.name p.keys h)

theorem namedFor_params_pushAll {s : Segment} {es : List (String × String)}
    (h : List.Forall₂ NamedFor es s.params) (ps : List Push) :
    List.Forall₂ NamedFor (es ++ Push.entries ps) (s.pushAll ps).params := by
  induction ps generalizing s es with
  | nil => simpa [Push.entries] using h
  | cons p ps ih =>
    have hstep : List.Forall₂ NamedFor (es ++ p.keys.map fun k => (p.name, k))
        (s.push p.name p.owner p.readOnly p.keys).params := by
      rw [params_push]
      exact List.rel_append h (namedFor_localParams _ _ _)
    simpa [Push.entries, pushAll_cons] using ih hstep

section chain

variable (root : String) (ps : List Push)

theorem params_ofModule : (ofModule root).params = [] := rfl

theorem nodup_params : ((ofModule root).pushAll ps).params.Nodup :=
  nodup_params_pushAll (params_ofModule root ▸ List.nodup_nil) ps

theorem namedFor_params :
    List.Forall₂ NamedFor (Push.entries ps) ((ofModule root).pushAll ps).params := by
  have hroot : List.Forall₂ NamedFor [] (ofModule root).params := .nil
  exact namedFor_params_pushAll hroot ps

end chain

example : ((ofModule "shop").pushAll [⟨"order", "shop", false, ["id"]⟩,
      ⟨"line", "shop", false, ["id", "id"]⟩]).params = ["id", "line-id", "line-id-2"] := by
  decide

def along (owner : String) (levels : List (Resolved × Shape)) : Segment :=
  (ofModule owner).pushAll (levels.map fun e => ⟨e.1.name, owner, !e.1.config, e.2.keys⟩)

theorem along_concat (owner : String) (levels : List (Resolved × Shape)) (r : Resolved)
    (shape : Shape) :
    along owner (levels ++ [(r, shape)]) = (along owner levels).pushNode owner r shape := by
  simp [along, pushAll_append, pushAll_cons, pushNode]

/-- What a segment tells about containers and lists, outermost first: a level each, with a parameter
for each of its keys. -/
structure Follows (s : Segment) (owner : String) (levels : List (Resolved × Shape)) : Prop where
  root : s.root = owner
  names : s.names = levels.map fun e => e.1.name
  owners : ∀ l ∈ s.levels, l.owner = owner
  readOnly : s.isReadOnly ↔ ∃ e ∈ levels, e.1.config = false
  keys : s.levels.map Level.keys = levels.map fun e => e.2.keys
  params : ∀ l ∈ s.levels, l.params.length = l.keys.length

theorem Follows.pushNode {s : Segment} {owner : String} {levels : List (Resolved × Shape)}
    (h : s.Follows owner levels) (r : Resolved) (shape : Shape) :
    (s.pushNode owner r shape).Follows owner (levels ++ [(r, shape)]) where
  root := h.root
  names := by
    have hnames : s.levels.map Level.name = levels.map fun e => e.1.name := h.names
    simp [Segment.pushNode, push, Segment.names, hnames]
  owners := by
    simp only [Segment.pushNode, push, List.forall_mem_append, List.forall_mem_singleton, and_true]
    exact h.owners
  readOnly := by
    have hflag : (s.pushNode owner r shape).isReadOnly = (!r.config || s.isReadOnly) :=
      isReadOnly_push ..
    rw [hflag, Bool.or_eq_true, h.readOnly]
    simp [or_comm, or_and_right, exists_or]
  keys := by simp [Segment.pushNode, push, h.keys]
  params := by
    simp only [Segment.pushNode, push, List.forall_mem_append, List.forall_mem_singleton]
    exact ⟨h.params, length_localParams ..⟩

theorem follows_along (owner : String) (levels : List (Resolved × Shape)) :
    (along owner levels).Follows owner levels := by
  induction levels using List.reverseRecOn with
  | nil => exact ⟨rfl, rfl, by simp [along, ofModule], by simp [along, ofModule, isReadOnly, last?],
      rfl, by simp [along, ofModule]⟩
  | append_singleton levels e ih =>
    obtain ⟨r, shape⟩ := e
    rw [along_concat]
    exact ih.pushNode r shape

end Segment

end YangApi
