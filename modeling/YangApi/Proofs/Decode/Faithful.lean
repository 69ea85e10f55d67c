import Mathlib.Data.List.Forall2
import YangApi.Decode.Settled

/-! Reading what was written. A format is faithful if its places give back the values that were
written there; then each field of a record that was written is found under its name, and a field
that was left out stands for its default. -/

namespace YangApi

def Value.Fields.at (fs : Value.Fields) (name : String) : List Value :=
  (fs.filter (·.1 = name)).map Prod.snd

namespace Value.Fields

variable {name k : String}

@[simp] theorem at_nil : Fields.at [] name = [] := rfl

@[simp] theorem at_cons (v : Value) (fs : Value.Fields) :
    Fields.at ((k, v) :: fs) name = if k = name then v :: fs.at name else fs.at name := by
  by_cases h : k = name <;> simp [Fields.at, h]

@[simp] theorem at_append (fs gs : Value.Fields) :
    Fields.at (fs ++ gs) name = fs.at name ++ gs.at name := by
  simp [Fields.at]

@[simp] theorem at_ifSome {α : Type} (f : α → Value) (o : Option α) :
    Fields.at (ifSome k f o) name = if k = name then (o.map f).toList else [] := by
  cases o with
  | none => simp [ifSome]
  | some a => simp [ifSome]

@[simp] theorem at_ifAny (vs : List Value) :
    Fields.at (ifAny k vs) name = if k = name ∧ vs ≠ [] then [.list vs] else [] := by
  cases vs with
  | nil => simp [ifAny]
  | cons v vs => simp [ifAny]

theorem ne_of_at_eq_nil {fs : Value.Fields} (h : fs.at name = []) {f : String × Value}
    (hf : f ∈ fs) : f.1 ≠ name := by
  intro hname
  have hmem : f ∈ fs.filter (·.1 = name) := List.mem_filter.2 ⟨hf, by simpa using hname⟩
  rw [List.map_eq_nil_iff.1 h] at hmem
  cases hmem

theorem at_filter (fs : Value.Fields) (p : String → Bool) :
    Fields.at (fs.filter fun f => p f.1) name = if p name then fs.at name else [] := by
  unfold Fields.at
  rw [List.filter_filter]
  by_cases hname : p name
  · rw [if_pos hname]
    refine congrArg (List.map Prod.snd) (List.filter_congr fun f _ => ?_)
    by_cases hkey : f.1 = name <;> simp [hkey, hname]
  · rw [if_neg hname, List.map_eq_nil_iff, List.filter_eq_nil_iff]
    intro f _
    by_cases hkey : f.1 = name <;> simp [hkey, hname]

end Value.Fields

/-- A record as it is found: its names in order, and at each what was written there. -/
def ShowsFields {σ : Type} (shows : σ → Value → Prop) (es : Fields σ) (fs : Value.Fields) : Prop :=
  List.Forall₂ (fun e f => e.1 = f.1 ∧ shows e.2 f.2) es fs

namespace ShowsFields

variable {σ α : Type} {shows : σ → Value → Prop} {es : Fields σ} {fs : Value.Fields}
  {name : String} {f : σ → Decoded α}

theorem filter (h : ShowsFields shows es fs) (p : String → Bool) :
    ShowsFields shows (es.filter fun e => p e.1) (fs.filter fun f => p f.1) := by
  induction h with
  | nil => exact .nil
  | @cons e g es fs hhead _ ih =>
    obtain ⟨hkey, hshows⟩ := hhead
    rw [List.filter_cons, List.filter_cons, hkey]
    split
    · exact .cons ⟨hkey, hshows⟩ ih
    · exact ih

theorem found (h : ShowsFields shows es fs) (name : String) :
    List.Forall₂ shows ((es.filter (·.1 = name)).map Prod.snd) (fs.at name) := by
  have hnamed := h.filter fun k => k = name
  unfold Value.Fields.at
  rw [List.forall₂_map_left_iff, List.forall₂_map_right_iff]
  exact List.Forall₂.imp (fun _ _ he => he.2) hnamed

theorem find?_eq_none (h : ShowsFields shows es fs) (hname : fs.at name = []) :
    es.find? name = pure none := by
  have hfound := h.found name
  rw [hname, List.forall₂_nil_right_iff] at hfound
  rw [Fields.find?, hfound]
  rfl

theorem find?_eq_some {v : Value} (h : ShowsFields shows es fs) (hname : fs.at name = [v]) :
    ∃ s, es.find? name = pure (some s) ∧ shows s v := by
  have hfound := h.found name
  rw [hname] at hfound
  obtain ⟨s, ss, hs, hss, hlist⟩ := List.forall₂_cons_right_iff.1 hfound
  rw [List.forall₂_nil_right_iff] at hss
  refine ⟨s, ?_, hs⟩
  rw [Fields.find?, hlist, hss]
  rfl

theorem require {v : Value} {a : α} (h : ShowsFields shows es fs) (hname : fs.at name = [v])
    (hf : ∀ s, shows s v → f s = pure a) : es.require name f = pure a := by
  obtain ⟨s, hs, hv⟩ := h.find?_eq_some hname
  rw [Fields.require, hs, pure_bind]
  exact hf s hv

theorem optional {v : Value} {a default : α} (h : ShowsFields shows es fs)
    (hname : fs.at name = [v]) (hf : ∀ s, shows s v → f s = pure a) :
    es.optional name default f = pure a := by
  obtain ⟨s, hs, hv⟩ := h.find?_eq_some hname
  rw [Fields.optional, hs, pure_bind]
  exact hf s hv

theorem optional_of_absent {default : α} (h : ShowsFields shows es fs) (hname : fs.at name = []) :
    es.optional name default f = pure default := by
  rw [Fields.optional, h.find?_eq_none hname, pure_bind]

theorem optionalAny {vs : List Value} {as : List α} {f : σ → Decoded (List α)}
    (h : ShowsFields shows es fs)
    (hname : fs.at name = Value.Fields.at (Value.ifAny name vs) name) (hempty : vs = [] → as = [])
    (hf : ∀ s, shows s (.list vs) → f s = pure as) : es.optional name [] f = pure as := by
  by_cases hvs : vs = []
  · rw [hempty hvs]
    exact h.optional_of_absent (by rw [hname, hvs]; rfl)
  · rw [Value.Fields.at_ifAny, if_pos ⟨rfl, hvs⟩] at hname
    exact h.optional hname hf

theorem map {τ : Type} {shows' : τ → Value → Prop} (h : ShowsFields shows es fs) (g : σ → τ)
    (hg : ∀ s v, shows s v → shows' (g s) v) :
    ShowsFields shows' (es.map fun e => (e.1, g e.2)) fs := by
  refine List.forall₂_map_left_iff.2 (List.Forall₂.imp ?_ h)
  rintro e f ⟨hkey, hshows⟩
  exact ⟨hkey, hg _ _ hshows⟩

end ShowsFields

/-- What a format owes to its readers: `shows s v` says that `v` was written at `s`. Of tags it is
enough that they are found where they come first. -/
structure Source.Faithful {σ : Type} [Source σ] (shows : σ → Value → Prop) : Prop where
  text : ∀ {s t}, shows s (.text t) → Source.text s = pure t
  bool : ∀ {s b}, shows s (.bool b) → Source.bool s = pure b
  present : ∀ {s v}, shows s v → ∃ s', Source.present? s = pure (some s') ∧ shows s' v
  items : ∀ {s vs}, shows s (.list vs) → ∃ ss, Source.items s = pure ss ∧ List.Forall₂ shows ss vs
  entries : ∀ {s fs}, shows s (.record fs) →
    ∃ es : Fields σ, Source.entries s = pure es ∧ ShowsFields shows es fs
  fields : ∀ {s fs} (names : List String), shows s (.record fs) →
    ∃ es : Fields σ, Source.fields names s = pure es ∧ ShowsFields shows es fs
  tagged : ∀ {s name tag fs}, Value.Fields.at fs name = [] →
    shows s (.record ((name, .text tag) :: fs)) →
      Source.tagged name s = pure (tag, (Value.record fs).datum)
  settle : ∀ {s v}, shows s v → Source.settle s = pure v.datum

namespace Source.Faithful

variable {σ α : Type} [Source σ] {shows : σ → Value → Prop} (h : Source.Faithful shows)
  {es : Fields σ} {fs : Value.Fields} {name : String} {f : σ → Decoded α}

include h

theorem list {g : α → Value} {as : List α} {s : σ} (hs : shows s (.list (as.map g)))
    (hf : ∀ a ∈ as, ∀ s, shows s (g a) → f s = pure a) : Source.list f s = pure as := by
  obtain ⟨ss, hitems, hss⟩ := h.items hs
  rw [Source.list, hitems, pure_bind]
  clear hs hitems
  induction as generalizing ss with
  | nil =>
    rw [List.map_nil, List.forall₂_nil_right_iff] at hss
    rw [hss, List.mapM_nil]
  | cons a as ih =>
    obtain ⟨s, rest, hs, hrest, rfl⟩ := List.forall₂_cons_right_iff.1 hss
    rw [List.mapM_cons, hf a (List.mem_cons_self ..) s hs, pure_bind,
      ih (fun b hb => hf b (List.mem_cons_of_mem _ hb)) rest hrest, pure_bind]

theorem texts {ts : List String} {s : σ} (hs : shows s (.list (ts.map .text))) :
    Source.texts s = pure ts :=
  h.list hs fun _ _ _ => h.text

theorem option {g : α → Value} {o : Option α} (hes : ShowsFields shows es fs)
    (hname : fs.at name = (o.map g).toList) (hf : ∀ a ∈ o, ∀ s, shows s (g a) → f s = pure a) :
    es.option name f = pure o := by
  cases o with
  | none => exact hes.optional_of_absent hname
  | some a =>
    refine hes.optional hname fun s hs => ?_
    obtain ⟨s', hpresent, hs'⟩ := h.present hs
    rw [Source.option, hpresent, pure_bind]
    dsimp only
    rw [hf a rfl s' hs', pure_bind]

theorem optionalList {g : α → Value} {as : List α} (hes : ShowsFields shows es fs)
    (hname : fs.at name = Value.Fields.at (Value.ifAny name (as.map g)) name)
    (hf : ∀ a ∈ as, ∀ s, shows s (g a) → f s = pure a) :
    es.optional name [] (Source.list f) = pure as :=
  hes.optionalAny hname List.map_eq_nil_iff.1 fun _ hs => h.list hs hf

theorem optionText {o : Option String} (hes : ShowsFields shows es fs)
    (hname : fs.at name = (o.map .text).toList) : es.option name Source.text = pure o :=
  h.option hes hname fun _ _ _ => h.text

theorem optionalTexts {ts : List String} (hes : ShowsFields shows es fs)
    (hname : fs.at name = Value.Fields.at (Value.ifAny name (ts.map .text)) name) :
    es.optional name [] Source.texts = pure ts :=
  h.optionalList hes hname fun _ _ _ => h.text

end Source.Faithful

theorem Value.dataOf_eq (vs : List Value) : dataOf vs = vs.map datum := by
  induction vs with
  | nil => rfl
  | cons v vs ih => rw [dataOf, List.map_cons, ih]

theorem Value.dataOfFields_eq (fs : Value.Fields) :
    dataOfFields fs = fs.map fun f => (.text f.1, f.2.datum) := by
  induction fs with
  | nil => rfl
  | cons f fs ih =>
    obtain ⟨k, v⟩ := f
    rw [dataOfFields, List.map_cons, ih]

namespace Datum

variable {α : Type} (part : Datum → α)

def written (fs : Value.Fields) : List (Datum × α) := fs.map fun f => (.text f.1, part f.2.datum)

def ShowsPart (p : α) (v : Value) : Prop := p = part v.datum

theorem keyed_written (names : List String) (fs : Value.Fields) :
    ∃ es, keyed names (written part fs) = pure es ∧ ShowsFields (ShowsPart part) es fs := by
  induction fs with
  | nil => exact ⟨[], rfl, .nil⟩
  | cons f fs ih =>
    obtain ⟨es, hes, hshows⟩ := ih
    refine ⟨(f.1, part f.2.datum) :: es, ?_, .cons ⟨rfl, rfl⟩ hshows⟩
    rw [written, List.map_cons, keyed]
    rw [written] at hes
    simp only [asKey, pure_bind, hes, Option.elim_some]

theorem extract_written {name : String} {v : Value} {fs : Value.Fields} (h : fs.at name = []) :
    extract name (written part ((name, v) :: fs)) = pure (part v.datum, written part fs) := by
  have hothers : ∀ e ∈ written part fs, e.1.isKey name = false := by
    intro e he
    obtain ⟨f, hf, rfl⟩ := List.mem_map.1 he
    simpa [isKey] using Value.Fields.ne_of_at_eq_nil h hf
  have hfound : (written part ((name, v) :: fs)).filter (·.1.isKey name) =
      [(.text name, part v.datum)] := by
    rw [written, List.map_cons, List.filter_cons_of_pos (by simp [isKey]), ← written,
      List.filter_eq_nil_iff.2 fun e he => by simp [hothers e he]]
  have hrest : (written part ((name, v) :: fs)).filter (fun e => !e.1.isKey name) =
      written part fs := by
    rw [written, List.map_cons, List.filter_cons_of_neg (by simp [isKey]), ← written]
    exact List.filter_eq_self.2 fun e he => by simp [hothers e he]
  rw [extract, hfound, hrest]
  rfl

theorem datum_record (fs : Value.Fields) : (Value.record fs).datum = .record (written id fs) :=
  congrArg Datum.record (Value.dataOfFields_eq fs)

/-- Settled data are faithful to what was written. -/
theorem faithful : Source.Faithful (ShowsPart id) where
  text := by
    rintro _ t rfl
    rfl
  bool := by
    rintro _ b rfl
    rfl
  present := by
    rintro _ v rfl
    refine ⟨v.datum, ?_, rfl⟩
    cases v <;> rfl
  items := by
    rintro _ vs rfl
    refine ⟨vs.map Value.datum, ?_, ?_⟩
    · rw [← Value.dataOf_eq]
      rfl
    · exact List.forall₂_map_left_iff.2 (List.forall₂_same.2 fun v _ => rfl)
  entries := by
    rintro _ fs rfl
    rw [id, datum_record]
    exact keyed_written id [] fs
  fields := by
    rintro _ fs names rfl
    rw [id, datum_record]
    exact keyed_written id names fs
  tagged := by
    rintro _ name tag fs hname rfl
    have hextract := extract_written id (v := .text tag) hname
    rw [id, datum_record, datum_record]
    change tagged name (.record _) = _
    rw [tagged, hextract]
    rfl
  settle := by
    rintro _ v rfl
    rfl

end Datum

theorem Source.Faithful.settle_fields {σ : Type} [Source σ] {shows : σ → Value → Prop}
    (h : Source.Faithful shows) {es : Fields σ} {fs : Value.Fields}
    (hes : ShowsFields shows es fs) : ∃ ds : Fields Datum,
      es.mapM (fun e => do return (e.1, ← Source.settle e.2)) = (pure ds : Decoded _) ∧
        ShowsFields (Datum.ShowsPart id) ds fs := by
  induction hes with
  | nil => exact ⟨[], rfl, .nil⟩
  | @cons e f es fs hhead _ ih =>
    obtain ⟨hkey, hshows⟩ := hhead
    obtain ⟨ds, hds, hrest⟩ := ih
    refine ⟨(e.1, f.2.datum) :: ds, ?_, .cons ⟨hkey, rfl⟩ hrest⟩
    rw [List.mapM_cons, h.settle hshows, pure_bind, pure_bind, hds, pure_bind]

end YangApi
