import YangApi.Json.Source
import YangApi.Proofs.Decode.Faithful

/-! JSON is a faithful format: where a text says what was written, and does not nest deeper than a
reader goes, readers find what was written. -/

namespace YangApi.Json

mutual

/-- The node says what was written, in at most `room` levels. -/
def Node.Says (room : Nat) (n : Node) : Value → Prop
  | .bool b => n = .bool b
  | .number m => ∃ x, n = .number x ∧ x.natural? = some m
  | .text t => ∃ q, n = .text q ∧ q.text? = some t
  | .list vs => ∃ inner ns, room = inner + 1 ∧ n = .list ns ∧ Node.SaysItems inner ns vs
  | .record fs => ∃ inner es, room = inner + 1 ∧ n = .record es ∧ Node.SaysFields inner es fs

def Node.SaysItems (room : Nat) (ns : List Node) : List Value → Prop
  | [] => ns = []
  | v :: vs => ∃ n rest, ns = n :: rest ∧ n.Says room v ∧ Node.SaysItems room rest vs

def Node.SaysFields (room : Nat) (es : List (Quoted × Node)) : Value.Fields → Prop
  | [] => es = []
  | (k, v) :: fs => ∃ q n rest, es = (q, n) :: rest ∧ q.text? = some k ∧ n.Says room v ∧
      Node.SaysFields room rest fs

end

theorem Quoted.read_eq {q : Quoted} {t : String} (h : q.text? = some t) : q.read = pure t := by
  rw [read, h]
  rfl

mutual

theorem Node.settle_eq : ∀ {v : Value} {room : Nat} {n : Node}, n.Says room v →
    n.settle room = pure v.datum
  | .bool b, room, n, h => by
    rw [Node.Says] at h
    rw [h, settle, Value.datum]
  | .number m, room, n, h => by
    rw [Node.Says] at h
    obtain ⟨x, rfl, hx⟩ := h
    rw [settle, Number.settle, hx, Value.datum]
  | .text t, room, n, h => by
    rw [Node.Says] at h
    obtain ⟨q, rfl, hq⟩ := h
    rw [settle, Quoted.read_eq hq, pure_bind, Value.datum]
  | .list vs, room, n, h => by
    rw [Node.Says] at h
    obtain ⟨inner, ns, rfl, rfl, hns⟩ := h
    rw [settle, Node.settleAll_eq hns, pure_bind, Value.datum]
  | .record fs, room, n, h => by
    rw [Node.Says] at h
    obtain ⟨inner, es, rfl, rfl, hes⟩ := h
    rw [settle, Node.settleFields_eq hes, pure_bind, Value.datum]

theorem Node.settleAll_eq : ∀ {vs : List Value} {room : Nat} {ns : List Node},
    Node.SaysItems room ns vs → Node.settleAll room ns = pure (Value.dataOf vs)
  | [], room, ns, h => by
    rw [Node.SaysItems] at h
    rw [h, settleAll, Value.dataOf]
  | v :: vs, room, ns, h => by
    rw [Node.SaysItems] at h
    obtain ⟨n, rest, rfl, hn, hrest⟩ := h
    rw [settleAll, Node.settle_eq hn, pure_bind, Node.settleAll_eq hrest, pure_bind, Value.dataOf]

theorem Node.settleFields_eq : ∀ {fs : Value.Fields} {room : Nat} {es : List (Quoted × Node)},
    Node.SaysFields room es fs → Node.settleFields room es = pure (Value.dataOfFields fs)
  | [], room, es, h => by
    rw [Node.SaysFields] at h
    rw [h, settleFields, Value.dataOfFields]
  | (k, v) :: fs, room, es, h => by
    rw [Node.SaysFields] at h
    obtain ⟨q, n, rest, rfl, hq, hn, hrest⟩ := h
    rw [settleFields, Quoted.read_eq hq, pure_bind, Node.settle_eq hn, pure_bind,
      Node.settleFields_eq hrest, pure_bind, Value.dataOfFields]

end

namespace Place

def Shows (p : Place) (v : Value) : Prop := p.node.Says p.room v

theorem items_shown {vs : List Value} {room : Nat} {ns : List Node}
    (h : Node.SaysItems room ns vs) : List.Forall₂ Shows (ns.map fun n => ⟨room, n⟩) vs := by
  induction vs generalizing ns with
  | nil =>
    rw [Node.SaysItems] at h
    rw [h]
    exact .nil
  | cons v vs ih =>
    rw [Node.SaysItems] at h
    obtain ⟨n, rest, rfl, hn, hrest⟩ := h
    exact .cons hn (ih hrest)

theorem fields_shown {fs : Value.Fields} {room : Nat} {es : List (Quoted × Node)}
    (h : Node.SaysFields room es fs) : ∃ ps : Fields Place,
      es.mapM (fun e => do return (← e.1.read, (⟨room, e.2⟩ : Place))) = (pure ps : Decoded _) ∧
        ShowsFields Shows ps fs := by
  induction fs generalizing es with
  | nil =>
    rw [Node.SaysFields] at h
    rw [h]
    exact ⟨[], rfl, .nil⟩
  | cons f fs ih =>
    obtain ⟨k, v⟩ := f
    rw [Node.SaysFields] at h
    obtain ⟨q, n, rest, rfl, hq, hn, hrest⟩ := h
    obtain ⟨ps, hps, hshows⟩ := ih hrest
    refine ⟨(k, ⟨room, n⟩) :: ps, ?_, .cons ⟨rfl, hn⟩ hshows⟩
    rw [List.mapM_cons, Quoted.read_eq hq, pure_bind, pure_bind, hps, pure_bind]

theorem entries_shown {p : Place} {fs : Value.Fields} (h : p.Shows (.record fs)) :
    ∃ ps : Fields Place, p.entries = pure ps ∧ ShowsFields Shows ps fs := by
  obtain ⟨room, n⟩ := p
  rw [Shows, Node.Says] at h
  obtain ⟨inner, es, rfl, rfl, hes⟩ := h
  exact fields_shown hes

theorem text_shown {p : Place} {t : String} (h : p.Shows (.text t)) : p.text = pure t := by
  obtain ⟨room, n⟩ := p
  rw [Shows, Node.Says] at h
  obtain ⟨q, rfl, hq⟩ := h
  exact Quoted.read_eq hq

theorem settle_shown {ps : Fields Place} {fs : Value.Fields} (h : ShowsFields Shows ps fs) :
    ps.mapM (fun e => do return (Datum.text e.1, ← e.2.node.settle e.2.room)) =
      (pure (Value.dataOfFields fs) : Decoded _) := by
  induction h with
  | nil => rfl
  | @cons e f ps fs hhead _ ih =>
    obtain ⟨hkey, hread⟩ := hhead
    rw [List.mapM_cons, Node.settle_eq hread, pure_bind, pure_bind, ih, pure_bind, hkey]
    rfl

/-- The tag is taken out and the other fields are settled in their order. -/
theorem tagged_shown {p : Place} {name tag : String} {fs : Value.Fields} (hname : fs.at name = [])
    (h : p.Shows (.record ((name, .text tag) :: fs))) :
    p.tagged name = pure (tag, (Value.record fs).datum) := by
  obtain ⟨ps, hps, hshows⟩ := entries_shown h
  have htag : ps.require name text = pure tag :=
    hshows.require (by simp [hname]) fun _ => text_shown
  have hrest : ShowsFields Shows (ps.filter fun e => e.1 ≠ name) fs := by
    have hfilter : ((name, Value.text tag) :: fs).filter (fun f => f.1 ≠ name) = fs := by
      rw [List.filter_cons_of_neg (by simp), List.filter_eq_self]
      intro f hf
      simpa using Value.Fields.ne_of_at_eq_nil hname hf
    have hkept := hshows.filter fun k => k ≠ name
    rwa [hfilter] at hkept
  obtain ⟨room, n⟩ := p
  rw [Shows, Node.Says] at h
  obtain ⟨inner, es, rfl, rfl, -⟩ := h
  rw [tagged]
  dsimp only
  rw [hps, pure_bind, htag, pure_bind, settle_shown hrest, pure_bind, Value.datum]

theorem faithful : Source.Faithful Shows where
  text := text_shown
  bool := by
    rintro ⟨room, n⟩ b h
    rw [Shows, Node.Says] at h
    obtain rfl := h
    rfl
  present := by
    rintro ⟨room, n⟩ v h
    refine ⟨⟨room, n⟩, ?_, h⟩
    cases n with
    | null => cases v <;> simp [Shows, Node.Says] at h
    | _ => rfl
  items := by
    rintro ⟨room, n⟩ vs h
    rw [Shows, Node.Says] at h
    obtain ⟨inner, ns, rfl, rfl, hns⟩ := h
    exact ⟨_, rfl, items_shown hns⟩
  entries := entries_shown
  fields := by
    intro p fs names h
    obtain ⟨ps, hps, hshows⟩ := entries_shown h
    obtain ⟨room, n⟩ := p
    rw [Shows, Node.Says] at h
    obtain ⟨inner, es, rfl, rfl, -⟩ := h
    exact ⟨ps, hps, hshows⟩
  tagged := tagged_shown
  settle := Node.settle_eq

end Place

end YangApi.Json
