import YangApi.Definitions.Draft
import YangApi.Definitions.Property

/-! Definitions that share nothing: one plain model per container, list and procedure side, keyed by
its place in the data tree, with everything that was copied from groupings written out. -/

namespace YangApi.Unpacked

def key (r : Resolved) : SchemaPath := r.path

def nameOf (d : Draft) (r : Resolved) : Draft × String := d.assignPath (key r) r.name

def register (r : Resolved) (fill : Draft × Plain → Draft × Plain) (d : Draft) : Draft × String :=
  let (d, name) := nameOf d r
  let build := fun d =>
    let (d, m) := fill (d, { description := r.description })
    (d, Model.plain m)
  (d.defineOnce name build, name)

mutual

def fill (p : Parent) (acc : Draft × Plain) : Node Resolved → Draft × Plain
  | n@(.inner r shape _ cs) =>
    let (d, name) := register r (fun acc => fillAll ⟨r.owner, shape.keys⟩ acc cs) acc.1
    (d, acc.2.addChild p n (some name))
  | .choice _ ks => fillCases p acc ks
  | n => (acc.1, acc.2.addChild p n none)

def fillAll (p : Parent) (acc : Draft × Plain) : List (Node Resolved) → Draft × Plain
  | [] => acc
  | n :: ns => fillAll p (fill p acc n) ns

def fillCases (p : Parent) (acc : Draft × Plain) : Cases Resolved → Draft × Plain
  | [] => acc
  | (_, ns) :: ks => fillCases p (fillAll p acc ns) ks

end

def add (d : Draft) (i : Interior) : Draft :=
  (register i.head (fun acc => fillAll ⟨i.head.owner, i.shape.keys⟩ acc i.children) d).1

def prime (d : Draft) (m : Module Resolved) : Draft := m.primeData key d

end YangApi.Unpacked
