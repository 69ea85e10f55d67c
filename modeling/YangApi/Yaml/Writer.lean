import YangApi.Yaml.Scalar

/-! Block style YAML: two spaces a level, lists not indented below their key, no limit to the width
of a line. -/

namespace YangApi.Yaml

/-- What stands between the colon of a key in column `column` and its value, and the column that
the value starts in. -/
def place (column : Nat) : Value → List Char × Nat
  | .record (_ :: _) => ('\n' :: pad (column + 2), column + 2)
  | .list (_ :: _) => ('\n' :: pad column, column)
  | _ => ([' '], column + 2)

/-- A key in column `column` with its value, which `body` writes from the column that it is
given. -/
def field (column : Nat) (k : String) (v : Value) (body : Nat → List Char) : List Char :=
  if isSimpleKey k then
    let (lead, start) := place column v
    scalar (column + 2) k ++ ':' :: lead ++ body start
  else '?' :: ' ' :: scalarLine (column + 2) k ++ pad column ++ ':' :: ' ' :: body (column + 2)

mutual

/-- A value whose first line is started already, in column `column`. -/
def block (column : Nat) : Value → List Char
  | .bool b => if b then "true\n".toList else "false\n".toList
  | .number n => (toString n).toList ++ ['\n']
  | .text s => scalarLine column s
  | .list [] => "[]\n".toList
  | .list (v :: vs) => '-' :: ' ' :: block (column + 2) v ++ blockItems column vs
  | .record [] => "\x7b\x7d\n".toList
  | .record ((k, v) :: fs) =>
    field column k v (fun start => block start v) ++ blockFields column fs

def blockItems (column : Nat) : List Value → List Char
  | [] => []
  | v :: vs => pad column ++ '-' :: ' ' :: block (column + 2) v ++ blockItems column vs

def blockFields (column : Nat) : List (String × Value) → List Char
  | [] => []
  | (k, v) :: fs =>
    pad column ++ field column k v (fun start => block start v) ++ blockFields column fs

end

def write (v : Value) : String := String.ofList (block 0 v)

end YangApi.Yaml
