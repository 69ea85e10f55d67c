import YangApi.Schema.Decode.Node
import YangApi.Schema.Module

/-! Reading modules with their groupings and procedures, and whole schema files. -/

namespace YangApi

variable {σ : Type} [Source σ]

/-- Only nodes, used groupings and presence are read where they stand; every other field is settled
first, known or not. -/
def RpcSide.decode (s : σ) : Decoded (RpcSide Declared) := do
  let fs : Fields σ ← Source.entries s
  let children ← fs.optional "children" [] (Source.list Node.decode)
  let uses ← fs.optional "uses" [] Source.texts
  let presence ← fs.optional "presence" false Source.bool
  let rest := fs.filter fun f => f.1 ∉ ["children", "uses", "presence"]
  let ds ← rest.mapM fun f => do return (f.1, ← Source.settle f.2)
  return ⟨← Declared.ofFields ds, children, uses, presence⟩

def Rpc.decode (s : σ) : Decoded (Rpc Declared) := do
  let fs : Fields σ ← Source.fields ["name", "module", "description", "input", "output"] s
  return {
    name := ← fs.require "name" Source.text
    owner := ← fs.option "module" Source.text
    description := ← fs.option "description" Source.text
    input := ← fs.option "input" RpcSide.decode
    output := ← fs.option "output" RpcSide.decode }

def Grouping.decode (s : σ) : Decoded (Grouping Declared) := do
  let fs : Fields σ ← Source.fields ["name", "description", "children", "uses"] s
  return {
    name := ← fs.require "name" Source.text
    description := ← fs.option "description" Source.text
    children := ← fs.optional "children" [] (Source.list Node.decode)
    uses := ← fs.optional "uses" [] Source.texts }

def Module.fieldNames : List String :=
  ["name", "namespace", "prefix", "revision", "description", "children", "rpcs", "groupings"]

def Module.decode (s : σ) : Decoded (Module Declared) := do
  let fs : Fields σ ← Source.fields Module.fieldNames s
  return {
    name := ← fs.require "name" Source.text
    xmlNamespace := ← fs.option "namespace" Source.text
    abbreviation := ← fs.option "prefix" Source.text
    revision := ← fs.option "revision" Source.text
    description := ← fs.option "description" Source.text
    children := ← fs.optional "children" [] (Source.list Node.decode)
    rpcs := ← fs.optional "rpcs" [] (Source.list Rpc.decode)
    groupings := ← fs.optional "groupings" [] (Source.list Grouping.decode) }

def Module.decodeAll (s : σ) : Decoded (List (Module Declared)) := do
  let fs : Fields σ ← Source.fields ["modules"] s
  fs.optional "modules" [] (Source.list Module.decode)

end YangApi
