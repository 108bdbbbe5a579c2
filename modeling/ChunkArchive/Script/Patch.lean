import ChunkArchive.Script.Module

/-!
# Patching variables

A variable gets another value of its kind by writing the pool slots that its components come from.
Components that come from elsewhere have to keep their value. Other variables that come from the
same slots see the change when the module is decompiled again.
-/

set_option autoImplicit false

namespace ChunkArchive

/-- The pool words to write, from component number `index` on: each component has a source, an old
and a new word. -/
def poolWrites (poolSize : Nat) : (index : Nat) → List (Option UInt32 × UInt32 × UInt32) →
    Except PatchFault (List (Nat × UInt32))
  | _, [] => .ok []
  | index, (source, old, new) :: rest => do
    let slot := source.filter fun slot => slot.toNat < poolSize
    if slot.isNone && old ≠ new then .error (.inlineLiteral index)
    let others ← poolWrites poolSize (index + 1) rest
    match slot with
    | some slot => return (slot.toNat, new) :: others
    | none => return others

/-- The pool words to write so that the variable has the new value. -/
def Variable.writes (v : Variable) (poolSize : Nat) (value : Value) :
    Except PatchFault (List (Nat × UInt32)) :=
  if v.value.kind ≠ value.kind then .error (.kindMismatch value.kind v.value.kind)
  else
    match v.value.poolWords?, value.poolWords? with
    | some old, some new =>
      if v.sources.length ≠ new.length then .error .componentCount
      else poolWrites poolSize 0 (v.sources.zip (old.zip new))
    | _, _ => .error .notInPool

namespace ScriptModule

/-- Puts `change` of a function in its place. -/
def updateFunction (m : ScriptModule) (script function : Nat) (change : Function → Function) :
    ScriptModule :=
  { m with scripts := m.scripts.modify script fun s =>
      { s with functions := s.functions.modify function change } }

def patch (m : ScriptModule) (script function : Nat) (offset : UInt32) (value : Value) :
    Except Error ScriptModule := do
  let f ← m.function script function
  let plan : Except PatchFault (List (Nat × UInt32)) :=
    match f.body.vars.find? (·.offset = offset) with
    | none => .error .noVariable
    | some v => v.writes m.pool.size value
  let writes ← plan.mapError (.notPatchable offset)
  let changed := m.updateFunction script function fun f =>
    { f with body := { f.body with vars := f.body.vars.map fun v =>
        if v.offset = offset then { v with value } else v } }
  let pool := writes.foldl (fun pool (slot, word) => pool.setIfInBounds slot word) m.pool
  return { changed with pool }

/-- Writes the pool into a data chunk. -/
def writePool (m : ScriptModule) (data : Bytes) : Except Error Bytes :=
  if data.length < ScriptData.headerLength + 4 * m.pool.size then
    .error (.format (.poolDoesNotFit data.length m.pool.size))
  else .ok (Bytes.overwrite data ScriptData.headerLength (Bytes.ofWords32 m.pool.toList))

end ScriptModule

end ChunkArchive
