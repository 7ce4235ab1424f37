import Savefile.Codec.Basic
import Savefile.Record.Value

/-! # Contexts and scopes

Expressions see the earlier fields of their own record and, under one name, the leading scalar
fields of the root. Nothing else of the enclosing records is visible.
-/
namespace Savefile

/-- The leading fields of a root record, as nested records see them. -/
structure Context where
  ids : List String
  values : List Value

namespace Context

/-- The first `k` fields of a record. -/
def ofSlots (type : RecordType) (slots : List Value) (k : Nat) : Context :=
  ⟨(type.fields.take k).map (·.id), slots.take k⟩

/-- The context as expressions see it. -/
def toDatum (ctx : Context) : Datum :=
  .object (collectMembers (ctx.ids.zip (Value.itemData ctx.values)))

/-- The value of the first field with the given identifier. -/
def get? (ctx : Context) (id : String) : Option Value :=
  (ctx.ids.zip ctx.values).lookup id

end Context

/-- What the expressions of a record see as its fields are read or written. -/
structure Frame where
  scope : Scope
  context : Option Context

namespace Frame

def start (context : Option Context) : Frame :=
  ⟨match context with
    | some ctx => [(Schema.rootVariable, ctx.toDatum)]
    | none => [], context⟩

/-- The frame once the leading fields of the root are known. -/
def share (fr : Frame) (ctx : Context) : Frame :=
  ⟨(Schema.rootVariable, ctx.toDatum) :: fr.scope, some ctx⟩

/-- The frame after a field. -/
def bind (fr : Frame) (id : String) (v : Value) : Frame :=
  { fr with scope := (id, v.toDatum) :: fr.scope }

/-- The frame before the field that follows `slots`, which are newest first: a record that shares
its leading fields does so when they are complete. -/
def before (fr : Frame) (after? : Option Nat) (type : RecordType) (slots : List Value) : Frame :=
  if after? = some slots.length then fr.share (.ofSlots type slots.reverse slots.length) else fr

end Frame

/-- Why a record gives no context. -/
inductive ContextError where
  /-- There is no record, or it is not one of the root's type. -/
  | notRoot (root : String)

/-- The text of the error. -/
def ContextError.message : ContextError → String
  | .notRoot root => "codec: ContextOf needs a " ++ root ++ " record"

/-- The context that a root record gives to nested records. A record of the root's name with fewer
values than form the context is a fault. -/
def Codec.contextOf (c : Codec) (r : Option Record) : Except (Stop ContextError) Context :=
  match r with
  | none => .error (.error (.notRoot c.schema.root.name))
  | some r =>
    if !c.isRoot r.type.name then .error (.error (.notRoot c.schema.root.name))
    else if r.slots.length < c.contextBoundary then .error (.fault .tooFewFields)
    else .ok (.ofSlots r.type r.slots c.contextBoundary)

end Savefile
