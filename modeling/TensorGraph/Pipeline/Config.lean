import TensorGraph.Json.Decode
import TensorGraph.Json.Writer

/-! What a pipeline is to do, as read from a configuration document. -/
namespace TensorGraph

structure Config where
  passes : List String := []
  /-- Check every module after every pass. -/
  validate : Bool := true
  /-- Report the listing of every module after every pass. -/
  trace : Bool := false
  /-- Remove dead code at the end. -/
  finalSweep : Bool := true
deriving DecidableEq, Repr

namespace Config

def toJson (c : Config) : Json :=
  .record [("passes", .ofList .text c.passes), ("validate", .bool c.validate),
    ("trace", .bool c.trace), ("final_dce", .bool c.finalSweep)]

def render (c : Config) : String :=
  c.toJson.pretty

structure Draft where
  passes : Option (List String) := none
  validate : Option Bool := none
  trace : Option Bool := none
  finalSweep : Option Bool := none

def Draft.take (d : Draft) : String × Json → Decode Draft
  | ("passes", v) => do
    return { d with passes := ← Decode.once d.passes (Decode.list Decode.text) v }
  | ("validate", v) => do return { d with validate := ← Decode.once d.validate Decode.bool v }
  | ("trace", v) => do return { d with trace := ← Decode.once d.trace Decode.bool v }
  | ("final_dce", v) => do return { d with finalSweep := ← Decode.once d.finalSweep Decode.bool v }
  | (_, v) => do Decode.unknown v; return d

/-- Fields that are left out have their defaults. -/
def decode (v : Json) : Decode Config := do
  let d ← Decode.fields ["passes", "validate", "trace", "final_dce"] Draft.take {} v
  let standard : Config := {}
  return {
    passes := d.passes.getD standard.passes
    validate := d.validate.getD standard.validate
    trace := d.trace.getD standard.trace
    finalSweep := d.finalSweep.getD standard.finalSweep }

def parse? (text : String) : Option Config :=
  (Decode.document decode text).toOption

end Config
end TensorGraph
