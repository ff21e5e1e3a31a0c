import TensorGraph.Operator.Codec
import TensorGraph.Program.Record

/-! Records of instructions, modules and programs as documents. -/
namespace TensorGraph

namespace InstructionRecord

/-- Inputs and sub-modules are written only where there are any. -/
def toJson (r : InstructionRecord) : Json :=
  .record (
    [("op", r.op.toJson)] ++
    (if r.inputs.isEmpty then [] else [("inputs", .ofList .ofNat r.inputs)]) ++
    (if r.modules.isEmpty then [] else [("modules", .ofList .text r.modules)]))

structure Draft where
  op : Option Operator := none
  inputs : Option (List Nat) := none
  modules : Option (List String) := none

def Draft.take (d : Draft) : String × Json → Decode Draft
  | ("op", v) => do return { d with op := ← Decode.once d.op Operator.decode v }
  | ("inputs", v) => do
    return { d with inputs := ← Decode.once d.inputs (Decode.list Decode.word) v }
  | ("modules", v) => do
    return { d with modules := ← Decode.once d.modules (Decode.list Decode.text) v }
  | (_, v) => do Decode.unknown v; return d

def decode (v : Json) : Decode InstructionRecord := do
  let d ← Decode.fields ["op", "inputs", "modules"] Draft.take {} v
  return { op := ← Decode.required d.op, inputs := d.inputs.getD [], modules := d.modules.getD [] }

end InstructionRecord

namespace ModuleRecord

def toJson (r : ModuleRecord) : Json :=
  .record [("name", .text r.name),
    ("instructions", .ofList InstructionRecord.toJson r.instructions)]

structure Draft where
  name : Option String := none
  instructions : Option (List InstructionRecord) := none

def Draft.take (d : Draft) : String × Json → Decode Draft
  | ("name", v) => do return { d with name := ← Decode.once d.name Decode.text v }
  | ("instructions", v) => do
    let instructions ← Decode.once d.instructions (Decode.list InstructionRecord.decode) v
    return { d with instructions := instructions }
  | (_, v) => do Decode.unknown v; return d

def decode (v : Json) : Decode ModuleRecord := do
  let d ← Decode.fields ["name", "instructions"] Draft.take {} v
  return { name := ← Decode.required d.name, instructions := ← Decode.required d.instructions }

end ModuleRecord

namespace ProgramRecord

def toJson (r : ProgramRecord) : Json :=
  .record [("modules", .ofList ModuleRecord.toJson r.modules)]

def take (modules : Option (List ModuleRecord)) :
    String × Json → Decode (Option (List ModuleRecord))
  | ("modules", v) => Decode.once modules (Decode.list ModuleRecord.decode) v
  | (_, v) => do Decode.unknown v; return modules

def decode (v : Json) : Decode ProgramRecord := do
  let modules ← Decode.fields ["modules"] take none v
  return { modules := ← Decode.required modules }

end ProgramRecord
end TensorGraph
