/-! Names of stored values: an instruction within its module, a module within its program. -/
namespace TensorGraph

structure InstructionId where
  index : Nat
deriving DecidableEq, Repr

/-- As listings and errors show it. -/
def InstructionId.text (i : InstructionId) : String :=
  "%" ++ toString i.index

structure ModuleId where
  index : Nat
deriving DecidableEq, Repr

def ModuleId.text (m : ModuleId) : String :=
  "[" ++ toString m.index ++ "]"

end TensorGraph
