import TensorGraph.Module.Basic

/-!
Listings of modules. Instructions are labelled by where they stand, so that a listing does not
depend on their numbers.
-/
namespace TensorGraph.Module

def label (m : Module) (i : InstructionId) : String :=
  match m.position? i with
  | some p => "@" ++ toString p
  | none => "<dangling " ++ i.text ++ ">"

def headText : Operator → String
  | .literal value => "@literal" ++ value.text
  | .parameter name _ => "@param:" ++ name
  | op => op.text

def lineText (m : Module) (moduleName : ModuleId → String) (i : InstructionId)
    (n : Instruction) : String :=
  let args := if n.inputs.isEmpty then ""
    else "(" ++ String.intercalate "," (n.inputs.map m.label) ++ ")"
  let subs := if n.moduleArgs.isEmpty then ""
    else ", " ++ bracketed (n.moduleArgs.map moduleName)
  "  " ++ m.label i ++ " = " ++ headText n.op ++ args ++ subs ++ " -> " ++ n.shape.text ++ "\n"

/-- One line for each instruction, with sub-modules named by `moduleName`. -/
def listingWith (m : Module) (moduleName : ModuleId → String) : String :=
  "module: \"" ++ m.name ++ "\"\n" ++
    String.join (m.order.filterMap fun i => (m.get? i).map (m.lineText moduleName i))

def listing (m : Module) : String :=
  m.listingWith ModuleId.text

end TensorGraph.Module
