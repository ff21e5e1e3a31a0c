import TensorGraph.Pattern.Rule

/-! Passes: named transformations of a module. -/
namespace TensorGraph

structure Pass where
  name : String
  run : Module.Edit Bool

namespace Pass

def ofRules (name : String) (rules : List Rule) : Pass where
  name
  run := do return 0 < (← Rule.sweep rules)

/-- Redirects the users of `old` to `new` without changing the shape they see. Where only the layout
differs and `old` is row-major, a row-major copy of `new` takes its place. Tells whether there was
such a replacement. -/
def replaceKeepingShape (old new : InstructionId) : Module.Edit Bool := do
  let m ← Action.get
  let want := (← m.get old).shape
  let given := (← m.get new).shape
  if want = given then
    let _ ← Module.replaceWith old new
    return true
  else if !(← want.isStandard) then return false
  else if want.elementType ≠ given.elementType || want.lens ≠ given.lens then return false
  else
    let copy ← Module.insert old .contiguous [new]
    let _ ← Module.replaceWith old copy
    return true

end Pass
end TensorGraph
