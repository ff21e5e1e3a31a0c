import TensorGraph.Module.Text
import TensorGraph.Program.Basic

/-! Listings of programs: each module after those it refers to, and then the ones out of reach. -/
namespace TensorGraph.Program

def listing (p : Program) : String :=
  let reachable := p.reachable
  let order := reachable ++ p.ids.filter (· ∉ reachable)
  String.intercalate "\n" (order.filterMap fun m => (p.get? m).map (·.listingWith p.nameOf))

end TensorGraph.Program
