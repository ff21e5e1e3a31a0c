import TensorGraph.Handle
import TensorGraph.Shape.Text

/-!
What can be wrong with a graph, an edit or a record. Each error is a cause with the values it
concerns; its wording is given once, by the `message` functions.
-/
namespace TensorGraph

/-- Why an operator has no output shape for its inputs and attributes. -/
inductive InferenceError where
  | inputCount (expected found : Nat)
  | inputCountBetween (low high found : Nat)
  | inputCountAtLeast (low found : Nat)
  | tupleInput (s : Shape)
  | dynamicInput (s : Shape)
  | typeMismatch (first other : ElementType)
  | rankMismatch (first other : Shape)
  | rankTooLow (least : Nat) (s : Shape)
  | dimensionMismatch (first other : Shape)
  | lengthMismatch (first other : Shape)
  | tooLarge (s : Shape)
  | notPermutation (permutation : List Nat) (rank : Nat)
  | severalInferred
  | missingAxis (axis : Nat)
  | invalidDimension (d : Int)
  | dimensionsOverflow (dims : List Int)
  | cannotInfer (elements : Nat) (dims : List Int)
  | cannotReshape (elements : Nat) (lens : List Nat)
  | doesNotFit (lens outLens : List Nat) (axis : Nat)
  | rankTooHigh (rank outRank : Nat)
  | notBroadcastable (lens outLens : List Nat)
  | padCount (rank found : Nat)
  | padOverflow (pads : List Nat)
  | paddingCount (axes found : Nat)
  | windowCount (axes : Nat)
  | channelMismatch (channels weights group : Nat)
  | windowOverflow
  | kernelTooLarge (kernel input : List Nat)
  | batchMismatch (inputs : List Shape)
  | innerMismatch (left right : Nat)
  | axisOutOfRange (axis rank : Nat)
  | scaleType (scale input : ElementType)
  | zeroPointType (zeroPoint input : ElementType)
  | conditionShape (s : Shape)
  | branchMismatch
  | branchCount (found : Nat)
  | bodyCount (found : Nat)
  | bodyTooShort (returned required : Nat)
  | carriedMismatch
  | tupleIndex (index size : Nat)
deriving DecidableEq, Repr

def natList (ns : List Nat) : String :=
  bracketed (ns.map toString)

def intList (ns : List Int) : String :=
  bracketed (ns.map toString)

def InferenceError.message : InferenceError → String
  | .inputCount expected found => s!"expected {expected} inputs, found {found}"
  | .inputCountBetween low high found => s!"expected {low} to {high} inputs, found {found}"
  | .inputCountAtLeast low found => s!"expected at least {low} inputs, found {found}"
  | .tupleInput s => "tuple input " ++ s.text ++ " is not supported"
  | .dynamicInput s => "dynamic input " ++ s.text ++ " is not supported"
  | .typeMismatch first other => "mismatched types " ++ first.name ++ " and " ++ other.name
  | .rankMismatch first other =>
    "mismatched ranks: " ++ braced first.text ++ " and " ++ braced other.text
  | .rankTooLow least s => s!"expected rank >= {least}, found " ++ braced s.text
  | .dimensionMismatch first other =>
    "mismatched dimensions: " ++ braced first.text ++ " and " ++ braced other.text
  | .lengthMismatch first other =>
    "mismatched lengths: " ++ braced first.text ++ " and " ++ braced other.text
  | .tooLarge s => "output " ++ braced s.text ++ " is too large"
  | .notPermutation permutation rank =>
    natList permutation ++ s!" is not a permutation of rank {rank}"
  | .severalInferred => "at most one dimension may be -1"
  | .missingAxis axis => s!"dimension {axis} copies a missing input axis"
  | .invalidDimension d => s!"invalid dimension {d}"
  | .dimensionsOverflow dims => intList dims ++ " overflows"
  | .cannotInfer elements dims => s!"cannot infer -1 for {elements} elements into " ++ intList dims
  | .cannotReshape elements lens => s!"cannot reshape {elements} elements into " ++ natList lens
  | .doesNotFit lens outLens axis =>
    "input " ++ natList lens ++ " does not fit " ++ natList outLens ++ s!" at axis {axis}"
  | .rankTooHigh rank outRank => s!"cannot broadcast rank {rank} to rank {outRank}"
  | .notBroadcastable lens outLens =>
    natList lens ++ " is not broadcastable to " ++ natList outLens
  | .padCount rank found =>
    let expected := 2 * rank
    s!"expected {expected} pads for rank {rank}, found {found}"
  | .padOverflow pads => "pads " ++ natList pads ++ " overflow"
  | .paddingCount axes found =>
    let double := 2 * axes
    s!"expected {axes} or {double} padding values, found {found}"
  | .windowCount axes => s!"stride and dilation must have {axes} values"
  | .channelMismatch channels weights group =>
    s!"input channels {channels} do not match weights {weights} x group {group}"
  | .windowOverflow => "padding or dilation overflows"
  | .kernelTooLarge kernel input =>
    "kernel " ++ natList kernel ++ " does not fit padded input " ++ natList input
  | .batchMismatch inputs =>
    "batch dimensions differ: " ++ bracketed (inputs.map Shape.fieldText)
  | .innerMismatch left right => s!"inner dimensions differ: {left} vs {right}"
  | .axisOutOfRange axis rank => s!"axis {axis} out of range for rank {rank}"
  | .scaleType scale input =>
    "scale type " ++ scale.name ++ " differs from input type " ++ input.name
  | .zeroPointType zeroPoint input =>
    "zero point type " ++ zeroPoint.name ++ " differs from input type " ++ input.name
  | .conditionShape s => "condition must be a single bool, found " ++ s.text
  | .branchMismatch => "then and else branches produce different shapes"
  | .branchCount found => s!"expected 2 sub-modules, found {found}"
  | .bodyCount found => s!"expected 1 sub-module, found {found}"
  | .bodyTooShort returned required =>
    s!"body returns {returned} values but {required} are required"
  | .carriedMismatch => "loop-carried shapes differ between inputs and body outputs"
  | .tupleIndex index size => s!"index {index} out of range for tuple of {size}"

/-- Why a well-formed record describes no value. -/
inductive RecordFlaw where
  | strideCount (lens strides : Nat)
  | unexpectedLens
  | unexpectedSubShapes (t : ElementType)
  | unexpectedDynamicDims
  | emptyRange (d : DynamicDimension)
  | shapeTooLarge (s : Shape)
  | valueCount (found : Nat) (s : Shape)
  | unexpectedModules (place : Nat) (module : String)
  | undefinedInput (place : Nat) (module : String) (input : Nat)
deriving DecidableEq, Repr

def RecordFlaw.message : RecordFlaw → String
  | .strideCount lens strides => s!"shape has {lens} lens but {strides} strides"
  | .unexpectedLens => "tuple and dynamic shapes cannot carry lens"
  | .unexpectedSubShapes t => t.name ++ " shape cannot carry sub-shapes"
  | .unexpectedDynamicDims => "tuple shapes cannot carry dynamic dimensions"
  | .emptyRange d => "dynamic dimension " ++ d.text ++ " has min above max"
  | .shapeTooLarge s => "shape " ++ braced s.text ++ " is too large"
  | .valueCount found s => s!"{found} values for shape " ++ braced s.text
  | .unexpectedModules place module => s!"instruction {place} of `{module}` references sub-modules"
  | .undefinedInput place module input =>
    s!"instruction {place} of `{module}` uses record {input}, which is not defined before it"

inductive Violation where
  | liveCount (listed live : Nat)
  | notLive (i : InstructionId)
  | useBeforeDef (i input : InstructionId)
  | missingUser (input user : InstructionId)
  | foreignUser (i user : InstructionId)
  | returnNotLast (i : InstructionId)
  | inference (i : InstructionId) (operator : String) (cause : InferenceError)
  | cachedShape (i : InstructionId) (cached : Shape) (operator : String) (computed : Shape)
deriving DecidableEq, Repr

def Violation.message : Violation → String
  | .liveCount listed live => s!"order lists {listed} instructions but {live} are live"
  | .notLive i => i.text ++ " is listed but not live"
  | .useBeforeDef i input => i.text ++ " uses " ++ input.text ++ " before it is defined"
  | .missingUser input user => input.text ++ " does not list user " ++ user.text
  | .foreignUser i user => i.text ++ " lists " ++ user.text ++ " as a user but is not its input"
  | .returnNotLast i => "@return " ++ i.text ++ " is not the last instruction"
  | .inference i operator cause => i.text ++ ": " ++ operator ++ ": " ++ cause.message
  | .cachedShape i cached operator computed =>
    i.text ++ " caches " ++ braced cached.text ++ " but " ++ operator ++ " computes " ++
      braced computed.text

/-- Why an edit, a check or the loading of a record is refused. -/
inductive GraphError where
  | shape (operator : String) (cause : InferenceError)
  | unknownInstruction (i : InstructionId) (module : String)
  | stillInUse (i : InstructionId) (users : Nat)
  | useBeforeDef (i input : InstructionId)
  | cycle (i : InstructionId)
  | duplicateParameter (name : String)
  | unknownParameter (name : String)
  | misplacedReturn (module : String)
  | unknownModule (name : String)
  | moduleInUse (module user : String)
  | recursiveModule (module user : String)
  | duplicateModule (name : String)
  | invalidRecord (flaw : RecordFlaw)
  | invalid (module : String) (violation : Violation)
deriving DecidableEq, Repr

def GraphError.message : GraphError → String
  | .shape operator cause => operator ++ ": " ++ cause.message
  | .unknownInstruction i module =>
    "instruction " ++ i.text ++ s!" does not belong to module `{module}`"
  | .stillInUse i users => "cannot remove " ++ i.text ++ s!": still used by {users} instruction(s)"
  | .useBeforeDef i input => i.text ++ " uses " ++ input.text ++ " before it is defined"
  | .cycle i => "rewriting " ++ i.text ++ " would create a cycle"
  | .duplicateParameter name => s!"duplicate parameter `{name}`"
  | .unknownParameter name => s!"unknown parameter `{name}`"
  | .misplacedReturn module => s!"module `{module}`: @return must be the single final instruction"
  | .unknownModule name => s!"unknown module `{name}`"
  | .moduleInUse module user =>
    s!"module `{module}` is still referenced by an instruction in `{user}`"
  | .recursiveModule module user =>
    s!"module `{user}` cannot reference `{module}`, which already reaches it"
  | .duplicateModule name => s!"duplicate module `{name}`"
  | .invalidRecord flaw => "invalid record: " ++ flaw.message
  | .invalid module violation => s!"module `{module}` is invalid: " ++ violation.message

/-- How an operation ends without a result: it is refused, or it breaks down. -/
inductive Failure where
  | refused (error : GraphError)
  | broken (fault : Fault)
deriving DecidableEq, Repr

instance : MonadLift (Except Fault) (Except Failure) where
  monadLift
    | .ok a => .ok a
    | .error f => .error (.broken f)

instance : MonadLift (Except GraphError) (Except Failure) where
  monadLift
    | .ok a => .ok a
    | .error e => .error (.refused e)

def refuse {α : Type} (error : GraphError) : Except Failure α :=
  .error (.refused error)

end TensorGraph
