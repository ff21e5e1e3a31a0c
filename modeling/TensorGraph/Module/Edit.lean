import TensorGraph.Action
import TensorGraph.Module.Basic

/-!
Edits of a module. An edit decides whether it is allowed, and then changes the module; the changes
themselves are total functions. Removing a tail and moving an instruction still look things up after
the order has been changed. An edit keeps the order topological, except for the two that move an
instruction wherever they are told.
-/
namespace TensorGraph.Module

abbrev Edit (α : Type) := Action Failure Module α

def unknown (m : Module) (i : InstructionId) : GraphError :=
  .unknownInstruction i m.name

def require (m : Module) (i : InstructionId) : Except Failure Unit :=
  if m.contains i then .ok () else refuse (m.unknown i)

def requirePosition (m : Module) (i : InstructionId) : Except Failure Nat :=
  match m.position? i with
  | some p => .ok p
  | none => refuse (m.unknown i)

/-- No other instruction than `except` is a parameter of that name. -/
def requireFreeName (m : Module) (except : Option InstructionId) (op : Operator) :
    Except Failure Unit :=
  match op with
  | .parameter name _ =>
    match m.parameter? name with
    | some p => if some p = except then .ok () else refuse (.duplicateParameter name)
    | none => .ok ()
  | _ => .ok ()

/-- Outputs are listed once and at the end, and nothing follows them. -/
def requirePlace (m : Module) (position : Nat) (op : Operator) : Except Failure Unit := do
  let atEnd := position == m.order.length
  let closed := m.output?.isSome
  match op with
  | .output => if !atEnd || closed then refuse (.misplacedReturn m.name) else return
  | .parameter .. =>
    m.requireFreeName none op
    if closed && atEnd then refuse (.misplacedReturn m.name) else return
  | _ => if closed && atEnd then refuse (.misplacedReturn m.name) else return

/-- The output shape of a new instruction at a position, if it may stand there. -/
def checkInsert (m : Module) (position : Nat) (op : Operator) (inputs : List InstructionId)
    (moduleOutputs : List (List Shape)) : Except Failure Shape := do
  m.requirePlace position op
  inputs.forM fun input => do
    if position ≤ (← m.requirePosition input) then refuse (.useBeforeDef m.nextId input) else return
  op.inferShape (← m.shapesOf inputs) moduleOutputs

def update (m : Module) (i : InstructionId) (f : Instruction → Instruction) : Module :=
  { m with instructions := m.instructions.modify i.index f }

def link (m : Module) (user : InstructionId) (inputs : List InstructionId) : Module :=
  inputs.foldl (fun m input => m.update input (·.addUser user)) m

def unlink (m : Module) (user : InstructionId) (inputs : List InstructionId) : Module :=
  inputs.foldl (fun m input => m.update input (·.removeUser user)) m

def place (m : Module) (position : Nat) (n : Instruction) : Module :=
  let i := m.nextId
  let stored := { m with instructions := m.instructions.append n }
  { stored.link i n.inputs with order := m.order.insertIdx position i }

def detach (m : Module) (i : InstructionId) : Module :=
  (m.update i fun n => { n with inputs := [] }).unlink i (m.inputsOf i)

def toEnd (m : Module) (i : InstructionId) : Module :=
  { m with order := m.order.filter (· ≠ i) ++ [i] }

def erase (m : Module) (i : InstructionId) : Module :=
  { m with order := m.order.filter (· ≠ i), instructions := m.instructions.remove i.index }

/-- Moves what uses one of `roots`, directly or not, and stands before `anchor` to just after
`anchor`, in the same order. -/
def sinkAfter (m : Module) (anchor : InstructionId) (roots : List InstructionId) : Module :=
  match m.position? anchor with
  | none => m
  | some limit =>
    let isBefore (i : InstructionId) : Bool := (m.position? i).any (· < limit)
    let moving := Reach.visit (fun i => (m.usersOf i).filter isBefore) (m.ids.filter isBefore)
      (roots.filter isBefore)
    let (moved, kept) := m.order.partition (· ∈ moving)
    let spot := match kept.idxOf? anchor with
      | some p => p + 1
      | none => kept.length
    { m with order := kept.take spot ++ moved ++ kept.drop spot }

/-- Whether one instruction stands after another; one that does not stand is before all. -/
def standsAfter (m : Module) (i j : InstructionId) : Bool :=
  match m.position? i, m.position? j with
  | some p, some q => q < p
  | some _, none => true
  | none, _ => false

def latest? (m : Module) (is : List InstructionId) : Option InstructionId :=
  is.foldl (fun best i =>
    match best with
    | none => some i
    | some b => if m.standsAfter b i then some b else some i) none

def insertAt (position : Nat) (op : Operator) (inputs : List InstructionId)
    (moduleArgs : List ModuleId) (moduleOutputs : List (List Shape)) : Edit InstructionId := do
  let m ← Action.get
  let shape ← m.checkInsert position op inputs moduleOutputs
  Action.set (m.place position { op, inputs, shape, moduleArgs, moduleOutputs })
  Action.report (.inserted m.name m.nextId position)
  return m.nextId

def add (op : Operator) (inputs : List InstructionId) : Edit InstructionId := do
  let m ← Action.get
  insertAt m.order.length op inputs [] []

/-- Adds an instruction just before another one, or at the end, with its sub-modules. -/
def insertWithModules (before : Option InstructionId) (op : Operator) (inputs : List InstructionId)
    (moduleArgs : List ModuleId) (moduleOutputs : List (List Shape)) : Edit InstructionId := do
  let m ← Action.get
  let position ← match before with
    | some i => m.requirePosition i
    | none => pure m.order.length
  insertAt position op inputs moduleArgs moduleOutputs

def insert (before : InstructionId) (op : Operator) (inputs : List InstructionId) :
    Edit InstructionId :=
  insertWithModules (some before) op inputs [] []

/-- Adds a parameter after those already there. -/
def addParameter (name : String) (shape : Shape) : Edit InstructionId := do
  let m ← Action.get
  let isParameter (i : InstructionId) : Bool := (m.get? i).any fun n => n.parameter?.isSome
  let position := m.order.length - (m.order.reverse.takeWhile fun i => !isParameter i).length
  insertAt position (.parameter name shape) [] [] []

/-- Adds a constant at the front. -/
def addLiteral (value : Literal) : Edit InstructionId := do
  let m ← Action.get
  Action.set (m.place 0 { op := .literal value, inputs := [], shape := value.shape })
  return m.nextId

def addOutput (outputs : List InstructionId) : Edit InstructionId :=
  add .output outputs

def checkReplace (m : Module) (old : InstructionId) (op : Operator) (inputs : List InstructionId) :
    Except Failure Instruction := do
  m.require old
  inputs.forM fun input => do
    m.require input
    if m.dependsOn input old then refuse (.cycle old) else return
  let n ← m.get old
  if op.isOutput != n.op.isOutput then refuse (.misplacedReturn m.name)
  else
    m.requireFreeName (some old) op
    let (moduleArgs, moduleOutputs) :=
      if op.usesModules then (n.moduleArgs, n.moduleOutputs) else ([], [])
    let shape ← op.inferShape (← m.shapesOf inputs) moduleOutputs
    return { n with op, inputs, shape, moduleArgs, moduleOutputs }

/-- Puts a new instruction in the place of an old one with the same users, and moves it and what
depends on it behind its new inputs. -/
def rewire (m : Module) (old : InstructionId) (n : Instruction) : Module :=
  let linked := (m.unlink old (m.inputsOf old)).link old n.inputs
  let rewired := linked.update old fun before => { n with users := before.users }
  match rewired.latest? n.inputs with
  | some anchor =>
    if rewired.standsAfter anchor old then rewired.sinkAfter anchor [old] else rewired
  | none => rewired

def replace (old : InstructionId) (op : Operator) (inputs : List InstructionId) :
    Edit InstructionId := do
  let m ← Action.get
  let n ← m.checkReplace old op inputs
  Action.set (m.rewire old n)
  return old

structure Redirected where
  user : InstructionId
  inputs : List InstructionId
  shape : Shape

/-- What each user of `old`, other than `new`, becomes when it uses `new` instead, if that is
allowed. -/
def checkRedirect (m : Module) (old new : InstructionId) : Except Failure (List Redirected) :=
  ((m.usersOf old).filter (· ≠ new)).mapM fun user => do
    if m.dependsOn new user then refuse (.cycle user)
    else
      let n ← m.get user
      let inputs := n.inputs.map fun i => if i = old then new else i
      let shape ← n.op.inferShape (← m.shapesOf inputs) n.moduleOutputs
      return { user, inputs, shape }

/-- Makes the users of `old` use `new`, and moves them and what depends on them behind it. -/
def redirect (m : Module) (old new : InstructionId)
    (redirected : List Redirected) : Module :=
  let m := redirected.foldl (fun m r =>
    ((m.update old (·.removeUser r.user)).update new (·.addUser r.user)).update r.user
      fun n => { n with inputs := r.inputs, shape := r.shape }) m
  let early := (redirected.map Redirected.user).filter fun user => m.standsAfter new user
  if early.isEmpty then m else m.sinkAfter new early

/-- Redirects every user of `old`, other than `new` itself, to `new`. Where `old` is the last
instruction it becomes the identity of `new`, so that the output stays in place. -/
def replaceWith (old new : InstructionId) : Edit InstructionId := do
  let m ← Action.get
  m.require old
  m.require new
  if old = new then return new
  else if (← m.get old).op.isOutput then Action.refuse (.misplacedReturn m.name)
  else if m.last? = some old then replace old .identity [new]
  else
    let redirected ← m.checkRedirect old new
    Action.set (m.redirect old new redirected)
    return new

def replaceOutput (outputs : List InstructionId) : Edit InstructionId := do
  match (← Action.get).output? with
  | some i => replace i .output outputs
  | none => addOutput outputs

def renameParameter (old new : String) : Edit Unit := do
  let m ← Action.get
  match m.parameter? old with
  | none => Action.refuse (.unknownParameter old)
  | some i =>
    if old ≠ new ∧ (m.parameter? new).isSome then Action.refuse (.duplicateParameter new)
    else Action.set (m.update i fun n =>
      match n.op with
      | .parameter _ shape => { n with op := .parameter new shape }
      | _ => n)

/-- Takes the inputs away from an instruction, whose shape stays as it is. -/
def clearInputs (i : InstructionId) : Edit Unit := do
  let m ← Action.get
  m.require i
  Action.set (m.detach i)

def remove (i : InstructionId) : Edit Unit := do
  let m ← Action.get
  m.require i
  match (m.usersOf i).length with
  | 0 => Action.set ((m.detach i).erase i)
  | users => Action.refuse (.stillInUse i users)

/-- Takes an instruction out of the storage, and out of the inputs of its users. -/
def forget (m : Module) (i : InstructionId) : Module :=
  let m := (m.usersOf i).foldl (fun m user =>
    m.update user fun n => { n with inputs := n.inputs.filter (· ≠ i) }) m
  { m with instructions := m.instructions.remove i.index }

/-- Removes everything after an instruction, and counts it. The order is cut before the inputs are
taken away one by one. -/
def removeAfter (last : InstructionId) : Edit Nat := do
  let m ← Action.get
  let position ← m.requirePosition last
  let tail := m.order.drop (position + 1)
  Action.set { m with order := m.order.take (position + 1) }
  tail.forM clearInputs
  Action.modify fun m => tail.foldl forget m
  return tail.length

/-- Moves an instruction just before another one, wherever its inputs are. It is taken out of the
order before the place of the other one is looked up. -/
def moveBefore (i before : InstructionId) : Edit Unit := do
  let m ← Action.get
  m.require i
  m.require before
  if i = before then return
  else
    let rest := { m with order := m.order.filter (· ≠ i) }
    Action.set rest
    let position ← rest.requirePosition before
    Action.set { rest with order := rest.order.insertIdx position i }

/-- Moves an instruction to the end, wherever its users are. -/
def moveToEnd (i : InstructionId) : Edit Unit := do
  let m ← Action.get
  m.require i
  Action.set (m.toEnd i)

end TensorGraph.Module
