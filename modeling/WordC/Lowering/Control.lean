import WordC.Lowering.Expression
/-!
# Lowering control structures

Before a label and before a jump, written variables are stored and the
registers are forgotten, so that both ways of reaching a label agree. The step
of a counted loop is lowered behind its body.
-/

namespace WordC

namespace Lower

/-- Stores all written variables. -/
def storeWritten : Lower Unit :=
  Assemble.storeWritten

/-- Leaves the function. -/
def epilogue (f : Function) : Lower Unit := do
  Assemble.storeWrittenGlobals
  Assemble.destroyFrame
  instruction .ret [.imm (Int64.ofNat f.arity)]

/-- Lowers a return. -/
def returnStatement (f : Function) : Lower Unit := do
  modify fun s => { s with returning := false }
  if (← get).expression.hasValues then
    let r ← expressionValue f
    instruction .mov [.reg .eax, .reg r]
  finishExpression
  epilogue f
  invalidate

/-- Lowers the end of an expression. The first expression of a counted loop is
followed by the start of the loop. -/
def expressionEnd (f : Function) : Lower Unit := do
  if (← get).returning then
    returnStatement f
  else
    finishExpression
    match (← get).loopHead with
    | some { base, depth, phase := .init } =>
      modify fun s => { s with loopHead := some { base, depth, phase := .condition } }
      storeWritten
      label base.startLabel
      invalidate
    | _ => pure ()

/-- Where control goes if the condition that ends here is zero. The condition
of a counted loop is followed by its step. -/
def takeConditionTarget (f : Function) (rest : List Element) : Lower String := do
  let s ← get
  match s.loopHead, s.conditionTarget with
  | some { base, depth, phase := .condition }, _ =>
    set { s with loopHead := some { base, depth, phase := .step rest } }
    return base.endLabel
  | _, some target =>
    set { s with conditionTarget := none }
    return target
  | _, none => throw (f.unexpected Marker.zeroJump.text)

/-- Lowers the end of a condition. -/
def zeroJump (f : Function) (rest : List Element) : Lower Unit := do
  let r ← expressionValue f
  let target ← takeConditionTarget f rest
  finishExpression
  storeWritten
  instruction .jz [.reg r, .label target]
  invalidate

/-! ## Scopes -/

/-- Opens a scope inside a control structure. -/
def openInner (scope : OpenScope) : Lower Unit :=
  modify fun s => { s with depth := s.depth + 1, scopes := scope :: s.scopes }

/-- Opens a scope. -/
def openScope (f : Function) : Lower Unit := do
  let opening := (← get).opening
  modify fun s => { s with opening := none }
  match opening with
  | none => modify fun s => { s with scopes := .block :: s.scopes }
  | some .branch => openInner .branch
  | some .otherwise => openInner .otherwise
  | some (.whileLoop base depth) =>
    modify fun s => { s with loops := base.endLabel :: s.loops }
    openInner (.whileLoop base depth)
  | some .forLoop =>
    let head := (← get).loopHead
    modify fun s => { s with loopHead := none }
    match head with
    | some { base, depth, phase := .ready step } =>
      modify fun s => { s with loops := base.endLabel :: s.loops }
      openInner (.forLoop base depth step)
    | _ => throw (f.unexpected Keyword.forLoop.text)

/-- Leaves a control structure. -/
def leaveInner : Lower Unit :=
  modify fun s => { s with depth := s.depth - 1 }

/-- Ends a loop: control goes back to its start. -/
def closeLoop (base : LabelBase) (depth : Nat) : Lower Unit := do
  leaveInner
  modify fun s => { s with loops := s.loops.drop 1 }
  storeWritten
  instruction .jmp [.label base.startLabel]
  label base.endLabel
  invalidate
  modify fun s => { s with labels := s.labels.closeAt base.construct depth }

/-- Ends a chain of branches. -/
def closeChain : Lower Unit :=
  modify fun s =>
    match s.chains with
    | [] => s
    | chain :: rest =>
      { s with chains := rest, labels := s.labels.closeAt .ifChain chain.depth }

/-- The chain goes on behind the scope that ends here. -/
def chainContinues : List Element → Bool
  | .keyword .elseIf :: _ | .keyword .otherwise :: _ => true
  | _ => false

/-- Ends a branch. Control goes to the end of the chain if there are further
branches. -/
def closeBranch (f : Function) (rest : List Element) : Lower Unit := do
  leaveInner
  storeWritten
  match (← get).chains with
  | [] => throw (f.unexpected Keyword.ifThen.text)
  | chain :: chains =>
    if chainContinues rest then
      instruction .jmp [.label chain.base.endLabel]
      modify fun s => { s with chains := { chain with jumped := true } :: chains }
      label chain.skip
      invalidate
    else
      label chain.skip
      if chain.jumped then
        label chain.base.endLabel
      invalidate
      closeChain

/-- Ends the last branch of a chain. -/
def closeOtherwise (f : Function) : Lower Unit := do
  leaveInner
  storeWritten
  match (← get).chains with
  | [] => throw (f.unexpected Keyword.otherwise.text)
  | chain :: _ =>
    label chain.base.endLabel
    invalidate
    closeChain

/-- Closes a scope. The step of a counted loop is lowered by `step`. -/
def closeScope (f : Function) (step : Stretch → Lower Unit) (rest : List Element) :
    Lower Unit := do
  match (← get).scopes with
  | [] => throw (f.unexpected Marker.scopeClose.text)
  | scope :: scopes =>
    modify fun s => { s with scopes }
    match scope with
    | .block => pure ()
    | .branch => closeBranch f rest
    | .otherwise => closeOtherwise f
    | .whileLoop base depth => closeLoop base depth
    | .forLoop base depth stretch =>
      step stretch
      finishExpression
      closeLoop base depth

/-! ## Keywords -/

/-- Names a control structure at the current depth. -/
def openLabel (f : Function) (c : Construct) : Lower LabelBase := do
  let s ← get
  let (base, labels) := s.labels.openAt f.name c s.depth
  set { s with labels }
  return base

/-- Lowers a keyword. -/
def keyword (f : Function) : Keyword → Lower Unit
  | .returning => modify fun s => { s with returning := true }
  | .ifThen => do
    let base ← openLabel f .ifChain
    let chain depth : IfChain :=
      { base, depth, branches := 0, jumped := false, skip := base.skipLabel }
    modify fun s => { s with
      conditionTarget := some base.skipLabel
      chains := chain s.depth :: s.chains
      opening := some .branch }
  | .elseIf => do
    match (← get).chains with
    | [] => throw (f.unexpected Keyword.elseIf.text)
    | chain :: chains =>
      let skip := chain.base.branchSkipLabel chain.branches
      modify fun s => { s with
        conditionTarget := some skip
        chains := { chain with branches := chain.branches + 1, skip } :: chains
        opening := some .branch }
  | .otherwise => modify fun s => { s with opening := some .otherwise }
  | .whileLoop => do
    storeWritten
    invalidate
    let base ← openLabel f .whileLoop
    label base.startLabel
    modify fun s => { s with
      conditionTarget := some base.endLabel
      opening := some (.whileLoop base s.depth) }
  | .forLoop => do
    let base ← openLabel f .forLoop
    modify fun s => { s with
      loopHead := some { base, depth := s.depth, phase := .init }
      opening := some .forLoop }
  | .breakLoop => do
    match (← get).loops with
    | [] => throw (.breakOutsideLoop f.name)
    | target :: _ =>
      storeWritten
      instruction .jmp [.label target]
      invalidate

end Lower

end WordC
