import Mathlib
import WordC.Statement
import WordC.Lowering.Body
import WordC.Proofs.SourceUnit.Statements
import WordC.Proofs.Lowering.Elements
import WordC.Proofs.Lowering.Inner
/-!
# Lowering statements as trees

Lowering follows the flat linear form and keeps what is open in its state.
`Stmt.lower` follows the tree instead: the labels of what is open are arguments,
and the step of a counted loop stands where it is lowered. It never looks at what
is open (`Local`).
-/

namespace WordC

namespace Lower

/-! ## What statements are lowered with -/

/-- Takes up an element. -/
def takes (e : Element) : Lower Unit :=
  Assemble.record (.takes e)

/-- Lowers the elements of an expression, with the mark of its end behind it. -/
def code (f : Function) (c : Code) (mark : Marker) : Lower Unit :=
  forFirst (element f 0) (c ++ [.marker mark]) c.length

/-- Names a control structure at a depth. -/
def openAt (f : Function) (c : Construct) (depth : Nat) : Lower LabelBase := fun s =>
  .ok (s.labels.openAt f.name c depth).1 { s with labels := (s.labels.openAt f.name c depth).2 }

/-- Counts a control structure at a depth as complete. -/
def closeAt (c : Construct) (depth : Nat) : Lower Unit :=
  modify fun s => { s with labels := s.labels.closeAt c depth }

/-- Begins a chain of branches. -/
def openChain (f : Function) (depth : Nat) : Lower LabelBase := do
  takes (.keyword .ifThen)
  openAt f .ifChain depth

/-- Begins a counted loop. -/
def openFor (f : Function) (depth : Nat) : Lower LabelBase := do
  takes (.keyword .forLoop)
  openAt f .forLoop depth

/-- Begins a loop that tests its condition first. -/
def openWhile (f : Function) (depth : Nat) : Lower LabelBase := do
  takes (.keyword .whileLoop)
  storeWritten
  invalidate
  let base ← openAt f .whileLoop depth
  label base.startLabel
  return base

/-- Control goes to `target`. -/
def jump (target : String) : Lower Unit :=
  instruction .jmp [.label target]

/-- Tests a condition. Control goes to `target` if it is zero. -/
def test (f : Function) (c : Code) (target : String) : Lower Unit := do
  code f c .zeroJump
  takes (.marker .zeroJump)
  let r ← expressionValue f
  finishExpression
  storeWritten
  instruction .jz [.reg r, .label target]
  invalidate

/-- Lowers an expression for its effect. -/
def evaluate (f : Function) (c : Option Code) : Lower Unit := do
  code f (c.getD []) .expressionEnd
  takes (.marker .expressionEnd)
  finishExpression

/-- Leaves the function, with the value of the expression if it has one. -/
def leaveFunction (f : Function) : Lower Unit := do
  if (← get).expression.hasValues then
    let r ← expressionValue f
    instruction .mov [.reg .eax, .reg r]
  finishExpression
  epilogue f
  invalidate

/-- Lowers what stands in a scope. -/
def scope (inner : Lower Unit) : Lower Unit := do
  takes (.marker .scopeOpen)
  inner
  takes (.marker .scopeClose)

/-- Control goes back to the start of a loop, which ends here. -/
def repeatLoop (base : LabelBase) (depth : Nat) : Lower Unit := do
  storeWritten
  jump base.startLabel
  label base.endLabel
  invalidate
  closeAt base.construct depth

/-- Control joins here. -/
def join (name : String) : Lower Unit := do
  storeWritten
  label name
  invalidate

/-- Control leaves the innermost loop, which ends at `leave`. -/
def leaveLoop (f : Function) (leave : Option String) : Lower Unit :=
  match leave with
  | none => throw (.breakOutsideLoop f.name)
  | some target => do
    storeWritten
    jump target
    invalidate

/-- A branch has been taken, and control passes over the others. -/
def passOthers (base : LabelBase) (skip : String) : Lower Unit := do
  storeWritten
  jump base.endLabel
  label skip
  invalidate

/-- Control joins behind the last branch of a chain, also from the branches
before it if there are any. -/
def joinChain (base : LabelBase) (skip : String) (jumped : Bool) : Lower Unit := do
  label skip
  if jumped then
    label base.endLabel
  invalidate

end Lower

open Lower

mutual

/-- **Lowers a statement** at a depth of control structures. Control leaves the
innermost loop by going to `leave`. -/
def Stmt.lower (f : Function) (depth : Nat) (leave : Option String) : Stmt → Lower Unit
  | .eval c => evaluate f (some c)
  | .ret value => do
    takes (.keyword .returning)
    code f (value.getD []) .expressionEnd
    takes (.marker .expressionEnd)
    leaveFunction f
  | .leave => do
    takes (.keyword .breakLoop)
    leaveLoop f leave
  | .block body => scope (blockLower f depth leave body)
  | .branch condition body other => do
    let base ← openChain f depth
    test f condition base.skipLabel
    scope (blockLower f (depth + 1) leave body)
    other.lower f depth leave base 0 base.skipLabel
    closeAt .ifChain depth
  | .loop condition body => do
    let base ← openWhile f depth
    test f condition base.endLabel
    scope (blockLower f (depth + 1) (some base.endLabel) body)
    repeatLoop base depth
  | .count first condition step body => do
    let base ← openFor f depth
    evaluate f first
    join base.startLabel
    test f condition base.endLabel
    scope (blockLower f (depth + 1) (some base.endLabel) body)
    code f (step.getD []) .expressionEnd
    finishExpression
    repeatLoop base depth

/-- Lowers what follows a branch of a chain. Control comes to `skip` if the branch
is not taken, and `index` further branches came before. -/
def Alternative.lower (f : Function) (depth : Nat) (leave : Option String) (base : LabelBase)
    (index : Nat) (skip : String) : Alternative → Lower Unit
  | .none => do
    storeWritten
    joinChain base skip (decide (0 < index))
  | .elseIf condition body other => do
    passOthers base skip
    takes (.keyword .elseIf)
    test f condition (base.branchSkipLabel index)
    scope (blockLower f (depth + 1) leave body)
    other.lower f depth leave base (index + 1) (base.branchSkipLabel index)
  | .otherwise body => do
    passOthers base skip
    takes (.keyword .otherwise)
    scope (blockLower f (depth + 1) leave body)
    join base.endLabel

/-- Lowers statements in a row. -/
def blockLower (f : Function) (depth : Nat) (leave : Option String) : List Stmt → Lower Unit
  | [] => pure ()
  | s :: rest => do
    s.lower f depth leave
    blockLower f depth leave rest

end

/-! ## The cases of lowering -/

section Cases

variable {f : Function} {depth index : Nat} {leave : Option String} {base : LabelBase}
  {skip : String} {c : Code} {first step value : Option Code} {body : List Stmt}
  {other : Alternative}

theorem Stmt.lower_eval : (Stmt.eval c).lower f depth leave = evaluate f (some c) :=
  rfl

theorem Stmt.lower_ret : (Stmt.ret value).lower f depth leave = (do
    takes (.keyword .returning)
    code f (value.getD []) .expressionEnd
    takes (.marker .expressionEnd)
    leaveFunction f) :=
  rfl

theorem Stmt.lower_leave : Stmt.leave.lower f depth leave = (do
    takes (.keyword .breakLoop)
    leaveLoop f leave) :=
  rfl

theorem Stmt.lower_block :
    (Stmt.block body).lower f depth leave = scope (blockLower f depth leave body) :=
  rfl

theorem Stmt.lower_branch : (Stmt.branch c body other).lower f depth leave = (do
    let base ← openChain f depth
    test f c base.skipLabel
    scope (blockLower f (depth + 1) leave body)
    other.lower f depth leave base 0 base.skipLabel
    closeAt .ifChain depth) :=
  rfl

theorem Stmt.lower_loop : (Stmt.loop c body).lower f depth leave = (do
    let base ← openWhile f depth
    test f c base.endLabel
    scope (blockLower f (depth + 1) (some base.endLabel) body)
    repeatLoop base depth) :=
  rfl

theorem Stmt.lower_count : (Stmt.count first c step body).lower f depth leave = (do
    let base ← openFor f depth
    evaluate f first
    join base.startLabel
    test f c base.endLabel
    scope (blockLower f (depth + 1) (some base.endLabel) body)
    code f (step.getD []) .expressionEnd
    finishExpression
    repeatLoop base depth) :=
  rfl

theorem Alternative.lower_none : Alternative.none.lower f depth leave base index skip = (do
    storeWritten
    joinChain base skip (decide (0 < index))) :=
  rfl

theorem Alternative.lower_elseIf :
    (Alternative.elseIf c body other).lower f depth leave base index skip = (do
      passOthers base skip
      takes (.keyword .elseIf)
      test f c (base.branchSkipLabel index)
      scope (blockLower f (depth + 1) leave body)
      other.lower f depth leave base (index + 1) (base.branchSkipLabel index)) :=
  rfl

theorem Alternative.lower_otherwise :
    (Alternative.otherwise body).lower f depth leave base index skip = (do
      passOthers base skip
      takes (.keyword .otherwise)
      scope (blockLower f (depth + 1) leave body)
      join base.endLabel) :=
  rfl

theorem blockLower_cons {s : Stmt} : blockLower f depth leave (s :: body) = (do
    s.lower f depth leave
    blockLower f depth leave body) :=
  rfl

end Cases

/-- Lowers a whole body. -/
def bodyLower (f : Function) (body : List Stmt) : Lower Unit := do
  takes (.marker .functionStart)
  functionStart f
  blockLower f 0 none body
  takes (.marker .functionEnd)
  functionEnd f

/-! ## Statements leave what is open alone -/

namespace Lower

variable (f : Function)

theorem local_takes (e : Element) : Local (takes e) :=
  local_onAssembler (Assemble.record (.takes e))

theorem local_instruction (mnemonic : Mnemonic) (args : List Arg) :
    Local (instruction mnemonic args) :=
  local_onAssembler (Assemble.instruction mnemonic args)

theorem local_element (nesting : Nat) {e : Element} (he : e.inExpression = true)
    (rest : List Element) : Local (element f nesting e rest) := by
  cases e with
  | operand o =>
    rw [element_operand]
    exact (local_takes _).bind fun _ => (inner_operand o).isLocal
  | operator op =>
    rw [element_operator]
    exact (local_takes _).bind fun _ => (inner_operator f op rest).isLocal
  | _ => cases he

theorem local_forFirst {nesting : Nat} {c : Code} (hc : ∀ e ∈ c, e.inExpression = true)
    (rest : List Element) : Local (forFirst (element f nesting) (c ++ rest) c.length) := by
  induction c with
  | nil => simpa using local_pure ()
  | cons e c ih =>
    rw [List.forall_mem_cons] at hc
    exact (local_element f nesting hc.1 _).bind fun _ => ih hc.2

theorem local_code {c : Code} (hc : ∀ e ∈ c, e.inExpression = true) (mark : Marker) :
    Local (code f c mark) :=
  local_forFirst f hc _

theorem inExpression_getD {c : Option Code} (hc : ∀ code ∈ c, code.Plain) :
    ∀ e ∈ c.getD [], e.inExpression = true := by
  cases c with
  | none => nofun
  | some code => exact (hc code rfl).2

theorem local_openAt (c : Construct) (depth : Nat) : Local (openAt f c depth) :=
  local_of_ok (fun _ => rfl) (fun _ => rfl) fun _ => rfl

theorem local_closeAt (c : Construct) (depth : Nat) : Local (closeAt c depth) :=
  local_of_ok (fun _ => rfl) (fun _ => rfl) fun _ => rfl

theorem local_invalidate : Local invalidate :=
  local_onAssembler (Assemble.onFile (·.invalidate))

theorem local_label (name : String) : Local (label name) :=
  local_onAssembler (Assemble.emit (.label name))

theorem local_jump (target : String) : Local (jump target) :=
  local_instruction _ _

theorem local_storeWritten : Local storeWritten :=
  local_onAssembler _

theorem local_finishExpression : Local finishExpression :=
  inner_finishExpression.isLocal

theorem local_epilogue : Local (epilogue f) :=
  (local_onAssembler _).bind fun _ => (local_onAssembler _).bind fun _ => local_instruction _ _

/-- What follows a condition. -/
def branchOn (target : String) (r : Reg) : Lower Unit := do
  finishExpression
  storeWritten
  instruction .jz [.reg r, .label target]
  invalidate

theorem local_branchOn (target : String) (r : Reg) : Local (branchOn target r) :=
  local_finishExpression.bind fun _ => local_storeWritten.bind fun _ =>
    (local_instruction _ _).bind fun _ => local_invalidate

theorem local_test {c : Code} (hc : c.Plain) (target : String) : Local (test f c target) :=
  (local_code f hc.2 _).bind fun _ => (local_takes _).bind fun _ =>
    (inner_expressionValue f).isLocal.bind fun r => local_branchOn target r

theorem local_evaluate {c : Option Code} (hc : ∀ code ∈ c, code.Plain) : Local (evaluate f c) :=
  (local_code f (inExpression_getD hc) _).bind fun _ => (local_takes _).bind fun _ =>
    local_finishExpression

theorem local_leaveFunction : Local (leaveFunction f) := by
  have hrest : Local (do
      finishExpression
      epilogue f
      invalidate) :=
    local_finishExpression.bind fun _ => (local_epilogue f).bind fun _ => local_invalidate
  refine local_get (fun s => ?_) fun _ => rfl
  split
  · exact (inner_expressionValue f).isLocal.bind fun r => (local_instruction _ _).bind fun _ => hrest
  · exact hrest

theorem local_scope {inner : Lower Unit} (h : Local inner) : Local (scope inner) :=
  (local_takes _).bind fun _ => h.bind fun _ => local_takes _

theorem local_repeatLoop (base : LabelBase) (depth : Nat) : Local (repeatLoop base depth) :=
  local_storeWritten.bind fun _ => (local_jump _).bind fun _ => (local_label _).bind fun _ =>
    local_invalidate.bind fun _ => local_closeAt _ _

theorem local_join (name : String) : Local (join name) :=
  local_storeWritten.bind fun _ => (local_label _).bind fun _ => local_invalidate

theorem local_leaveLoop (leave : Option String) : Local (leaveLoop f leave) := by
  cases leave with
  | none => exact local_throw _
  | some target =>
    exact local_storeWritten.bind fun _ => (local_jump _).bind fun _ => local_invalidate

theorem local_openChain (depth : Nat) : Local (openChain f depth) :=
  (local_takes _).bind fun _ => local_openAt f _ _

theorem local_openFor (depth : Nat) : Local (openFor f depth) :=
  (local_takes _).bind fun _ => local_openAt f _ _

theorem local_openWhile (depth : Nat) : Local (openWhile f depth) :=
  (local_takes _).bind fun _ => local_storeWritten.bind fun _ => local_invalidate.bind fun _ =>
    (local_openAt f _ _).bind fun _ => (local_label _).bind fun _ => local_pure _

theorem local_joinChain (base : LabelBase) (skip : String) (jumped : Bool) :
    Local (joinChain base skip jumped) := by
  refine (local_label _).bind fun _ => ?_
  split
  · exact (local_label _).bind fun _ => local_invalidate
  · exact local_invalidate

theorem local_passOthers (base : LabelBase) (skip : String) : Local (passOthers base skip) :=
  local_storeWritten.bind fun _ => (local_jump _).bind fun _ => (local_label _).bind fun _ =>
    local_invalidate

end Lower

section Locality

variable {f : Function}

mutual

theorem Stmt.Sound.local_lower {inLoop : Bool} {s : Stmt} (h : s.Sound Code.Plain inLoop) (depth : Nat)
    (leave : Option String) : Local (s.lower f depth leave) :=
  match s, h with
  | .eval _, h => local_evaluate f fun _ hcode => Option.some.inj hcode ▸ h
  | .ret _, h =>
    (local_takes _).bind fun _ => (local_code f (inExpression_getD h) _).bind fun _ =>
      (local_takes _).bind fun _ => local_leaveFunction f
  | .leave, _ =>
    (local_takes _).bind fun _ => local_leaveLoop f leave
  | .block _, h => local_scope (blockSound.local_lower h depth leave)
  | .branch .., ⟨hc, hbody, hother⟩ =>
    (local_openChain f depth).bind fun _ => (local_test f hc _).bind fun _ =>
      (local_scope (hbody.local_lower _ _)).bind fun _ =>
      (hother.local_lower depth leave _ _ _).bind fun _ => local_closeAt _ _
  | .loop .., ⟨hc, hbody⟩ =>
    (local_openWhile f depth).bind fun _ => (local_test f hc _).bind fun _ =>
      (local_scope (hbody.local_lower _ _)).bind fun _ => local_repeatLoop _ _
  | .count .., ⟨hfirst, hc, hstep, hbody⟩ =>
    (local_openFor f depth).bind fun _ => (local_evaluate f hfirst).bind fun _ => (local_join _).bind fun _ =>
      (local_test f hc _).bind fun _ =>
      (local_scope (hbody.local_lower _ _)).bind fun _ =>
      (local_code f (inExpression_getD hstep) _).bind fun _ => local_finishExpression.bind fun _ =>
      local_repeatLoop _ _

theorem Alternative.Sound.local_lower {inLoop : Bool} {other : Alternative}
    (h : other.Sound Code.Plain inLoop) (depth : Nat) (leave : Option String) (base : LabelBase) (index : Nat) (skip : String) :
    Local (other.lower f depth leave base index skip) :=
  match other, h with
  | .none, _ => local_storeWritten.bind fun _ => local_joinChain _ _ _
  | .elseIf .., ⟨hc, hbody, hother⟩ =>
    (local_passOthers _ _).bind fun _ => (local_takes _).bind fun _ => (local_test f hc _).bind fun _ =>
      (local_scope (hbody.local_lower _ _)).bind fun _ => hother.local_lower depth leave _ _ _
  | .otherwise _, h =>
    (local_passOthers _ _).bind fun _ => (local_takes _).bind fun _ =>
      (local_scope (blockSound.local_lower h _ _)).bind fun _ => local_join _

theorem blockSound.local_lower {inLoop : Bool} {body : List Stmt}
    (h : blockSound Code.Plain inLoop body) (depth : Nat) (leave : Option String) : Local (blockLower f depth leave body) :=
  match body, h with
  | [], _ => local_pure ()
  | _ :: _, ⟨hs, hrest⟩ =>
    (hs.local_lower depth leave).bind fun _ => hrest.local_lower depth leave

end

end Locality

end WordC
