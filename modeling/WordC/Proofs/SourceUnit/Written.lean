import Mathlib
import WordC.SourceUnit.Read
import WordC.Proofs.Expression.Language
import WordC.Proofs.SourceUnit.Statements
/-!
# Source units as they are written

A tree of what stands in a source unit. Its leaves are names, types, literals
and expressions, each expression with the code it is read as. A tree says which
tokens it is written with and which statements it stands for. By its trace it
also says which scopes the variables it declares belong to, and what is in scope
at each expression: `Trace` goes along the text once, from left to right, and
knows nothing of how the text is read.
-/

namespace WordC

/-- Among things of different names, the one of a name is found. -/
theorem find?_name_eq_some_iff {α : Type} {nameOf : α → String} {as : List α}
    (h : (as.map nameOf).Nodup) {name : String} {a : α} :
    as.find? (fun b => nameOf b = name) = some a ↔ a ∈ as ∧ nameOf a = name := by
  constructor
  · intro ha
    exact ⟨List.mem_of_find?_eq_some ha, by simpa using List.find?_some ha⟩
  · rintro ⟨ha, rfl⟩
    cases hfound : as.find? fun b => nameOf b = nameOf a with
    | none => simpa using List.find?_eq_none.1 hfound a ha
    | some b =>
      have hname : nameOf b = nameOf a := by simpa using List.find?_some hfound
      rw [List.inj_on_of_nodup_map h (List.mem_of_find?_eq_some hfound) ha hname]

namespace Scopes

/-- Declares variables in the innermost scope. -/
def extend (Γ : Scopes) (vs : List Variable) : Scopes :=
  match Γ.inner with
  | [] => { Γ with file := Γ.file ++ vs }
  | scope :: outer => { Γ with inner := (scope ++ vs) :: outer }

/-- The innermost scope. -/
def current (Γ : Scopes) : Scope :=
  Γ.inner.headD Γ.file

@[simp] theorem extend_nil (Γ : Scopes) : Γ.extend [] = Γ := by
  obtain ⟨file, inner⟩ := Γ
  cases inner with
  | nil => simp [extend]
  | cons scope outer => simp [extend]

@[simp] theorem extend_extend (Γ : Scopes) (vs ws : List Variable) :
    (Γ.extend vs).extend ws = Γ.extend (vs ++ ws) := by
  obtain ⟨file, inner⟩ := Γ
  cases inner with
  | nil => simp [extend]
  | cons scope outer => simp [extend]

@[simp] theorem current_extend (Γ : Scopes) (vs : List Variable) :
    (Γ.extend vs).current = Γ.current ++ vs := by
  obtain ⟨file, inner⟩ := Γ
  cases inner with
  | nil => rfl
  | cons scope outer => rfl

@[simp] theorem current_enter (Γ : Scopes) : Γ.enter.current = [] := rfl

/-- A scope that is closed again leaves nothing behind. -/
@[simp] theorem exit_extend_enter (Γ : Scopes) (vs : List Variable) :
    (Γ.enter.extend vs).exit = Γ := rfl

/-- A variable can be declared where the innermost scope has none of its name. -/
theorem declare_eq_ok {Γ Γ' : Scopes} {v : Variable} :
    Γ.declare v = .ok Γ' ↔ Γ.current.find? v.name = none ∧ Γ' = Γ.extend [v] := by
  obtain ⟨file, inner⟩ := Γ
  cases inner with
  | nil =>
    change (if (file.find? v.name).isSome then _ else _) = _ ↔ file.find? v.name = none ∧ _
    split
    · next h => simp [Option.ne_none_iff_isSome.2 h]
    · next h => simp [Option.not_isSome_iff_eq_none.1 h, extend, eq_comm]
  | cons scope outer =>
    change (if (scope.find? v.name).isSome then _ else _) = _ ↔ scope.find? v.name = none ∧ _
    split
    · next h => simp [Option.ne_none_iff_isSome.2 h]
    · next h => simp [Option.not_isSome_iff_eq_none.1 h, extend, eq_comm]

/-- A variable is found where it was declared last. -/
theorem find?_extend {Γ : Scopes} {v : Variable} (h : Γ.current.find? v.name = none) :
    (Γ.extend [v]).find? v.name = some v := by
  have hfound : ∀ scope : Scope, scope.find? v.name = none →
      Scope.find? (scope ++ [v]) v.name = some v := by
    intro scope hscope
    rw [Scope.find?, List.find?_append, ← Scope.find?, hscope]
    simp
  obtain ⟨file, inner⟩ := Γ
  cases inner with
  | nil => simp [extend, find?, hfound file h]
  | cons scope outer => simp [extend, find?, hfound scope h]

/-- No open scope has two variables of one name. -/
def Distinct (Γ : Scopes) : Prop :=
  ∀ scope ∈ Γ.inner ++ [Γ.file], (scope.map Variable.name).Nodup

@[simp] theorem distinct_enter {Γ : Scopes} : Γ.enter.Distinct ↔ Γ.Distinct := by
  simp [Distinct, enter]

theorem Distinct.current {Γ : Scopes} (h : Γ.Distinct) : (Γ.current.map Variable.name).Nodup := by
  obtain ⟨file, inner⟩ := Γ
  cases inner with
  | nil => exact h file (by simp)
  | cons scope outer => exact h scope (by simp)

theorem Distinct.extend {Γ : Scopes} (hΓ : Γ.Distinct) {v : Variable}
    (h : Γ.current.find? v.name = none) : (Γ.extend [v]).Distinct := by
  have hadded : ∀ scope : Scope, (scope.map Variable.name).Nodup → scope.find? v.name = none →
      ((scope ++ [v]).map Variable.name).Nodup := by
    intro scope hnodup hnone
    rw [List.map_append, List.nodup_append]
    refine ⟨hnodup, by simp, fun name hname name' hname' => ?_⟩
    obtain ⟨w, hw, rfl⟩ := List.mem_map.1 hname
    rw [List.map_singleton, List.mem_singleton] at hname'
    subst hname'
    simpa using List.find?_eq_none.1 hnone w hw
  obtain ⟨file, inner⟩ := Γ
  cases inner with
  | nil => exact List.forall_mem_singleton.2 (hadded file hΓ.current h)
  | cons scope outer =>
    rw [Distinct, List.cons_append, List.forall_mem_cons] at hΓ
    exact List.forall_mem_cons.2 ⟨hadded scope hΓ.1 h, hΓ.2⟩

end Scopes

/-! ## Traces -/

/-- An expression of a text, with the scopes that are open where it begins. -/
structure Site where
  scopes : Scopes
  tokens : List Token
  code : Code

/-- **The expression is resolved.** Its tokens have a tree over what is in scope, and
its code is the linear form of that tree. -/
def Site.Resolved (s : Site) : Prop :=
  ∃ e : Expr, Derives s.scopes 0 s.tokens e ∧ s.code = e.linear

/-- The calls of an expression: names and numbers of arguments. -/
def Code.calls (code : Code) : List (String × Nat) :=
  code.filterMap fun
    | .operand (.result call) => some (call.name, call.arity.toNat)
    | _ => none

/-- **What is met along a part of a text.** -/
structure Trace where
  tokens : List Token := []
  /-- The variables it adds to the scope that is open around it. -/
  declares : List Variable := []
  /-- The variables that take words of the frame, in the order of their declaration. -/
  locals : List Variable := []
  /-- Its expressions. -/
  sites : List Site := []
  /-- The scopes that are opened and closed in it, with all their variables. -/
  scopes : List Scope := []

namespace Trace

/-- Parts of a text in a row. -/
def append (t u : Trace) : Trace where
  tokens := t.tokens ++ u.tokens
  declares := t.declares ++ u.declares
  locals := t.locals ++ u.locals
  sites := t.sites ++ u.sites
  scopes := t.scopes ++ u.scopes

instance : Append Trace := ⟨append⟩

@[simp] theorem tokens_append (t u : Trace) : (t ++ u).tokens = t.tokens ++ u.tokens := rfl
@[simp] theorem declares_append (t u : Trace) : (t ++ u).declares = t.declares ++ u.declares := rfl
@[simp] theorem locals_append (t u : Trace) : (t ++ u).locals = t.locals ++ u.locals := rfl
@[simp] theorem sites_append (t u : Trace) : (t ++ u).sites = t.sites ++ u.sites := rfl
@[simp] theorem scopes_append (t u : Trace) : (t ++ u).scopes = t.scopes ++ u.scopes := rfl

/-- Tokens that neither declare nor evaluate. -/
def ofTokens (ts : List Token) : Trace :=
  { tokens := ts }

theorem append_assoc (t u w : Trace) : t ++ u ++ w = t ++ (u ++ w) := by
  change append _ _ = append _ _
  simp [append]

theorem ofTokens_append (ts us : List Token) : ofTokens (ts ++ us) = ofTokens ts ++ ofTokens us :=
  rfl

/-- A scope of its own: what is declared in it is not declared around it. -/
def enclosed (t : Trace) : Trace :=
  { t with declares := [], scopes := t.scopes ++ [t.declares] }

end Trace

namespace Written

/-! ## Trees -/

/-- An expression: its tokens, and the code they are read as. -/
structure Expression where
  tokens : List Token
  code : Code

/-- A declared name, with the offset of its words in the frame. -/
structure Declarator where
  stars : Nat
  name : String
  /-- The number of words of an array. -/
  size : Option Int64
  offset : Int64
  value : Option Expression

/-- The declared names of a declaration, of which there is at least one. -/
inductive Declarators where
  | last (d : Declarator)
  | more (d : Declarator) (rest : Declarators)

/-- The first part of the header of a counting loop. -/
inductive First where
  | declaration (base : BaseType) (names : Declarators)
  | expression (e : Option Expression)

mutual

/-- A statement. -/
inductive Statement where
  | empty
  | declaration (base : BaseType) (names : Declarators)
  | expression (e : Expression)
  | giveBack (value : Option Expression)
  | leave
  | block (inner : List Statement)
  | branch (condition : Expression) (body : Body) (other : Other)
  | loop (condition : Expression) (body : Body)
  | count (first : First) (condition step : Option Expression) (body : Body)

/-- The body of a branch or a loop. -/
inductive Body where
  | braced (inner : List Statement)
  | single (s : Statement)

/-- What follows a branch. -/
inductive Other where
  | none
  | elseIf (condition : Expression) (body : Body) (other : Other)
  | otherwise (body : Body)

end

/-! ## Traces of trees -/

def Expression.trace (Γ : Scopes) (e : Expression) : Trace :=
  { tokens := e.tokens, sites := [⟨Γ, e.tokens, e.code⟩] }

/-- An expression that may be missing. -/
def optionalTrace (Γ : Scopes) : Option Expression → Trace
  | none => {}
  | some e => e.trace Γ

/-- A condition stands in brackets. -/
def Expression.bracketed (Γ : Scopes) (e : Expression) : Trace :=
  .ofTokens [.symbol .parenOpen] ++ e.trace Γ ++ .ofTokens [.symbol .parenClose]

namespace Declarator

/-- The variable that is declared. -/
def declared (base : DataType) (d : Declarator) : Variable :=
  ⟨d.name, DataType.pointer^[d.stars] base, .frame d.offset, d.size.map Int64.toUInt64⟩

/-- The brackets of an array. -/
def sizeTokens : Option Int64 → List Token
  | none => []
  | some n => [.symbol .squareOpen, .integer n, .symbol .squareClose]

/-- The value of a name is an assignment to it, in which the name is in scope
already. -/
def valueTrace (Γ : Scopes) (d : Declarator) : Trace :=
  match d.value with
  | none => {}
  | some e =>
    { tokens := .symbol .assign :: e.tokens
      sites := [⟨Γ, .ident d.name :: .symbol .assign :: e.tokens, e.code⟩] }

def trace (base : DataType) (Γ : Scopes) (d : Declarator) : Trace :=
  .ofTokens (List.replicate d.stars (.symbol .star)) ++ .ofTokens [.ident d.name] ++
    .ofTokens (sizeTokens d.size) ++
    { declares := [d.declared base], locals := [d.declared base] } ++
    d.valueTrace (Γ.extend [d.declared base])

@[simp] theorem declares_trace (base : DataType) (Γ : Scopes) (d : Declarator) :
    (d.trace base Γ).declares = [d.declared base] := by
  obtain ⟨stars, name, size, offset, value⟩ := d
  cases value with
  | none => rfl
  | some e => rfl

end Declarator

namespace Declarators

/-- Each name is in scope of the names behind it. -/
def trace (base : DataType) : Scopes → Declarators → Trace
  | Γ, last d => d.trace base Γ ++ .ofTokens [.symbol .semicolon]
  | Γ, more d rest =>
    d.trace base Γ ++ .ofTokens [.symbol .comma] ++ rest.trace base (Γ.extend [d.declared base])

/-- The initialisers, in order. -/
def codes : Declarators → List Code
  | last d => (d.value.map (·.code)).toList
  | more d rest => (d.value.map (·.code)).toList ++ rest.codes

end Declarators

def declarationTrace (Γ : Scopes) (base : BaseType) (names : Declarators) : Trace :=
  .ofTokens [.type base] ++ names.trace base.dataType Γ

namespace First

def trace (Γ : Scopes) : First → Trace
  | declaration base names => declarationTrace Γ base names
  | expression e => optionalTrace Γ e ++ .ofTokens [.symbol .semicolon]

def codes : First → List Code
  | declaration _ names => names.codes
  | expression e => (e.map (·.code)).toList

end First

/-- The part of the header of a counting loop behind its first part. -/
def headerTrace (Γ : Scopes) (condition step : Option Expression) : Trace :=
  optionalTrace Γ condition ++ .ofTokens [.symbol .semicolon] ++ optionalTrace Γ step ++
    .ofTokens [.symbol .parenClose]

mutual

def Statement.trace (Γ : Scopes) : Statement → Trace
  | .empty => .ofTokens [.symbol .semicolon]
  | .declaration base names => declarationTrace Γ base names
  | .expression e => e.trace Γ ++ .ofTokens [.symbol .semicolon]
  | .giveBack value =>
    .ofTokens [.reserved .returnWord] ++ optionalTrace Γ value ++ .ofTokens [.symbol .semicolon]
  | .leave => .ofTokens [.reserved .breakWord] ++ .ofTokens [.symbol .semicolon]
  | .block inner => (.ofTokens [.symbol .braceOpen] ++ blockTrace Γ.enter inner).enclosed
  | .branch condition body other =>
    .ofTokens [.reserved .ifWord] ++ condition.bracketed Γ ++ body.trace Γ ++ other.trace Γ
  | .loop condition body =>
    .ofTokens [.reserved .whileWord] ++ condition.bracketed Γ ++ body.trace Γ
  | .count first condition step body =>
    -- the header has a scope of its own, and the body another one in it
    .ofTokens [.reserved .forWord] ++ .ofTokens [.symbol .parenOpen] ++
      (first.trace Γ.enter ++
        headerTrace (Γ.enter.extend (first.trace Γ.enter).declares) condition step ++
        body.trace (Γ.enter.extend (first.trace Γ.enter).declares)).enclosed

/-- A body has a scope of its own, also if it is a single statement. -/
def Body.trace (Γ : Scopes) : Body → Trace
  | .braced inner => (.ofTokens [.symbol .braceOpen] ++ blockTrace Γ.enter inner).enclosed
  | .single s => (s.trace Γ.enter).enclosed

def Other.trace (Γ : Scopes) : Other → Trace
  | .none => {}
  | .elseIf condition body other =>
    .ofTokens [.reserved .elseWord] ++ .ofTokens [.reserved .ifWord] ++ condition.bracketed Γ ++
      body.trace Γ ++ other.trace Γ
  | .otherwise body => .ofTokens [.reserved .elseWord] ++ body.trace Γ

/-- Statements up to and including a closing brace. What one of them declares is in
scope of those behind it. -/
def blockTrace (Γ : Scopes) : List Statement → Trace
  | [] => .ofTokens [.symbol .braceClose]
  | s :: rest => s.trace Γ ++ blockTrace (Γ.extend (s.trace Γ).declares) rest

end

/-- What is declared in a body stays in it. -/
@[simp] theorem Body.declares_trace (Γ : Scopes) (b : Body) : (b.trace Γ).declares = [] := by
  cases b with
  | braced inner => rfl
  | single s => rfl

/-! ## What trees stand for -/

end Written

/-- What a condition that is missing is read as. -/
def Code.one : Code :=
  [.operand (.constant (.int 1))]

namespace Written

mutual

/-- The statements that a statement of the text stands for. -/
def Statement.stmts : Statement → List Stmt
  | .empty => []
  | .declaration _ names => names.codes.map .eval
  | .expression e => [.eval e.code]
  | .giveBack value => [.ret (value.map (·.code))]
  | .leave => [.leave]
  | .block inner => [.block (blockStmts inner)]
  | .branch condition body other => [.branch condition.code body.stmts other.alternative]
  | .loop condition body => [.loop condition.code body.stmts]
  | .count first condition step body =>
    -- all initialisers but the last one come before the loop
    first.codes.dropLast.map .eval ++
      [.count first.codes.getLast? ((condition.map (·.code)).getD .one)
        (step.map (·.code)) body.stmts]

def Body.stmts : Body → List Stmt
  | .braced inner => blockStmts inner
  | .single s => s.stmts

def Other.alternative : Other → Alternative
  | .none => .none
  | .elseIf condition body other => .elseIf condition.code body.stmts other.alternative
  | .otherwise body => .otherwise body.stmts

def blockStmts : List Statement → List Stmt
  | [] => []
  | s :: rest => s.stmts ++ blockStmts rest

end

mutual

/-- A return has a value just if the function is `valued`, and only a loop is
left by a jump. -/
def Statement.Fits (valued : Bool) : (inLoop : Bool) → Statement → Prop
  | _, .giveBack value => value.isSome = valued
  | inLoop, .leave => inLoop = true
  | inLoop, .block inner => blockFits valued inLoop inner
  | inLoop, .branch _ body other => body.Fits valued inLoop ∧ other.Fits valued inLoop
  | _, .loop _ body => body.Fits valued true
  | _, .count _ _ _ body => body.Fits valued true
  | _, .empty => True
  | _, .declaration _ _ => True
  | _, .expression _ => True

def Body.Fits (valued : Bool) : (inLoop : Bool) → Body → Prop
  | inLoop, .braced inner => blockFits valued inLoop inner
  | inLoop, .single s => s.Fits valued inLoop

def Other.Fits (valued : Bool) : (inLoop : Bool) → Other → Prop
  | _, .none => True
  | inLoop, .elseIf _ body other => body.Fits valued inLoop ∧ other.Fits valued inLoop
  | inLoop, .otherwise body => body.Fits valued inLoop

def blockFits (valued : Bool) : (inLoop : Bool) → List Statement → Prop
  | _, [] => True
  | inLoop, s :: rest => s.Fits valued inLoop ∧ blockFits valued inLoop rest

end

/-! ## Source units -/

/-- A parameter, with the position of its name. -/
structure Parameter where
  base : BaseType
  stars : Nat
  name : String
  position : Position

/-- The parameters of a function. A comma may stand behind the last one. -/
inductive Parameters where
  | none
  | last (p : Parameter)
  | more (p : Parameter) (rest : Parameters)

/-- What stands between the brackets behind the name of a function. -/
inductive ParameterList where
  /-- A lone `void`. -/
  | void
  | list (ps : Parameters)

/-- The literals that a file-scope variable can begin with. -/
inductive Literal where
  | integer (n : Int64)
  | truth (b : Bool)
  | char (c : Char)

/-- The initial value of a file-scope variable. -/
structure Initial where
  negative : Bool
  literal : Literal

/-- An item of a source unit. -/
inductive Item where
  | global (base : BaseType) (stars : Nat) (name : String) (value : Option Initial)
  | prototype (base : BaseType) (stars : Nat) (name : String) (parameters : ParameterList)
  | definition (base : BaseType) (stars : Nat) (name : String) (parameters : ParameterList)
    (body : List Statement) (frameSize : UInt64)

/-- A type and a name. -/
def namedTokens (base : BaseType) (stars : Nat) (name : String) : List Token :=
  .type base :: (List.replicate stars (.symbol .star) ++ [.ident name])

/-- The type of a name behind stars. -/
def typeOf (base : BaseType) (stars : Nat) : DataType :=
  DataType.pointer^[stars] base.dataType

namespace Parameter

def tokens (p : Parameter) : List Token :=
  namedTokens p.base p.stars p.name

/-- The parameter that is read. -/
def read (p : Parameter) : Read.Parameter :=
  ⟨p.name, typeOf p.base p.stars, p.position⟩

end Parameter

namespace Parameters

def tokens : Parameters → List Token
  | none => []
  | last p => p.tokens
  | more p rest => p.tokens ++ .symbol .comma :: rest.tokens

def read : Parameters → List Read.Parameter
  | none => []
  | last p => [p.read]
  | more p rest => p.read :: rest.read

end Parameters

namespace ParameterList

def tokens : ParameterList → List Token
  | void => [.symbol .parenOpen, .type .void, .symbol .parenClose]
  | list ps => .symbol .parenOpen :: (ps.tokens ++ [.symbol .parenClose])

def read : ParameterList → List Read.Parameter
  | void => []
  | list ps => ps.read

/-- The parameters as variables. -/
def placed (ps : ParameterList) : List Variable :=
  Read.parameterVariables ps.read.length ps.read

end ParameterList

namespace Literal

def token : Literal → Token
  | integer n => .integer n
  | truth b => .truth b
  | char c => .char c

def value : Literal → Int64
  | integer n => n
  | truth b => (Constant.bool b).value
  | char c => (Constant.char c).value

end Literal

namespace Initial

def tokens (v : Initial) : List Token :=
  (if v.negative then [.symbol .minus] else []) ++ [v.literal.token]

def value (v : Initial) : Int64 :=
  if v.negative then -v.literal.value else v.literal.value

end Initial

namespace Item

/-- The tokens of an item before its body. -/
def headTokens : Item → List Token
  | global base stars name value =>
    namedTokens base stars name ++
      (match value with
        | none => []
        | some v => .symbol .assign :: v.tokens) ++ [.symbol .semicolon]
  | prototype base stars name ps =>
    namedTokens base stars name ++ ps.tokens ++ [.symbol .semicolon]
  | definition base stars name ps _ _ =>
    namedTokens base stars name ++ ps.tokens ++ [.symbol .braceOpen]

/-- The item as it is read. -/
def read : Item → WordC.Item
  | global base stars name value =>
    .global ⟨name, typeOf base stars, (value.map Initial.value).getD 0⟩
  | prototype base stars name ps =>
    .prototype ⟨name, typeOf base stars, ps.placed, none, 0⟩
  | definition base stars name ps body frameSize =>
    .definition ⟨name, typeOf base stars, ps.placed, some (bodyLinear (blockStmts body)),
      frameSize⟩

/-- The variables at file scope that the item adds. -/
def declares : Item → List Variable
  | global base stars name _ => [⟨name, typeOf base stars, .global name, none⟩]
  | _ => []

/-- The parameters of a function and the locals of its body share one scope. Those of
a prototype have none. -/
def inside (Γ : Scopes) (i : Item) : Trace :=
  match i with
  | definition _ _ _ ps body _ =>
    .ofTokens i.headTokens ++
      ({ declares := ps.placed } ++ blockTrace (Γ.enter.extend ps.placed) body).enclosed
  | _ => .ofTokens i.headTokens

/-- What an item declares is in scope behind it. -/
def trace (Γ : Scopes) (i : Item) : Trace :=
  i.inside Γ ++ { declares := i.declares }

end Item

/-- Items in a row. What one of them declares is in scope of those behind it. -/
def unitTrace (Γ : Scopes) : List Item → Trace
  | [] => {}
  | i :: rest => i.trace Γ ++ unitTrace (Γ.extend i.declares) rest

/-- The items with the scopes that are open before each of them. -/
def unitPlaces (Γ : Scopes) : List Item → List (Scopes × Item)
  | [] => []
  | i :: rest => (Γ, i) :: unitPlaces (Γ.extend i.declares) rest

end Written

end WordC
