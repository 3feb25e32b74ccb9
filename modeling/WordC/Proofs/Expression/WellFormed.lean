import Mathlib
import WordC.Proofs.Expression.Tree
/-!
# Well-formed trees

What the grammar guarantees of a tree: its operators have the right number of
values, what stands left of `=` can be written, and its variables are visible.
`Expr.size` bounds both the linear form and the numbers in it.
-/

namespace WordC

/-- The operator takes two values to a third one, and is no assignment. -/
def Operator.joins (op : Operator) : Bool :=
  !op.isUnary && !op.isArgument && op != .assign

namespace Expr

/-- The tree yields an address to store to. -/
def isStore : Expr → Bool
  | unary .dereferenceStore _ | binary .indexStore _ _ => true
  | _ => false

/-- The tree can stand left of `=`. -/
def isPlace : Expr → Bool
  | var v => !v.isArray
  | e => e.isStore

/-- **A tree that the grammar can yield**, over the variables `known`. -/
inductive WellFormed (known : Variable → Prop) : Expr → Prop where
  | var {v} : known v → WellFormed known (.var v)
  | constant {c} : WellFormed known (.constant c)
  | unary {op a} : op.isUnary = true → WellFormed known a → WellFormed known (.unary op a)
  | binary {op a b} : op.joins = true → WellFormed known a → WellFormed known b →
      WellFormed known (.binary op a b)
  | call {name args} : (∀ a ∈ args, WellFormed known a) → WellFormed known (.call name args)
  | assign {target value} : target.isPlace = true → WellFormed known target →
      WellFormed known value → WellFormed known (.assign target value)

/-- What is known may be less than what is asked for. -/
theorem WellFormed.mono {known known' : Variable → Prop} (hle : ∀ v, known v → known' v) {e : Expr}
    (h : e.WellFormed known) : e.WellFormed known' := by
  induction h with
  | var hv => exact .var (hle _ hv)
  | constant => exact .constant
  | unary hop _ ih => exact .unary hop ih
  | binary hop _ _ iha ihb => exact .binary hop iha ihb
  | call _ ih => exact .call ih
  | assign hplace _ _ iht ihv => exact .assign hplace iht ihv

end Expr

mutual

/-- The number of nodes of a tree. -/
def Expr.size : Expr → Nat
  | .var _ | .constant _ => 1
  | .unary _ a => a.size + 1
  | .binary _ a b => a.size + b.size + 1
  | .call _ args => argumentsSize args + 1
  | .assign target value => target.size + value.size + 1

/-- The number of nodes of the arguments of a call. -/
def argumentsSize : List Expr → Nat
  | [] => 0
  | a :: rest => a.size + argumentsSize rest

end

theorem Expr.size_pos (e : Expr) : 0 < e.size := by
  cases e <;> simp [Expr.size]

theorem length_le_argumentsSize (args : List Expr) : args.length ≤ argumentsSize args := by
  induction args with
  | nil => exact Nat.le_refl 0
  | cons a args ih =>
    have := a.size_pos
    rw [List.length_cons, argumentsSize]
    omega

/-! ## The linear form -/

/-- The code of arguments, from that of each. -/
theorem length_argumentsLinear {args : List Expr}
    (h : ∀ a ∈ args, ∀ k, (a.linearAt k).length + 3 ≤ 4 * a.size) (k slot : Nat) :
    (argumentsLinear k slot args).length ≤ 4 * argumentsSize args := by
  induction args generalizing slot with
  | nil => simp [argumentsLinear]
  | cons a args ih =>
    have ha := h a List.mem_cons_self k
    have hrest := ih (fun a ha => h a (List.mem_cons_of_mem _ ha)) (slot + 1)
    simp only [argumentsLinear, argumentsSize, List.length_append, List.length_cons,
      List.length_nil]
    omega

/-- The linear form has up to four elements a node. -/
theorem Expr.WellFormed.length_linearAt {known : Variable → Prop} {e : Expr}
    (h : e.WellFormed known) (k : Nat) : (e.linearAt k).length + 3 ≤ 4 * e.size := by
  induction h generalizing k with
  | var | constant => simp [linearAt, size]
  | unary _ _ ih =>
    have := ih k
    simp only [linearAt, size, List.length_append, List.length_cons, List.length_nil]
    omega
  | @binary op a b _ _ _ iha ihb =>
    have := iha k
    have := ihb (k + a.weight)
    simp only [linearAt, size, List.length_append, List.length_cons, List.length_nil]
    omega
  | call _ ih =>
    have := length_argumentsLinear ih k 0
    simp only [linearAt, size, List.length_append, List.length_cons, List.length_nil]
    omega
  | @assign t v _ _ _ iht ihv =>
    have := iht k
    have := ihv (k + t.weight)
    simp only [linearAt, size, List.length_append, List.length_cons, List.length_nil]
    omega

/-- The element is a node of the tree. Names of results stand for nodes that come before, and
what passes an argument belongs to its call. -/
def Element.isNode : Element → Bool
  | .operand (.var _) | .operand (.constant _) | .operand (.result _) => true
  | .operator op => !op.isArgument
  | _ => false

/-- The number of nodes of the tree that a linear form has. -/
def Code.nodes (c : Code) : Nat :=
  c.countP Element.isNode

@[simp] theorem Code.nodes_append (c d : Code) : Code.nodes (c ++ d) = c.nodes + d.nodes :=
  List.countP_append

@[simp] theorem Code.nodes_cons (x : Element) (c : Code) :
    Code.nodes (x :: c) = c.nodes + if x.isNode then 1 else 0 :=
  List.countP_cons

@[simp] theorem Code.nodes_nil : Code.nodes [] = 0 := rfl

/-- The name of a value is a node just if it is a leaf. -/
@[simp] theorem Expr.isNode_operand (k : Nat) (e : Expr) :
    (Element.operand (e.operand k)).isNode = e.isLeaf := by
  cases e <;> rfl

theorem nodes_argumentsLinear {args : List Expr}
    (h : ∀ a ∈ args, ∀ k, a.size = (a.linearAt k).nodes + if a.isLeaf then 1 else 0)
    (k slot : Nat) : (argumentsLinear k slot args).nodes = argumentsSize args := by
  induction args generalizing slot with
  | nil => rfl
  | cons a args ih =>
    have ha := h a List.mem_cons_self k
    have hrest := ih (fun a ha => h a (List.mem_cons_of_mem _ ha)) (slot + 1)
    have hpass : (Element.operator .argument).isNode = false := rfl
    have hslot : (Element.operand (.parameter (UInt64.ofNat slot))).isNode = false := rfl
    simp only [argumentsLinear, argumentsSize, Code.nodes_append, Code.nodes_cons, Code.nodes_nil,
      Expr.isNode_operand, hpass, hslot, hrest, ha]
    simp

/-- The code of a tree has its nodes, but for a leaf, which has no code of its own. -/
theorem Expr.WellFormed.size_eq {known : Variable → Prop} {e : Expr} (h : e.WellFormed known)
    (k : Nat) : e.size = (e.linearAt k).nodes + if e.isLeaf then 1 else 0 := by
  induction h generalizing k with
  | var | constant => rfl
  | @unary op a hop _ ih =>
    have hnode : (Element.operator op).isNode = true := by
      cases op <;> first | rfl | cases hop
    have hleaf : (Expr.unary op a).isLeaf = false := rfl
    simp only [size, linearAt, Code.nodes_append, Code.nodes_cons, Code.nodes_nil, isNode_operand,
      hnode, hleaf, ih k]
    simp only [if_true, Bool.false_eq_true, if_false]
    omega
  | @binary op a b hop _ _ iha ihb =>
    have hnode : (Element.operator op).isNode = true := by
      cases op <;> first | rfl | cases hop
    have hleaf : (Expr.binary op a b).isLeaf = false := rfl
    simp only [size, linearAt, Code.nodes_append, Code.nodes_cons, Code.nodes_nil, isNode_operand,
      hnode, hleaf, iha k, ihb (k + a.weight)]
    simp only [if_true, Bool.false_eq_true, if_false]
    omega
  | @call name args _ ih =>
    have hnode : (Element.operand (.result ⟨name, UInt64.ofNat args.length⟩)).isNode = true := rfl
    have hleaf : (Expr.call name args).isLeaf = false := rfl
    simp only [size, linearAt, Code.nodes_append, Code.nodes_cons, Code.nodes_nil, hnode, hleaf,
      nodes_argumentsLinear ih k 0]
    simp
  | @assign a b _ _ _ iha ihb =>
    have hnode : (Element.operator .assign).isNode = true := rfl
    have hleaf : (Expr.assign a b).isLeaf = false := rfl
    simp only [size, linearAt, Code.nodes_append, Code.nodes_cons, Code.nodes_nil, isNode_operand,
      hnode, hleaf, iha k, ihb (k + a.weight)]
    simp only [if_true, Bool.false_eq_true, if_false]
    omega

/-- **The linear form of a tree has as many nodes as the tree.** -/
theorem Expr.WellFormed.nodes_linear {known : Variable → Prop} {e : Expr}
    (h : e.WellFormed known) : e.linear.nodes = e.size := by
  rw [h.size_eq 0, linear, Code.nodes_append]
  cases hleaf : e.isLeaf with
  | true => simp [hleaf]
  | false => rfl

theorem inExpression_argumentsLinear {args : List Expr}
    (h : ∀ a ∈ args, ∀ k, ∀ x ∈ a.linearAt k, x.inExpression = true) (k slot : Nat) :
    ∀ x ∈ argumentsLinear k slot args, x.inExpression = true := by
  induction args generalizing slot with
  | nil => simp [argumentsLinear]
  | cons a args ih =>
    have ha := h a List.mem_cons_self k
    have hrest := ih (fun a ha => h a (List.mem_cons_of_mem _ ha)) (slot + 1)
    simp only [argumentsLinear, List.forall_mem_append, List.forall_mem_cons]
    exact ⟨⟨ha, rfl, rfl, rfl, by simp⟩, hrest⟩

/-- The linear form has operands and operators only. -/
theorem Expr.WellFormed.inExpression {known : Variable → Prop} {e : Expr}
    (h : e.WellFormed known) (k : Nat) : ∀ x ∈ e.linearAt k, x.inExpression = true := by
  induction h generalizing k with
  | var | constant => simp [linearAt]
  | unary _ _ ih =>
    simp only [linearAt, List.forall_mem_append, List.forall_mem_cons]
    exact ⟨ih k, rfl, rfl, by simp⟩
  | binary _ _ _ iha ihb | assign _ _ _ iha ihb =>
    simp only [linearAt, List.forall_mem_append, List.forall_mem_cons]
    exact ⟨⟨iha k, ihb _⟩, rfl, rfl, rfl, by simp⟩
  | call _ ih =>
    simp only [linearAt, List.forall_mem_append, List.forall_mem_cons]
    exact ⟨inExpression_argumentsLinear ih k 0, rfl, by simp⟩

/-! ## The grammar yields well-formed trees -/

/-- The variable is visible. -/
def Scopes.Visible (scopes : Scopes) (v : Variable) : Prop :=
  ∃ name, scopes.find? name = some v

theorem Operator.joins_of_isInfix {op : Operator} (h : op.isInfix = true) : op.joins = true := by
  revert h
  cases op <;> decide

/-- What is left of `=` becomes a place that can be written. -/
theorem Expr.WellFormed.place {known : Variable → Prop} {a target : Expr}
    (h : a.WellFormed known) (hplace : a.place? = some target) :
    target.WellFormed known ∧ target.isPlace = true ∧ target.size = a.size := by
  cases h with
  | @var v hv =>
    simp only [place?] at hplace
    split at hplace
    · cases hplace
    · next harray =>
      cases hplace
      exact ⟨.var hv, by simpa [isPlace] using harray, rfl⟩
  | constant | call | assign => cases hplace
  -- of the operators, only `*` and indexing make a place
  | @unary op a hop ha =>
    cases op with
    | dereference =>
      cases hplace
      exact ⟨.unary rfl ha, rfl, rfl⟩
    | index => cases hop
    | _ => cases hplace
  | @binary op a b hop ha hb =>
    cases op with
    | index =>
      cases hplace
      exact ⟨.binary rfl ha hb, rfl, rfl⟩
    | dereference => cases hop
    | _ => cases hplace

mutual

/-- **An expression of the grammar has a well-formed tree**, with no more nodes
than it has tokens. -/
theorem Derives.wellFormed {scopes : Scopes} {p : Nat} {ts : List Token} {e : Expr} :
    Derives scopes p ts e → e.WellFormed scopes.Visible ∧ e.size ≤ ts.length
  | .var hfind => ⟨.var ⟨_, hfind⟩, by simp [Expr.size]⟩
  | .integer | .truth | .char => ⟨.constant, by simp [Expr.size]⟩
  | .group h => by
    obtain ⟨hwf, hsize⟩ := h.wellFormed
    exact ⟨hwf, by simp only [List.length_append, List.length_cons]; omega⟩
  | .callEmpty _ => ⟨.call (by simp), by simp [Expr.size, argumentsSize]⟩
  | .call _ h => by
    obtain ⟨hwf, hsize⟩ := h.wellFormed
    refine ⟨.call hwf, ?_⟩
    simp only [Expr.size, List.length_append, List.length_cons]
    omega
  | .index ha hb => by
    obtain ⟨hwfa, hsizea⟩ := ha.wellFormed
    obtain ⟨hwfb, hsizeb⟩ := hb.wellFormed
    refine ⟨.binary rfl hwfa hwfb, ?_⟩
    simp only [Expr.size, List.length_append, List.length_cons]
    omega
  | .unary ht hform h => by
    obtain ⟨hwf, hsize⟩ := h.wellFormed
    refine ⟨.unary (Operator.unaryForm_spec ht hform).1 hwf, ?_⟩
    simp only [Expr.size, List.length_cons]
    omega
  | .binary _ hop ha hb => by
    obtain ⟨hwfa, hsizea⟩ := ha.wellFormed
    obtain ⟨hwfb, hsizeb⟩ := hb.wellFormed
    refine ⟨.binary (Operator.joins_of_isInfix hop) hwfa hwfb, ?_⟩
    simp only [Expr.size, List.length_append, List.length_cons]
    omega
  | .assign ha hplace hb => by
    obtain ⟨hwfa, hsizea⟩ := ha.wellFormed
    obtain ⟨hwfb, hsizeb⟩ := hb.wellFormed
    -- the target is the place that the left side denotes, and no larger than that side
    obtain ⟨hwft, hisplace, hsize⟩ := hwfa.place hplace
    refine ⟨.assign hisplace hwft hwfb, ?_⟩
    simp only [Expr.size, List.length_append, List.length_cons]
    omega
  | .loosen h => h.wellFormed

theorem DerivesArguments.wellFormed {scopes : Scopes} {ts : List Token} {args : List Expr} :
    DerivesArguments scopes ts args →
      (∀ a ∈ args, a.WellFormed scopes.Visible) ∧ argumentsSize args ≤ ts.length
  | .one h => by
    obtain ⟨hwf, hsize⟩ := h.wellFormed
    exact ⟨by simpa using hwf, by simpa [argumentsSize] using hsize⟩
  | .more h hs => by
    obtain ⟨hwf, hsize⟩ := h.wellFormed
    obtain ⟨hwfs, hsizes⟩ := hs.wellFormed
    refine ⟨List.forall_mem_cons.2 ⟨hwf, hwfs⟩, ?_⟩
    simp only [argumentsSize, List.length_append, List.length_cons]
    omega

end

/-- The value of a tree is not the result of a call itself. -/
theorem Expr.operand_ne_result (k : Nat) (e : Expr) (c : CallRef) : e.operand k ≠ .result c := by
  cases e <;> nofun

end WordC
