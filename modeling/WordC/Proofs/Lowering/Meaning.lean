import Mathlib
import WordC.Proofs.SourceUnit.Storage
import WordC.Proofs.Lowering.Discipline
/-!
# What the lines of an expression compute

An expression that was read is lowered from any registers as they can be between
two expressions. A machine that runs the lines then agrees with the evaluation of
the linear form: on memory, once the written variables are stored, and on the value,
which is in a register (`SourceUnit.parse_evaluates`).
-/

namespace WordC

/-! ## Between two expressions -/

variable {W : Type} [DecidableEq W] {α β : Type}

/-- **The state between two expressions**, with a pool of 2 to 64 registers. The
registers hold copies of variables and constants only, nothing is pinned and no result
is pushed; `mem` is what memory would be with all written variables stored. -/
structure BodyState.BetweenExpressions (T : Target W) (known : Variable → Prop) (s : BodyState)
    (m : Machine W) (mem : Memory W) : Prop where
  rest : AtRest T known s.assembler.file m mem
  fresh : s.expression = {}
  min : 2 ≤ s.assembler.file.size
  max : s.assembler.file.size ≤ 64

/-- **The step succeeds** with answer `r`, and its lines take the machine from `m` to
`m'`. -/
def Carries (T : Target W) (y : Lower α) (s : BodyState) (m : Machine W) (r : α) (s' : BodyState)
    (m' : Machine W) : Prop :=
  y s = .ok r s' ∧ ∃ xs, s'.assembler.journal.toList = s.assembler.journal.toList ++ xs ∧
    Machine.run T (xs.filterMap Moment.line?) m = some m'

theorem Steps.carries {T : Target W} {y : Lower α} {f f' : RegisterFile} {e e' : ExpressionState}
    {m m' : Traced W} {r : α} (h : Steps T y f e m r f' e' m') {s : BodyState}
    (hf : s.assembler.file = f) (he : s.expression = e) :
    ∃ s', Carries T y s m.toMachine r s' m'.toMachine ∧ s'.assembler.file = f' ∧
      s'.expression = e' := by
  obtain ⟨a, xs, hrun, hfile, hjournal, hreaches⟩ := h s hf he
  exact ⟨_, ⟨hrun, xs, hjournal, hreaches.machine⟩, hfile, rfl⟩

/-- The written variables can be stored now, and memory is then `mem`. Registers keep
their words. -/
def BodyState.Settles (T : Target W) (s : BodyState) (m : Machine W) (mem : Memory W) : Prop :=
  ∃ s' m', Carries T Lower.storeWritten s m () s' m' ∧ m'.memory = mem ∧ m'.regs = m.regs

omit [DecidableEq W] in
theorem Memory.ext_read {mem mem' : Memory W} (h : ∀ s, mem.read s = mem'.read s)
    (hheap : mem.heap = mem'.heap) : mem = mem' := by
  obtain ⟨frame, file, heap⟩ := mem
  obtain ⟨frame', file', heap'⟩ := mem'
  have hframe : frame = frame' := funext fun o => h (.frame o)
  have hfile : file = file' := funext fun label => h (.global label)
  have hheap : heap = heap' := hheap
  rw [hframe, hfile, hheap]

/-- The machine as it is between two expressions, with as many words on the stack as
the file tells. -/
def Machine.traced (m : Machine W) (depth : Nat) : Traced W :=
  { m with trace := { words := List.replicate depth .spent } }

section Between

variable {T : Target W} {known : Variable → Prop} {s : BodyState} {m : Machine W} {mem : Memory W}

omit [DecidableEq W] in
theorem AtRest.rests {f : RegisterFile} (h : AtRest T known f m mem) :
    Rests T known f (m.traced f.stackDepth) mem :=
  { h with depth := List.length_replicate, waiting := rfl }

theorem BodyState.BetweenExpressions.settles (h : s.BetweenExpressions T known m mem) :
    s.Settles T m mem := by
  obtain ⟨f', m', hruns, hlinked, hregs, -, -, -, -, -, -, hclean⟩ :=
    Assemble.storeWhere_linked (h.rest.rests.linked fun _ => T.base) fun _ => true
  obtain ⟨s', hcarries, -⟩ := (Steps.lift hruns).carries rfl h.fresh
  refine ⟨s', m'.toMachine, hcarries, Memory.ext_read (fun cell => ?_) hlinked.holds.heap, hregs⟩
  refine hlinked.holds.cells cell fun i v hi hwritten => ?_
  rw [hclean i v hi rfl] at hwritten
  cases hwritten

/-- **Where the lines of an expression lead.** The step `y` succeeds from here, and its
lines take the machine to a state between two expressions again, with the effect
`mem'`. Nothing is left on the stack, and the calls that `calls` tells of are still to
come. -/
def BodyState.Leads (T : Target W) (known : Variable → Prop) (s : BodyState) (m : Machine W)
    (y : Lower α) (mem' : Memory W) (calls : List Nat) (value : α → Machine W → Prop) : Prop :=
  ∃ r s' m', Carries T y s m r s' m' ∧ s'.BetweenExpressions T known m' mem' ∧
    s'.Settles T m' mem' ∧ m'.stack = m.stack ∧ m'.calls = calls ∧ value r m'

/-- The end of an expression whose elements have been lowered. -/
theorem leads_of_ended {f : Function} {y : Lower Unit} {q : Point W} {k : Nat}
    (hs : s.BetweenExpressions T known m mem) (ha : Apart W known)
    (hsteps : Steps T y s.assembler.file {} (m.traced s.assembler.file.stackDepth) ()
      q.file q.expression q.machine)
    (hended : Ended T known s.assembler.file.stackDepth m.stack
      (List.replicate s.assembler.file.stackDepth .spent) k q)
    (hsize : q.file.size = s.assembler.file.size) :
    (s.Leads T known m (do y; Lower.finishExpression) q.evaluation.memory q.machine.calls
      fun _ _ => True) ∧
    ∃ w, q.evaluation.outcome? T = some w ∧
      s.Leads T known m (do
        y
        let r ← Lower.expressionValue f
        Lower.finishExpression
        return r) q.evaluation.memory q.machine.calls fun r m' => m'.regs r = w := by
  -- both ends leave registers at rest
  have hbetween : ∀ {s' : BodyState} {f' : RegisterFile} {m' : Traced W}, s'.assembler.file = f' →
      s'.expression = {} → Rests T known f' m' q.evaluation.memory → f'.size = q.file.size →
      s'.BetweenExpressions T known m'.toMachine q.evaluation.memory := by
    rintro s' f' m' rfl hfresh hrests hsize'
    have hpool := hsize'.trans hsize
    exact ⟨hrests.toAtRest, hfresh, hpool ▸ hs.min, hpool ▸ hs.max⟩
  constructor
  · obtain ⟨f', hfinish, hrests, hstack, -, hsize'⟩ :=
      finishExpression_linked (e := q.expression) hended.linked hended.pinned hended.waiting
    have hall : Steps T (do y; Lower.finishExpression) s.assembler.file {}
      (m.traced s.assembler.file.stackDepth) () f' {} q.machine := hsteps.bind hfinish
    obtain ⟨s', hcarries, hfile, hfresh⟩ := hall.carries rfl hs.fresh
    have hrest := hbetween hfile hfresh hrests hsize'
    exact ⟨(), s', _, hcarries, hrest, hrest.settles, hstack, rfl, trivial⟩
  · obtain ⟨r, f₁, e₁, m₁, hvalue, houtcome, hlinked, hpinned, hcoming, hsize₁, -⟩ :=
      expressionValue_ended f hended ha (hsize ▸ hs.min)
    have hcalls : m₁.calls = q.machine.calls := congrArg Prod.fst hcoming
    have hwaiting : m₁.trace.calls.waiting = [] := by
      have htrace : m₁.trace.calls = q.machine.trace.calls := congrArg Prod.snd hcoming
      rw [htrace, hended.waiting]
    obtain ⟨f', hfinish, hrests, hstack, -, hsize'⟩ :=
      finishExpression_linked (e := e₁) hlinked hpinned hwaiting
    have hall : Steps T (do
        y
        let r ← Lower.expressionValue f
        Lower.finishExpression
        return r) s.assembler.file {} (m.traced s.assembler.file.stackDepth) r f' {} m₁ :=
      hsteps.bind (hvalue.bind (hfinish.bind (Steps.pure r)))
    obtain ⟨s', hcarries, hfile, hfresh⟩ := hall.carries rfl hs.fresh
    have hrest := hbetween hfile hfresh hrests (hsize'.trans hsize₁)
    exact ⟨_, houtcome, r, s', _, hcarries, hrest, hrest.settles, hstack, hcalls, rfl⟩

end Between

namespace Lower

/-- Lowers the code of an expression for its effect, with `rest` behind it. -/
def forEffect (f : Function) (nesting : Nat) (c : Code) (rest : List Element) : Lower Unit := do
  forFirst (element f nesting) (c ++ rest) c.length
  finishExpression

/-- Lowers the code of an expression for its value, which is in the register that this answers
with. -/
def forValue (f : Function) (nesting : Nat) (c : Code) (rest : List Element) : Lower Reg := do
  forFirst (element f nesting) (c ++ rest) c.length
  let r ← expressionValue f
  finishExpression
  return r

end Lower

/-- **An expression means what its lines compute.** -/
theorem Code.IsExpression.evaluates {T : Target W} {known : Variable → Prop} {s : BodyState}
    {m : Machine W} {mem : Memory W} {nodes : Nat} {c : Code} (hc : c.IsExpression known nodes)
    (hnodes : nodes ≤ 2 ^ 32) (ha : Apart W known) (f : Function)
    (hs : s.BetweenExpressions T known m mem) {calls : List Nat}
    (hcalls : m.calls = arities c ++ calls) (nesting : Nat) {mark : Element}
    (hmark : mark.endsExpression = true) (rest : List Element) (ρ : Nat → W) :
    ∃ x w, Evaluation.run T c { results := ρ, memory := mem } = some x ∧
      x.outcome? T = some w ∧
      (s.Leads T known m (Lower.forEffect f nesting c (mark :: rest)) x.memory calls
        fun _ _ => True) ∧
      s.Leads T known m (Lower.forValue f nesting c (mark :: rest)) x.memory calls
        fun r m' => m'.regs r = w := by
  obtain ⟨e, hwf, hsize, rfl⟩ := hc
  obtain ⟨q, hq⟩ := hwf.completes f nesting rest ha (hsize.trans hnodes) hs.min hs.max
    hs.rest.rests hcalls hmark ρ
  obtain ⟨k, hended⟩ := hq.ended
  -- the expression has used up its own calls and no others
  have hleft : q.machine.calls = calls := by
    have hall : arities e.linear ++ calls = arities e.linear ++ q.machine.calls :=
      hcalls.symm.trans hq.calls
    exact (List.append_cancel_left hall).symm
  obtain ⟨heffect, w, houtcome, hvalue⟩ := leads_of_ended (f := f) hs ha hq.steps hended hq.size
  rw [hleft] at heffect hvalue
  exact ⟨q.evaluation, w, hq.run, houtcome, heffect, hvalue⟩

/-- **The expressions of a function that was read** are expressions over the variables
that it mentions. -/
theorem Program.ReadFrom.isExpression {tokens : List PlacedToken} {p : Program}
    (h : p.ReadFrom tokens) {f : Function} (hf : f ∈ p.functions) {c : Code}
    (hc : c ∈ f.expressions) : c.IsExpression f.Mentions c.nodes := by
  obtain ⟨stmts, locals, hread⟩ := h.exists_readAs hf hc
  have hplain : blockSound Code.Plain false stmts := hread.sound.mono fun _ hcode => hcode.plain
  refine (hread.isExpression hc).restrict fun v hv => .inr ?_
  rw [hread.expressions] at hc
  rw [hread.body, Option.getD_some]
  exact (mem_bodyLinear hplain rfl).2 ⟨c, hc, hv⟩

omit [DecidableEq W] in
/-- Registers that hold nothing are at rest. -/
theorem AtRest.of_unbound {T : Target W} {known : Variable → Prop} {f : RegisterFile}
    {m : Machine W} (hgeneral : ∀ i < f.size, ∃ n, f.regAt i = .general n)
    (hnames : ∀ i < f.size, ∀ j < f.size, f.regAt i = f.regAt j → i = j)
    (hnone : ∀ i, f.bindingAt i = none) (hstored : ∀ i, f.writtenAt i = false)
    (hspills : f.spills = []) (hpinned : f.pinned = []) (hbase : m.regs .ebp = T.base) :
    AtRest T known f m m.memory := by
  refine ⟨fun ρ => ?_, hpinned, hspills, by simp [hnone]⟩
  exact ⟨hgeneral, hnames, by simp [hnone], by simp [hnone], by simp [hstored], by simp [hnone],
    hbase, fun _ _ => rfl, rfl⟩

namespace BodyState

/-- The state with a pool of `count` registers that hold nothing. -/
def fresh (count : Nat) : BodyState :=
  { assembler := { file :=
    (RegisterFile.ofSize count).toOption.getD { registers := [], counts := { empty := 0 } } } }

omit [DecidableEq W] in
theorem betweenExpressions_fresh {T : Target W} {known : Variable → Prop} {m : Machine W}
    {count : Nat} (hmin : 2 ≤ count) (hmax : count ≤ 64) (hbase : m.regs .ebp = T.base) :
    (fresh count).BetweenExpressions T known m m.memory := by
  obtain ⟨pool, hpool, hsize, hgeneral, hnames⟩ := ofSize_ok hmin hmax
  have hfile : (fresh count).assembler.file = pool := by
    rw [fresh, hpool]
    rfl
  have hempty : (∀ i, pool.bindingAt i = none) ∧ (∀ i, pool.writtenAt i = false) ∧
      pool.spills = [] ∧ pool.pinned = [] := by
    rw [RegisterFile.ofSize, if_neg (by unfold minRegisters; omega)] at hpool
    cases hpool
    refine ⟨fun i => ?_, fun i => ?_, rfl, rfl⟩
    · simp [RegisterFile.bindingAt]
    · simp only [RegisterFile.writtenAt, RegisterFile.held, List.getElem?_map, Option.map_map]
      cases (List.range count)[i]? <;> rfl
  obtain ⟨hnone, hstored, hspills, hpinned⟩ := hempty
  have hrest : AtRest T known pool m m.memory :=
    AtRest.of_unbound (hsize ▸ hgeneral) (hsize ▸ hnames) hnone hstored hspills hpinned hbase
  exact ⟨hfile ▸ hrest, rfl, by rw [hfile, hsize]; exact hmin, by rw [hfile, hsize]; exact hmax⟩

end BodyState

/-- The word that the lines of a step leave in the register that it answers with. -/
def Lower.leaves? (T : Target W) (y : Lower Reg) (s : BodyState) (m : Machine W) : Option W :=
  match y s with
  | .ok r s' =>
    (Machine.run T (s'.assembler.journal.toList.filterMap Moment.line?) m).map fun m' => m'.regs r
  | .error _ _ => none

/-- Where lines lead is what they leave. -/
theorem BodyState.Leads.leaves {T : Target W} {known : Variable → Prop} {s : BodyState}
    {m : Machine W} {y : Lower Reg} {mem : Memory W} {calls : List Nat} {w : W}
    (h : s.Leads T known m y mem calls fun r m' => m'.regs r = w)
    (hs : s.assembler.journal = #[]) : y.leaves? T s m = some w := by
  obtain ⟨r, s', m', ⟨hrun, xs, hjournal, hlines⟩, -, -, -, -, hvalue⟩ := h
  rw [hs, List.nil_append] at hjournal
  rw [Lower.leaves?, hrun]
  simp only [hjournal, hlines, Option.map_some, hvalue]

namespace SourceUnit

/-- **Lowering keeps the meaning of expressions.** Take any expression `c` of a function
that was read, any machine `T` and any state between two expressions. The evaluation of
`c` succeeds, and so does lowering it, for its effect as well as for its value. The lines
then leave the memory of the evaluation, its value is in the register that is asked for,
and the state is one between two expressions again.

Results are numbered by 32 bits, so `c` has at most `2 ^ 32` nodes. Offsets have 64, and the
frame has to fit into them beside the parameters: in `wrappedText` it does not. -/
theorem parse_evaluates {tokens : List PlacedToken} {u : SourceUnit} (h : parse tokens = .ok u)
    {f : Function} (hf : f ∈ u.program.functions)
    (hfit : f.frameSize.toNat + f.parameters.length + 1 < 2 ^ 64) {c : Code}
    (hc : c ∈ f.expressions) (hshort : c.nodes ≤ 2 ^ 32) (T : Target W) {s : BodyState}
    {m : Machine W} {mem : Memory W} (hs : s.BetweenExpressions T f.Mentions m mem)
    {calls : List Nat} (hcalls : m.calls = arities c ++ calls) (nesting : Nat) {mark : Element}
    (hmark : mark.endsExpression = true) (rest : List Element) (ρ : Nat → W) :
    ∃ x w, Evaluation.run T c { results := ρ, memory := mem } = some x ∧
      x.outcome? T = some w ∧
      (s.Leads T f.Mentions m (Lower.forEffect f nesting c (mark :: rest)) x.memory calls
        fun _ _ => True) ∧
      s.Leads T f.Mentions m (Lower.forValue f nesting c (mark :: rest)) x.memory calls
        fun r m' => m'.regs r = w := by
  have hread := parse_readFrom h
  obtain ⟨locals, hlaid⟩ := hread.laidOut hf
  -- distinct variables of a function lie in distinct cells, which is what evaluation needs
  have hapart : Apart W f.Mentions := Apart.of_injective fun v w hv hw heq =>
    hlaid.storage_injective hread.globalNames hfit hv hw heq
  exact (hread.isExpression hf hc).evaluates hshort hapart f hs hcalls nesting hmark rest ρ

/-- Words as integers, and callees that answer with their first argument. -/
def integers : Target Int where
  imm := Int64.toInt
  alu
    | .add, a, b => a + b
    | .sub, a, b => a - b
    | _, a, b => if a < b then 1 else 0
  alu₁
    | .neg, a => -a
    | _, a => -a - 1
  base := 0
  callee _ args file heap := (args.headD 0, file, heap)

/-- A function that calls itself for the value it adds to a word at file scope. -/
def steppingText : String :=
  "int g; int f(int a) { return g = g + ~f(a - 1); }"

/-- The linear form of its expression. -/
def stepCode : Code :=
  [.operand (.var ⟨"a", .int, .frame 2, none⟩), .operand (.constant (.int 1)), .operator .minus,
    .operand (.parameter 0), .operand (.intermediate 0), .operator .argument,
    .operand (.result ⟨"f", 1⟩), .operand (.intermediate 0), .operator .bitwiseNot,
    .operand (.var ⟨"g", .int, .global "g", none⟩), .operand (.intermediate 0), .operator .plus,
    .operand (.var ⟨"g", .int, .global "g", none⟩), .operand (.intermediate 0), .operator .assign]

/-- A machine on which `a` is 5 and `g` is 7, before the call. -/
def stepMachine : Machine Int where
  regs _ := 0
  stack := []
  memory := ⟨fun _ => 5, fun _ => 7, fun _ => 0⟩
  calls := [1]

/-- The call answers with 4, so the value is `7 + ~4`, with a pool of two registers. -/
theorem parse_evaluates_steppingText : ∃ tokens u, scan steppingText = .ok tokens ∧
    parse tokens = .ok u ∧ ∃ f ∈ u.program.functions, stepCode ∈ f.expressions ∧
      ∃ x, Evaluation.run integers stepCode
          { results := fun _ => 0, memory := stepMachine.memory } = some x ∧
        x.outcome? integers = some 2 ∧ x.memory.read (.global "g") = 2 ∧
        (BodyState.fresh 2).Leads integers f.Mentions stepMachine
          (Lower.forValue f 0 stepCode [.marker .expressionEnd]) x.memory []
          fun r m => m.regs r = 2 := by
  have hreads : reads steppingText (fun u => u.program.functions.any fun f =>
      f.frameSize.toNat + f.parameters.length + 1 < 2 ^ 64 && f.expressions.any (· = stepCode)) =
      true := by decide +kernel
  have hvalue : (Evaluation.run integers stepCode
      { results := fun _ => 0, memory := stepMachine.memory }).any (fun x =>
        x.outcome? integers = some 2 && x.memory.read (.global "g") = 2) = true := by decide +kernel
  obtain ⟨tokens, u, hscan, hparse, hfunctions⟩ := exists_of_reads hreads
  obtain ⟨f, hf, hexpressions⟩ := List.any_eq_true.1 hfunctions
  simp only [Bool.and_eq_true, decide_eq_true_eq, List.any_eq_true, exists_eq_right] at hexpressions
  obtain ⟨hfit, hc⟩ := hexpressions
  have hs : (BodyState.fresh 2).BetweenExpressions integers f.Mentions stepMachine
      stepMachine.memory := BodyState.betweenExpressions_fresh le_rfl (by omega) rfl
  have hcalls : stepMachine.calls = arities stepCode ++ [] := rfl
  have hmark : (Element.marker .expressionEnd).endsExpression = true := rfl
  obtain ⟨x, w, hrun, houtcome, -, hleads⟩ := parse_evaluates hparse hf hfit hc (by decide)
    integers hs hcalls 0 hmark [] fun _ => 0
  rw [hrun] at hvalue
  simp only [Option.any_some, Bool.and_eq_true, decide_eq_true_eq] at hvalue
  obtain rfl : w = 2 := Option.some.inj (houtcome.symm.trans hvalue.1)
  exact ⟨tokens, u, hscan, hparse, f, hf, hc, x, hrun, houtcome, hvalue.2, hleads⟩

/-- A frame of `2 ^ 64 - 2` words, so that the offset of `c` is that of the parameter. -/
def wrappedText : String :=
  "int f(int p) { int a[9223372036854775807]; int b[9223372036854775806]; int c;
    return (c = 5) + p; }"

/-- A machine on which the parameter is 100. -/
def wrappedMachine : Machine Int where
  regs _ := 0
  stack := []
  memory := ⟨fun offset => if offset = 2 then 100 else 0, fun _ => 0, fun _ => 0⟩
  calls := []

/-- **Without room for the frame, the value depends on the number of registers.** With 64 of
them the parameter is read, and with two the word that was stored to `c`. So there is no memory
and no value that the lines lead to with either pool. -/
theorem parse_wrappedText : ∃ tokens u, scan wrappedText = .ok tokens ∧ parse tokens = .ok u ∧
    ∃ f ∈ u.program.functions, ∃ c ∈ f.expressions, c.nodes ≤ 2 ^ 32 ∧
      wrappedMachine.calls = arities c ∧
      (∀ count, 2 ≤ count → count ≤ 64 → (BodyState.fresh count).BetweenExpressions integers
        f.Mentions wrappedMachine wrappedMachine.memory) ∧
      (Lower.forValue f 0 c [.marker .expressionEnd]).leaves? integers (.fresh 64)
        wrappedMachine = some 105 ∧
      (Lower.forValue f 0 c [.marker .expressionEnd]).leaves? integers (.fresh 2)
        wrappedMachine = some 10 ∧
      ∀ mem w, ¬ ∀ count, 2 ≤ count → count ≤ 64 → (BodyState.fresh count).Leads integers
        f.Mentions wrappedMachine (Lower.forValue f 0 c [.marker .expressionEnd]) mem []
        fun r m => m.regs r = w := by
  have hreads : reads wrappedText (fun u => u.program.functions.any fun f =>
      f.expressions.any fun c => c.nodes ≤ 2 ^ 32 && [] = arities c &&
        (Lower.forValue f 0 c [.marker .expressionEnd]).leaves? integers (.fresh 64)
          wrappedMachine = some 105 &&
        (Lower.forValue f 0 c [.marker .expressionEnd]).leaves? integers (.fresh 2)
          wrappedMachine = some 10) = true := by decide +kernel
  obtain ⟨tokens, u, hscan, hparse, hfunctions⟩ := exists_of_reads hreads
  obtain ⟨f, hf, hexpressions⟩ := List.any_eq_true.1 hfunctions
  obtain ⟨c, hc, hvalues⟩ := List.any_eq_true.1 hexpressions
  simp only [Bool.and_eq_true, decide_eq_true_eq] at hvalues
  obtain ⟨⟨⟨hshort, hcalls⟩, hmany⟩, hfew⟩ := hvalues
  refine ⟨tokens, u, hscan, hparse, f, hf, c, hc, hshort, hcalls, fun count hmin hmax =>
    BodyState.betweenExpressions_fresh hmin hmax rfl, hmany, hfew, fun mem w hleads => ?_⟩
  have hmany' := (hleads 64 (by omega) le_rfl).leaves rfl
  have hfew' := (hleads 2 le_rfl (by omega)).leaves rfl
  rw [hmany] at hmany'
  rw [hfew] at hfew'
  cases hmany'
  cases hfew'

end SourceUnit

end WordC
