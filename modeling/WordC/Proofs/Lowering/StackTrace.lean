import Mathlib
import WordC.Lowering.Assembler
import WordC.Proofs.Lowering.Machine
/-!
# What the pushed words are

A `StackTrace` follows a journal and says what each pushed word is: a result
that was spilled, a word that was filled from below the top, or an argument. It
fails where the lines do not keep to the stack. A fill must find the word that
was pushed for the same result, only words that were filled may be dropped, a
call must find its own arguments on top, and nothing may be left where control
joins or leaves.

Which arguments a call has is told by the elements alone: `CallTrace` numbers
the elements that pass an argument and gives each call the last ones that still
wait.
-/

namespace WordC

/-- What a pushed word is. -/
inductive Pushed where
  /-- The result that its comment names. -/
  | spill (name : List Char)
  /-- A result that was filled from below the top. -/
  | spent
  /-- What the element with a number passes to a call. -/
  | argument (element : Nat)
  deriving DecidableEq, Repr

/-- What a comment says behind its opening words. -/
def commentBehind? (opening : String) : Option String → Option (List Char)
  | some text =>
    if opening.toList.isPrefixOf text.toList then some (text.toList.drop opening.toList.length)
    else none
  | none => none

/-- The arguments of the calls, as the elements tell. -/
structure CallTrace where
  /-- The number of the current element. -/
  element : Nat := 0
  /-- The arguments of calls that are still to come, the last one first. -/
  waiting : List Nat := []
  /-- The arguments of the current call, the last one first. -/
  due : List Nat := []
  /-- How many arguments the current call has. -/
  arity : Nat := 0
  deriving DecidableEq, Repr

/-- One more element. A call takes the last arguments that wait. -/
def CallTrace.take (c : CallTrace) : Element → CallTrace
  | .operator .argument =>
    { c with element := c.element + 1, waiting := (c.element + 1) :: c.waiting }
  | .operand (.result call) =>
    { element := c.element + 1
      waiting := c.waiting.drop call.arity.toNat
      due := c.waiting.take call.arity.toNat
      arity := call.arity.toNat }
  | _ => { c with element := c.element + 1 }

/-- Only an argument waits for a call. -/
theorem CallTrace.waiting_take_operator (c : CallTrace) {op : Operator} (h : op ≠ .argument) :
    (c.take (.operator op)).waiting = c.waiting := by
  cases op <;> first | rfl | exact absurd rfl h

theorem CallTrace.waiting_take_operand (c : CallTrace) {o : Operand} (h : ∀ call, o ≠ .result call) :
    (c.take (.operand o)).waiting = c.waiting := by
  cases o <;> first | rfl | exact absurd rfl (h _)

/-- The pushed words, the top first, and the arguments of the calls. -/
structure StackTrace where
  words : List Pushed := []
  calls : CallTrace := {}
  deriving DecidableEq, Repr

/-- The instruction pushes or takes words, or control joins or leaves there. -/
def Mnemonic.usesStack : Mnemonic → Bool
  | .push | .pop | .call | .jmp | .jz | .popa => true
  | _ => false

/-- The operand is a pushed word. -/
def Arg.isPushed : Arg → Bool
  | .mem .esp _ => true
  | _ => false

@[simp] theorem Arg.isPushed_reg (r : Reg) : (Arg.reg r).isPushed = false := rfl

/-- The line leaves the pushed words as they are and does not read them, and
control neither joins nor leaves there. The lines that give up the frame are
among these, since they follow one that finds nothing pushed. -/
def Line.keepsStack : Line → Bool
  | .label _ => false
  | .instruction .mov [.reg .esp, .reg .ebp] none | .instruction .pop [.reg .ebp] none => true
  | .instruction mnemonic args _ =>
    !mnemonic.usesStack && args.head? != some (.reg .esp) && !args.any Arg.isPushed
  | _ => true

/-- The result that a line pushes to make room. -/
def Line.spill? : Line → Option (List Char)
  | .instruction .push [.reg _] text => commentBehind? "spill %" text
  | _ => none

/-- The result that a line takes back from the stack. -/
def Line.fill? : Line → Option (List Char)
  | .instruction .pop [.reg _] text | .instruction .load [.reg _, .mem .esp _] text =>
    commentBehind? "fill %" text
  | _ => none

namespace StackTrace

/-- The pushed words after a line that does not keep them. -/
def line (t : StackTrace) : Line → Option StackTrace
  | .instruction .push [.reg _] comment =>
    match commentBehind? "spill %" comment, commentBehind? "argument " comment with
    | some name, _ => some { t with words := .spill name :: t.words }
    | none, some _ => some { t with words := .argument t.calls.element :: t.words }
    | none, none => none
  | .instruction .pop [.reg _] comment =>
    match t.words, commentBehind? "fill %" comment with
    | .spill name :: words, some filled => if name = filled then some { t with words } else none
    | _, _ => none
  | .instruction .load [.reg _, .mem .esp offset] comment =>
    match t.words[offset.toNatClampNeg]?, commentBehind? "fill %" comment with
    | some (.spill name), some filled =>
      if name = filled then some { t with words := t.words.set offset.toNatClampNeg .spent }
      else none
    | _, _ => none
  | .instruction .add [.reg .esp, .reg .esp, .imm n] _ =>
    if t.words.take n.toNatClampNeg = List.replicate n.toNatClampNeg .spent then
      some { t with words := t.words.drop n.toNatClampNeg }
    else none
  | .instruction .call _ _ =>
    if t.calls.due.length = t.calls.arity ∧
        t.words.take t.calls.arity = t.calls.due.map .argument then
      some { t with words := t.words.drop t.calls.arity }
    else none
  | .label _ | .instruction .jmp _ _ | .instruction .jz _ _ | .instruction .popa _ _ =>
    if t.words = [] then some t else none
  | _ => none

/-- One moment. When an element is taken up, the register file has to know how
many words are pushed. -/
def step (t : StackTrace) (x : Moment) : Option StackTrace :=
  match x.event with
  | .takes e =>
    if x.file.stackDepth = t.words.length then some { t with calls := t.calls.take e } else none
  | .asks _ => some t
  | .emits l => if l.keepsStack then some t else t.line l

/-- Moments in order. -/
def run : List Moment → StackTrace → Option StackTrace
  | [], t => some t
  | x :: xs, t => (t.step x).bind (run xs)

theorem run_append (xs ys : List Moment) (t : StackTrace) :
    run (xs ++ ys) t = (run xs t).bind (run ys) := by
  induction xs generalizing t with
  | nil => rfl
  | cons x xs ih =>
    simp only [List.cons_append, run]
    cases t.step x with
    | none => rfl
    | some t' => exact ih t'

theorem run_singleton (x : Moment) (t : StackTrace) : run [x] t = t.step x := by
  simp only [run]
  cases t.step x <;> rfl

/-! ## Spills and fills -/

/-- How often a result is spilled at some moments. -/
def spills (name : List Char) (xs : List Moment) : Nat :=
  xs.countP fun x => (x.line?.bind Line.spill?) == some name

/-- How often a result is filled at some moments. -/
def fills (name : List Char) (xs : List Moment) : Nat :=
  xs.countP fun x => (x.line?.bind Line.fill?) == some name

/-- One line fills what was spilled, or leaves it. -/
theorem count_line {t t' : StackTrace} {l : Line} (name : List Char) (h : t.line l = some t') :
    t.words.count (.spill name) + (if l.spill? = some name then 1 else 0) =
      t'.words.count (.spill name) + (if l.fill? = some name then 1 else 0) := by
  have hdrop : ∀ n, (∀ w ∈ t.words.take n, w ≠ .spill name) →
      t.words.count (.spill name) = (t.words.drop n).count (.spill name) := by
    intro n hn
    conv_lhs => rw [← List.take_append_drop n t.words]
    rw [List.count_append, List.count_eq_zero.2 fun hmem => hn _ hmem rfl, Nat.zero_add]
  unfold line at h
  split at h
  -- `push` of a result or of an argument
  · next r text =>
    split at h
    · next other _ hother =>
      cases h
      simp [Line.spill?, Line.fill?, List.count_cons, hother]
    · next hnone _ =>
      cases h
      simp [Line.spill?, Line.fill?, hnone]
    · cases h
  -- `pop` of a result, which has to be the one on top
  · next r text =>
    split at h
    · next other words filled hwords hfilled =>
      split at h
      · next heq =>
        cases h
        simp [Line.spill?, Line.fill?, List.count_cons, hwords, hfilled, heq]
      · cases h
    · cases h
  -- a read below the top, which leaves a spent word behind
  · next r offset text =>
    split at h
    · next other filled hword hfilled =>
      split at h
      · next heq =>
        cases h
        obtain ⟨hlt, hword⟩ := List.getElem?_eq_some_iff.1 hword
        have hpos : other = name → 0 < t.words.count (.spill name) := by
          rintro rfl
          exact List.count_pos_iff.2 (hword ▸ List.getElem_mem hlt)
        subst heq
        by_cases hname : other = name
        · have := hpos hname
          simp [Line.spill?, Line.fill?, hfilled, List.count_set hlt, hword, hname]
          omega
        · simp [Line.spill?, Line.fill?, hfilled, List.count_set hlt, hword, hname]
      · cases h
    · cases h
  -- spent words are dropped, and no result among them
  · next n text =>
    split at h
    · next hspent =>
      cases h
      have := hdrop n.toNatClampNeg fun w hw => by
        rw [hspent] at hw
        rw [List.eq_of_mem_replicate hw]
        nofun
      simpa [Line.spill?, Line.fill?] using this
    · cases h
  -- a call takes its arguments, and no result among them
  · split at h
    · next hdue =>
      cases h
      have := hdrop t.calls.arity fun w hw => by
        rw [hdue.2] at hw
        obtain ⟨n, -, rfl⟩ := List.mem_map.1 hw
        nofun
      simpa [Line.spill?, Line.fill?] using this
    · cases h
  all_goals
    first
    | cases h
    | (split at h
       · cases h; simp [Line.spill?, Line.fill?]
       · cases h)

theorem spill?_of_keepsStack {l : Line} (h : l.keepsStack = true) :
    l.spill? = none ∧ l.fill? = none := by
  unfold Line.spill? Line.fill?
  constructor
  · split
    · next r text => simp [Line.keepsStack, Mnemonic.usesStack] at h
    · rfl
  · split
    · next r text =>
      cases text with
      | none => rfl
      | some text => simp [Line.keepsStack, Mnemonic.usesStack] at h
    · next r offset text => simp [Line.keepsStack, Mnemonic.usesStack, Arg.isPushed] at h
    · rfl

theorem count_step {t t' : StackTrace} {x : Moment} (name : List Char) (h : t.step x = some t') :
    t.words.count (.spill name) + spills name [x] = t'.words.count (.spill name) + fills name [x] := by
  obtain ⟨event, file⟩ := x
  cases event with
  | takes e =>
    simp only [step] at h
    split at h
    · cases h
      rfl
    · cases h
  | asks b =>
    cases h
    rfl
  | emits l =>
    have hline : t.words.count (.spill name) + (if l.spill? = some name then 1 else 0) =
        t'.words.count (.spill name) + (if l.fill? = some name then 1 else 0) := by
      simp only [step] at h
      split at h
      · next hkeeps =>
        cases h
        simp [spill?_of_keepsStack hkeeps]
      · exact count_line name h
    simpa [spills, fills, List.countP_cons, Moment.line?, Event.line?] using hline

/-- **Each result is filled as often as it was spilled**, once nothing is pushed
any more. -/
theorem spills_eq_fills {xs : List Moment} {t t' : StackTrace} (name : List Char)
    (h : run xs t = some t') (ht : t.words = []) (ht' : t'.words = []) :
    spills name xs = fills name xs := by
  suffices ∀ t, run xs t = some t' →
      t.words.count (.spill name) + spills name xs = t'.words.count (.spill name) + fills name xs by
    simpa [ht, ht'] using this t h
  clear h ht
  induction xs with
  | nil =>
    intro t h
    cases h
    rfl
  | cons x xs ih =>
    intro t h
    obtain ⟨t₁, hstep, hrun⟩ := Option.bind_eq_some_iff.1 h
    have hfirst := count_step name hstep
    have hrest := ih t₁ hrun
    simp only [spills, fills, List.countP_cons, List.countP_nil] at hfirst hrest ⊢
    omega

/-! ## The comments of lowering -/

theorem commentBehind?_append (opening text : String) :
    commentBehind? opening (some (opening ++ text)) = some text.toList := by
  have happend : (opening ++ text).toList = opening.toList ++ text.toList := String.toList_append
  have hprefix : opening.toList.isPrefixOf (opening.toList ++ text.toList) = true :=
    List.isPrefixOf_iff_prefix.2 (List.prefix_append _ _)
  rw [commentBehind?, happend, if_pos hprefix, List.drop_left]

theorem line_spill (t : StackTrace) (r : Reg) (n : Nat) :
    t.line (.noted .push [.reg r] s!"spill %{n}") =
      some { t with words := .spill (toString n).toList :: t.words } := by
  have hname : commentBehind? "spill %" (some s!"spill %{n}") = some (toString n).toList :=
    commentBehind?_append "spill %" (toString n)
  unfold Line.noted line
  simp only [hname]

theorem line_argument (t : StackTrace) (r : Reg) (k : Nat) :
    t.line (.noted .push [.reg r] s!"argument {k}") =
      some { t with words := .argument t.calls.element :: t.words } := by
  have hname : commentBehind? "argument " (some s!"argument {k}") = some (toString k).toList :=
    commentBehind?_append "argument " (toString k)
  have hnone : commentBehind? "spill %" (some s!"argument {k}") = none := by
    have happend : (s!"argument {k}").toList = "argument ".toList ++ (toString k).toList :=
      String.toList_append
    rw [commentBehind?, happend]
    rfl
  unfold Line.noted line
  simp only [hname, hnone]

theorem line_pop {t : StackTrace} {n : Nat} {words : List Pushed} (r : Reg)
    (h : t.words = .spill (toString n).toList :: words) :
    t.line (.noted .pop [.reg r] s!"fill %{n}") = some { t with words } := by
  have hname : commentBehind? "fill %" (some s!"fill %{n}") = some (toString n).toList :=
    commentBehind?_append "fill %" (toString n)
  unfold Line.noted line
  simp only [hname, h, if_true]

theorem line_read {t : StackTrace} {n k : Nat} (r : Reg) (hk : k < 2 ^ 63)
    (h : t.words[k]? = some (.spill (toString n).toList)) :
    t.line (.noted .load [.reg r, .mem .esp (Int64.ofNat k)] s!"fill %{n}") =
      some { t with words := t.words.set k .spent } := by
  have hname : commentBehind? "fill %" (some s!"fill %{n}") = some (toString n).toList :=
    commentBehind?_append "fill %" (toString n)
  have hoffset : (Int64.ofNat k).toNatClampNeg = k := Int64.toNatClampNeg_ofNat_of_lt hk
  unfold Line.noted line
  simp only [hname, hoffset, h, if_true]

theorem line_drop {t : StackTrace} {k : Nat} (hk : k < 2 ^ 63)
    (h : t.words.take k = List.replicate k .spent) :
    t.line (.plain .add [.reg .esp, .reg .esp, .imm (Int64.ofNat k)]) =
      some { t with words := t.words.drop k } := by
  have hoffset : (Int64.ofNat k).toNatClampNeg = k := Int64.toNatClampNeg_ofNat_of_lt hk
  unfold Line.plain line
  simp only [hoffset, h, if_true]

end StackTrace

/-! ## Machines with a trace -/

/-- A machine, and what its pushed words are. -/
structure Traced (W : Type) extends Machine W where
  trace : StackTrace

namespace Traced

variable {W : Type}

/-- The machine with another word in a register. -/
def set (m : Traced W) (r : Reg) (w : W) : Traced W :=
  { m with toMachine := m.toMachine.set r w }

@[simp] theorem set_regs_self (m : Traced W) (r : Reg) (w : W) : (m.set r w).regs r = w :=
  m.toMachine.set_regs_self r w

theorem set_regs_of_ne (m : Traced W) {r r' : Reg} (h : r' ≠ r) (w : W) :
    (m.set r w).regs r' = m.regs r' :=
  m.toMachine.set_regs_of_ne h w

/-- The machine with another element taken up. -/
def take (m : Traced W) (e : Element) : Traced W :=
  { m with trace := { m.trace with calls := m.trace.calls.take e } }

/-- The calls that come, and the arguments that wait for them. -/
def coming (m : Traced W) : List Nat × CallTrace :=
  (m.calls, m.trace.calls)

variable [DecidableEq W]

/-- The lines among some moments take the machine from `m` to `m'`, and so do
the moments with what the pushed words are. -/
structure Reaches (T : Target W) (xs : List Moment) (m m' : Traced W) : Prop where
  machine : Machine.run T (xs.filterMap Moment.line?) m.toMachine = some m'.toMachine
  trace : StackTrace.run xs m.trace = some m'.trace

namespace Reaches

variable {T : Target W} {xs ys : List Moment} {m m₁ m₂ : Traced W} {f : RegisterFile}

theorem nil (m : Traced W) : Reaches T [] m m :=
  ⟨rfl, rfl⟩

theorem append (h : Reaches T xs m m₁) (h' : Reaches T ys m₁ m₂) : Reaches T (xs ++ ys) m m₂ where
  machine := by
    rw [List.filterMap_append, Machine.run_append, h.machine]
    exact h'.machine
  trace := by
    rw [StackTrace.run_append, h.trace]
    exact h'.trace

/-- One line. -/
theorem line {l : Line} (h : m.toMachine.step T l = some m₁.toMachine)
    (htrace : m.trace.step ⟨.emits l, f⟩ = some m₁.trace) : Reaches T [⟨.emits l, f⟩] m m₁ where
  machine := (Machine.run_singleton T l m.toMachine).trans h
  trace := (StackTrace.run_singleton _ m.trace).trans htrace

/-- A line that keeps the stack. -/
theorem keep {l : Line} {x : Machine W} (hl : l.keepsStack = true)
    (h : m.toMachine.step T l = some x) :
    Reaches T [⟨.emits l, f⟩] m { m with toMachine := x } :=
  line h (if_pos hl)

/-- A register is asked for. -/
theorem ask (b : Binding) : Reaches T [⟨.asks b, f⟩] m m :=
  ⟨rfl, rfl⟩

/-- An element is taken up. -/
theorem takes (e : Element) (h : f.stackDepth = m.trace.words.length) :
    Reaches T [⟨.takes e, f⟩] m (m.take e) where
  machine := rfl
  trace := (StackTrace.run_singleton _ m.trace).trans (if_pos h)

end Reaches

end Traced

end WordC
