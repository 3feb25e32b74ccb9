import Mathlib
import WordC.Proofs.Lowering.Flow
import WordC.Proofs.Lowering.Vocabulary
/-!
# The lines of a function

Lowering the statements of a function emits lines of the function only
(`Function.Writes`), and one line for each call in them. The proof follows the
statements as trees, so that all that has to be known of the state is what its
registers and the values of the current expression are.
-/

namespace WordC

/-- The values of the expression are variables that the function mentions, and its
latest result is in a register of the pool. -/
structure ExpressionState.Of (f : Function) (size : Nat) (e : ExpressionState) : Prop where
  pending : ∀ v, .var v ∈ e.pending → f.Mentions v
  lastResult : ∀ r ∈ e.lastResult, r.InPool size

/-- What is held is part of the function. -/
structure BodyState.Of (f : Function) (size : Nat) (s : BodyState) : Prop where
  registers : s.assembler.file.All (Register.Of f size)
  expression : s.expression.Of f size

namespace Lower

variable {f : Function} {size : Nat} {α : Type}

/-- A step of lowering that keeps to the function. -/
abbrev Speaks (f : Function) (size : Nat) (y : Lower α) (R : α → Prop) : Prop :=
  f.Keeps size (BodyState.Of f size) (fun s : BodyState => s.assembler.journal.toList) y R

theorem speaks_lift {x : Assemble α} {R : α → Prop} (h : Assemble.Speaks f size x R) :
    Speaks f size (onAssembler x) R := by
  intro s r s' hs hrun
  obtain ⟨a, ha, rfl⟩ := onAssembler_eq_ok.1 hrun
  obtain ⟨hregisters, hr, hxs⟩ := h s.assembler r a hs.registers ha
  exact ⟨⟨hregisters, hs.expression⟩, hr, hxs⟩

theorem speaks_emit {l : Line} (h : f.Writes size l) :
    Speaks f size (onAssembler (Assemble.emit l)) fun _ => True :=
  speaks_lift (Assemble.speaks_emit h)

theorem speaks_onExpression {g : ExpressionState → ExpressionState}
    (h : ∀ e, e.Of f size → (g e).Of f size) : Speaks f size (onExpression g) fun _ => True :=
  .of_silent fun s r s' hs hrun => by
    cases hrun
    exact ⟨⟨hs.registers, h _ hs.expression⟩, trivial, rfl⟩

theorem speaks_get : Speaks f size get fun s => s.Of f size :=
  .of_silent fun s r s' hs hrun => by cases hrun; exact ⟨hs, hs, rfl⟩

/-- A change outside the registers and the expression. -/
theorem speaks_modify {g : BodyState → BodyState} (hassembler : ∀ s, (g s).assembler = s.assembler)
    (hexpression : ∀ s, (g s).expression = s.expression) : Speaks f size (modify g) fun _ => True :=
  .of_silent fun s r s' hs hrun => by
    cases hrun
    refine ⟨⟨?_, ?_⟩, trivial, ?_⟩
    · rw [hassembler]
      exact hs.registers
    · rw [hexpression]
      exact hs.expression
    · rw [hassembler]

/-! ## Values -/

theorem speaks_releaseOperands : Speaks f size releaseOperands fun _ => True :=
  speaks_lift Assemble.speaks_releaseOperands

theorem speaks_invalidate : Speaks f size invalidate fun _ => True :=
  speaks_lift Assemble.speaks_invalidate

theorem speaks_storeWritten : Speaks f size storeWritten fun _ => True :=
  speaks_lift (Assemble.speaks_storeWhere _)

theorem speaks_load {o : Operand} (ho : ∀ v, o = .var v → f.Mentions v) :
    Speaks f size (load f o) (Reg.InPool size) := by
  cases o with
  | var v =>
    refine speaks_lift (Assemble.speaks_loadOperand fun w hw => ?_)
    exact Binding.var.inj hw ▸ ho v rfl
  | constant | intermediate =>
    exact speaks_lift (Assemble.speaks_loadOperand fun _ hv => nomatch hv)
  | result | parameter => exact .throw _

theorem speaks_result (n : Nat) : Speaks f size (result n) (Reg.InPool size) :=
  speaks_lift (Assemble.speaks_bindResult n)

/-- The operand is a number, or a register of the machine. -/
def IsSecond (size : Nat) (a : Arg) : Prop :=
  (∃ n, a = .imm n) ∨ ∃ r, a = .reg r ∧ r.InPool size

theorem IsSecond.knows {a : Arg} (h : IsSecond size a) : f.Knows size a := by
  rcases h with ⟨n, rfl⟩ | ⟨r, rfl, hr⟩
  · trivial
  · exact hr

theorem speaks_operandArg {o : Operand} (ho : ∀ v, o = .var v → f.Mentions v) :
    Speaks f size (operandArg f o) (IsSecond size) := by
  cases o with
  | constant c => exact .pure (.inl ⟨c.value, rfl⟩)
  | _ => exact (speaks_load ho).bind fun r hr => .pure (.inr ⟨r, rfl, hr⟩)

/-! ## Operators -/

/-- An operation on two values. -/
theorem fits_operation {m : Mnemonic} (hm : m.isAlu = true) (d r : Reg) {a : Arg}
    (ha : IsSecond size a) : Fits m [.reg d, .reg r, a] := by
  rcases ha with ⟨n, rfl⟩ | ⟨s, rfl, -⟩
  · exact .aluImmediate m hm d r n
  · exact .alu m hm d r s

theorem ne_of_isAlu {m : Mnemonic} (hm : m.isAlu = true) : m ≠ .call ∧ m ≠ .ret := by
  constructor <;> (rintro rfl; cases hm)

theorem writes_operation {m : Mnemonic} (hm : m.isAlu = true) {d r : Reg} {a : Arg}
    (hd : d.InPool size) (hr : r.InPool size) (ha : IsSecond size a) :
    f.Writes size (.plain m [.reg d, .reg r, a]) :=
  .plain (fits_operation hm d r ha) (ne_of_isAlu hm) (Function.knows_triple hd hr ha.knows)

theorem notes_address (n : Nat) : f.Notes s!"address %{n}" := by
  have hnote : f.Notes ("address %" ++ toString n) :=
    Function.notes_append (by simp) Function.ne_break_of_mem_toString
  exact hnote

theorem writes_mov {d r : Reg} (hd : d.InPool size) (hr : r.InPool size) :
    f.Writes size (.plain .mov [.reg d, .reg r]) :=
  .plain (.mov _ _) (by decide) (Function.knows_pair hd hr)

theorem writes_loadThrough {d r : Reg} (hd : d.InPool size) (hr : r.InPool size) :
    f.Writes size (.plain .load [.reg d, .mem r 0]) :=
  .plain (.load _ _ _) (by decide) (Function.knows_pair hd hr)

theorem speaks_addStoreTarget (n : Nat) : Speaks f size (addStoreTarget n) fun _ => True :=
  speaks_onExpression fun _ h => ⟨h.pending, h.lastResult⟩

theorem speaks_unary (op : Operator) {a : Operand} (ha : ∀ v, a = .var v → f.Mentions v)
    (n : Nat) : Speaks f size (unary f op a n) (Reg.InPool size) := by
  have hnot : ∀ {d : Reg} (k : Int64), d.InPool size →
      f.Writes size (.plain .not [.reg d, .imm k]) :=
    fun k hd => .plain (.notImmediate _ _) (by decide) (Function.knows_pair hd trivial)
  have hneg : ∀ {d : Reg} (k : Int64), d.InPool size →
      f.Writes size (.plain .neg [.reg d, .imm k]) :=
    fun k hd => .plain (.negImmediate _ _) (by decide) (Function.knows_pair hd trivial)
  have hzero : IsSecond size (.imm 0) := .inl ⟨0, rfl⟩
  unfold unary
  split
  · exact (speaks_result n).bind fun d hd => (speaks_emit (hnot _ hd)).bind fun _ _ => .pure hd
  · exact (speaks_result n).bind fun d hd => (speaks_emit (hneg _ hd)).bind fun _ _ => .pure hd
  -- every other operand is loaded first, and the operator decides the line
  · refine (speaks_load ha).bind fun r hr => (speaks_result n).bind fun d hd => ?_
    cases op with
    | logicalNot | unaryPlus =>
      exact (speaks_emit (writes_operation rfl hd hr hzero)).bind fun _ _ => .pure hd
    | bitwiseNot =>
      have hline : f.Writes size (.plain .not [.reg d, .reg r]) :=
        .plain (.not _ _) (by decide) (Function.knows_pair hd hr)
      exact (speaks_emit hline).bind fun _ _ => .pure hd
    | unaryMinus =>
      have hline : f.Writes size (.plain .neg [.reg d, .reg r]) :=
        .plain (.neg _ _) (by decide) (Function.knows_pair hd hr)
      exact (speaks_emit hline).bind fun _ _ => .pure hd
    | dereference => exact (speaks_emit (writes_loadThrough hd hr)).bind fun _ _ => .pure hd
    | dereferenceStore =>
      have hline : f.Writes size (.noted .mov [.reg d, .reg r] s!"address %{n}") :=
        .noted (.mov _ _) (by decide) (Function.knows_pair hd hr) (notes_address n)
      exact (speaks_emit hline).bind fun _ _ => (speaks_addStoreTarget n).bind fun _ _ => .pure hd
    | _ => exact .throw_bind _

/-- What joins two values is an operation of the machine, but for reading through
an index. -/
theorem isAlu_of_joins {op : Operator} (h : op.joins = true) (hindex : op ≠ .index) :
    op.mnemonic.isAlu = true := by
  cases op <;> first | rfl | exact absurd rfl hindex | cases h

theorem speaks_binary {op : Operator} (hop : op.joins = true) {a b : Operand}
    (ha : ∀ v, a = .var v → f.Mentions v) (hb : ∀ v, b = .var v → f.Mentions v) (n : Nat) :
    Speaks f size (binary f op a b n) (Reg.InPool size) := by
  refine (speaks_load ha).bind fun r hr => (speaks_operandArg hb).bind fun second hsecond =>
    (speaks_result n).bind fun d hd => ?_
  split
  · exact (speaks_emit (writes_operation rfl hd hr hsecond)).bind fun _ _ =>
      (speaks_emit (writes_loadThrough hd hd)).bind fun _ _ => .pure hd
  · have hline : f.Writes size (.noted .add [.reg d, .reg r, second] s!"address %{n}") :=
      .noted (fits_operation rfl d r hsecond) (by decide)
        (Function.knows_triple hd hr hsecond.knows) (notes_address n)
    exact (speaks_emit hline).bind fun _ _ => (speaks_addStoreTarget n).bind fun _ _ => .pure hd
  · next hindex _ =>
    have hline := writes_operation (f := f) (isAlu_of_joins hop hindex) hd hr hsecond
    exact (speaks_emit hline).bind fun _ _ => .pure hd

theorem speaks_argument (slot : Operand) {value : Operand}
    (hvalue : ∀ v, value = .var v → f.Mentions v) :
    Speaks f size (argument f slot value) fun _ => True := by
  cases slot with
  | parameter k =>
    refine (speaks_load hvalue).bind fun r hr => ?_
    have hnote : f.Notes ("argument " ++ toString k.toNat) :=
      Function.notes_append (by simp) Function.ne_break_of_mem_toString
    have hline : f.Writes size (.noted .push [.reg r] s!"argument {k.toNat}") :=
      .noted (.push _) (by decide) (List.forall_mem_singleton.mpr hr) hnote
    have hrecord : Speaks f size (onAssembler (Assemble.onFile (·.recordPush))) fun _ => True :=
      speaks_lift (Assemble.speaks_account fun _ => rfl)
    have hpush : Speaks f size (do
        noted .push [.reg r] s!"argument {k.toNat}"
        Assemble.onFile (·.recordPush)
        releaseOperands) fun _ => True :=
      (speaks_emit hline).bind fun _ _ => hrecord.bind fun _ _ => speaks_releaseOperands
    split
    -- only the first argument starts the call
    · exact (speaks_lift Assemble.speaks_beginCall).bind fun _ _ => hpush
    · exact .pure_bind hpush
  | _ => exact .throw _

theorem speaks_write {target value : Operand} (htarget : ∀ v, target = .var v → f.Mentions v)
    (hvalue : ∀ v, value = .var v → f.Mentions v) :
    Speaks f size (write f target value) (Reg.InPool size) := by
  cases target with
  | var v =>
    have hv := htarget v rfl
    have hline : ∀ {r : Reg} {source : Arg}, r.InPool size → IsSecond size source →
        f.Writes size (.noted .mov [.reg r, source] v.name) := by
      intro r source hr hsource
      refine .noted ?_ (by decide) (Function.knows_pair hr hsource.knows) (.inr ⟨v, hv, rfl⟩)
      rcases hsource with ⟨n, rfl⟩ | ⟨s, rfl, -⟩
      · exact .movImmediate r n
      · exact .mov r s
    have hwrite : Speaks f size (do
        let source ← operandArg f value
        let r ← Assemble.bindForWrite v
        noted .mov [.reg r, source] v.name
        releaseOperands
        return r) (Reg.InPool size) :=
      (speaks_operandArg hvalue).bind fun source hsource =>
        (speaks_lift (Assemble.speaks_bindForWrite hv)).bind fun r hr =>
          (speaks_emit (hline hr hsource)).bind fun _ _ =>
            speaks_releaseOperands.bind fun _ _ => .pure hr
    simp only [write]
    split
    · exact .throw_bind _
    · exact hwrite
  | intermediate t =>
    have hline : ∀ {address r : Reg}, address.InPool size → r.InPool size →
        f.Writes size (.plain .store [.mem address 0, .reg r]) :=
      fun haddress hr => .plain (.store _ _ _) (by decide) (Function.knows_pair haddress hr)
    -- the address is spent, which changes no operand that is pending
    have htargets : Speaks f size (onExpression fun x =>
        { x with storeTargets := x.storeTargets.filter (· != t.toNat) }) fun _ => True :=
      speaks_onExpression fun _ h => ⟨h.pending, h.lastResult⟩
    have hwrite : Speaks f size (do
        let address ← load f (.intermediate t)
        let r ← load f value
        instruction .store [.mem address 0, .reg r]
        onExpression fun x => { x with storeTargets := x.storeTargets.filter (· != t.toNat) }
        releaseOperands
        return r) (Reg.InPool size) :=
      (speaks_load htarget).bind fun address haddress => (speaks_load hvalue).bind fun r hr =>
        (speaks_emit (hline haddress hr)).bind fun _ _ => htargets.bind fun _ _ =>
          speaks_releaseOperands.bind fun _ _ => .pure hr
    refine speaks_get.bind fun s _ => ?_
    split
    · exact .throw_bind _
    · exact hwrite
  | _ => exact .throw _

theorem speaks_assign {target value : Operand} (htarget : ∀ v, target = .var v → f.Mentions v)
    (hvalue : ∀ v, value = .var v → f.Mentions v) (n : Nat) (rest : List Element) :
    Speaks f size (assign f target value n rest) (Reg.InPool size) := by
  refine (speaks_write htarget hvalue).bind fun written hwritten => ?_
  split
  · exact (speaks_result n).bind fun d hd => (speaks_emit (writes_mov hd hwritten)).bind
      fun _ _ => .pure hd
  · exact .pure hwritten

theorem speaks_apply {op : Operator} {operands : List Operand}
    (hlength : operands.length = op.arity) (h : ∀ v, .var v ∈ operands → f.Mentions v) (n : Nat)
    (rest : List Element) :
    Speaks f size (apply f op operands n rest) fun found => ∀ r ∈ found, r.InPool size := by
  have hsome : ∀ {r : Reg}, r.InPool size → ∀ r' ∈ some r, r'.InPool size :=
    fun hr r' hr' => Option.some.inj hr' ▸ hr
  rcases operands with _ | ⟨a, _ | ⟨b, _ | ⟨c, operands⟩⟩⟩
  · exact .throw _
  · have ha : ∀ v, a = .var v → f.Mentions v := fun v hv => h v (by simp [hv])
    exact (speaks_unary op ha n).bind fun r hr => .pure (hsome hr)
  · have ha : ∀ v, a = .var v → f.Mentions v := fun v hv => h v (by simp [hv])
    have hb : ∀ v, b = .var v → f.Mentions v := fun v hv => h v (by simp [hv])
    simp only [apply]
    split
    · exact (speaks_argument a hb).bind fun _ _ => .pure (by simp)
    · next hargument =>
      split
      · exact (speaks_assign ha hb n rest).bind fun r hr => .pure (hsome hr)
      · next hassign =>
        have hunary : op.isUnary = false := by
          by_contra hunary
          simp [Operator.arity, hunary] at hlength
        -- two operands, no argument and no assignment: an operator that joins
        have hjoins : op.joins = true := by
          simp [Operator.joins, hunary, hargument, hassign]
        exact (speaks_binary hjoins ha hb n).bind fun r hr => .pure (hsome hr)
  · exact .throw _

/-- **An operator.** -/
theorem speaks_operator (op : Operator) (rest : List Element) :
    Speaks f size (operator f op rest) fun _ => True := by
  -- the last check of an operator emits nothing
  have hcheck : Speaks f size (do
      if !(← Assemble.file).bindingsUnique then
        throw .valueHeldTwice : Lower Unit) fun _ => True := by
    refine (speaks_lift Assemble.speaks_file).bind fun file _ => ?_
    split
    · exact .throw _
    · exact .pure trivial
  refine speaks_get.bind fun s hs => ?_
  dsimp only
  by_cases hfew : s.expression.pending.length < op.arity
  · rw [if_pos hfew]
    exact .throw_bind _
  · rw [if_neg hfew]
    have hlength : (s.expression.pending.take op.arity).reverse.length = op.arity := by
      rw [List.length_reverse, List.length_take]
      omega
    have hoperands : ∀ v, .var v ∈ (s.expression.pending.take op.arity).reverse →
        f.Mentions v := fun v hv =>
      hs.expression.pending v (List.mem_of_mem_take (List.mem_reverse.mp hv))
    refine Function.Keeps.bind (speaks_onExpression fun e he => ⟨fun v hv => ?_, he.lastResult⟩)
      fun _ _ => (speaks_apply hlength hoperands _ rest).bind fun found hfound => ?_
    · exact he.pending v (List.mem_of_mem_drop hv)
    · cases found with
      | some r =>
        refine Function.Keeps.bind (speaks_onExpression fun e he => ⟨he.pending, ?_⟩)
          fun _ _ => hcheck
        exact hfound
      | none => exact hcheck

/-! ## Calls -/

/-- What a call does before its line. -/
def beforeCall : Lower Unit := do
  onExpression fun x => { x with hasValues := true }
  releaseOperands
  Assemble.storeWrittenGlobals

/-- What a call does behind its line. -/
def afterCall (c : CallRef) : Lower Unit := do
  Assemble.endCall c.name c.arity.toNat
  Assemble.onFile (·.invalidateGlobals)
  let n := (← get).expression.count
  onExpression fun x => { x with count := n + 1 }
  let d ← result n
  instruction .mov [.reg d, .reg .eax]
  onExpression fun x => { x with lastResult := some d }

theorem call_eq (c : CallRef) : call c = beforeCall >>= fun _ =>
    instruction .call [.label c.name] >>= fun _ => afterCall c := by
  simp only [beforeCall, bind_assoc]
  rfl

theorem speaks_beforeCall : Speaks f size beforeCall fun _ => True := by
  have hvalues : Speaks f size (onExpression fun x => { x with hasValues := true }) fun _ => True :=
    speaks_onExpression fun _ h => ⟨h.pending, h.lastResult⟩
  exact hvalues.bind fun _ _ => speaks_releaseOperands.bind fun _ _ =>
    speaks_lift (Assemble.speaks_storeWhere _)

theorem speaks_afterCall (c : CallRef) : Speaks f size (afterCall c) fun _ => True := by
  refine (speaks_lift (Assemble.speaks_endCall _ _)).bind fun _ _ =>
    (speaks_lift (Assemble.speaks_clearWhere _)).bind fun _ _ => speaks_get.bind fun s _ => ?_
  refine Function.Keeps.bind (speaks_onExpression fun _ h => ⟨h.pending, h.lastResult⟩)
    fun _ _ => (speaks_result _).bind fun d hd => ?_
  refine (speaks_emit (writes_mov hd Reg.inPool_eax)).bind fun _ _ =>
    speaks_onExpression fun _ h => ⟨h.pending, fun r hr => ?_⟩
  exact Option.some.inj hr ▸ hd

/-- Taking up a call that is answered later. -/
theorem records_takes {c : CallRef} {xs : List Moment} (h : f.Records size xs)
    (hline : ∃ y ∈ xs, y.event = .emits (.plain .call [.label c.name])) (file : RegisterFile) :
    f.Records size (⟨.takes (.operand (.result c)), file⟩ :: xs) where
  writes := List.forall_mem_cons.mpr ⟨nofun, h.writes⟩
  calls := by
    refine List.forall_mem_cons.mpr ⟨fun c' hc' => ?_, fun x hx c' hc' => ?_⟩
    · cases hc'
      obtain ⟨y, hy, hevent⟩ := hline
      exact ⟨y, List.mem_cons_of_mem _ hy, hevent⟩
    · obtain ⟨y, hy, hevent⟩ := h.calls x hx c' hc'
      exact ⟨y, List.mem_cons_of_mem _ hy, hevent⟩

theorem record_ok {event : Event} {s s' : BodyState} {r : Unit} (hs : s.Of f size)
    (h : onAssembler (Assemble.record event) s = .ok r s') :
    s'.Of f size ∧ s'.assembler.journal.toList =
      s.assembler.journal.toList ++ [⟨event, s.assembler.file⟩] := by
  cases h
  exact ⟨⟨hs.registers, hs.expression⟩, by simp⟩

/-- **A call that is taken up gets its line.** -/
theorem speaks_takeCall {c : CallRef} (hc : f.Calls c.name) :
    Speaks f size (takes (.operand (.result c)) >>= fun _ => call c) fun _ => True := by
  intro s r s' hs hrun
  rw [call_eq] at hrun
  obtain ⟨_, s₁, htake, hrun⟩ := bind_eq_ok.1 hrun
  obtain ⟨_, s₂, hbefore, hrun⟩ := bind_eq_ok.1 hrun
  obtain ⟨_, s₃, hline, hafter⟩ := bind_eq_ok.1 hrun
  obtain ⟨hs₁, htake⟩ := record_ok hs htake
  obtain ⟨hs₂, -, xs, hxs, hbefore⟩ := speaks_beforeCall _ _ _ hs₁ hbefore
  obtain ⟨hs₃, hline⟩ := record_ok hs₂ hline
  obtain ⟨hs', -, ys, hys, hafter⟩ := speaks_afterCall c _ _ _ hs₃ hafter
  -- the line stands between what is told before and behind it
  have hcall : f.Records size [⟨.emits (.plain .call [.label c.name]), s₂.assembler.file⟩] :=
    .single (fun l hl => Event.emits.inj hl ▸ .call hc) (by simp) _
  have hall := records_takes (c := c) ((hbefore.append hcall).append hafter)
    ⟨⟨_, s₂.assembler.file⟩, by simp, rfl⟩ s.assembler.file
  exact ⟨hs', trivial, _, by simp [hys, hline, hxs, htake], hall⟩

/-! ## Expressions -/

theorem speaks_takes {e : Element} (he : ∀ c, e ≠ .operand (.result c)) :
    Speaks f size (takes e) fun _ => True :=
  speaks_lift (Assemble.speaks_record (by simp) fun c hc => he c (Event.takes.inj hc))

/-- A value waits for its operator. -/
theorem speaks_push {o : Operand} (ho : ∀ v, o = .var v → f.Mentions v) :
    Speaks f size (onExpression fun x => { x with pending := o :: x.pending, hasValues := true })
      fun _ => True := by
  refine speaks_onExpression fun e he => ⟨fun v hv => ?_, he.lastResult⟩
  rcases List.mem_cons.mp hv with hv | hv
  · exact ho v hv.symm
  · exact he.pending v hv

/-- **An element of an expression** of the function. -/
theorem speaks_element {e : Element} (he : e.inExpression = true) (hmem : e ∈ f.body.getD [])
    (nesting : Nat) (rest : List Element) :
    Speaks f size (element f nesting e rest) fun _ => True := by
  cases e with
  | operand o =>
    rw [element_operand]
    cases o with
    | result c => exact speaks_takeCall ⟨c, hmem, rfl⟩
    | var v =>
      exact (speaks_takes (by simp)).bind fun _ _ => speaks_push fun w hw =>
        .inr (Operand.var.inj hw ▸ hmem)
    | constant | intermediate | parameter =>
      exact (speaks_takes (by simp)).bind fun _ _ => speaks_push fun _ hw => nomatch hw
  | operator op =>
    rw [element_operator]
    exact (speaks_takes (by simp)).bind fun _ _ => speaks_operator op rest
  | _ => cases he

/-- The code is an expression of the function. -/
def PartOf (f : Function) (c : Code) : Prop :=
  ∀ e ∈ c, e.inExpression = true ∧ e ∈ f.body.getD []

theorem speaks_code {c : Code} (hc : PartOf f c) (mark : Marker) :
    Speaks f size (code f c mark) fun _ => True := by
  have hrow : ∀ rest, Speaks f size (forFirst (element f 0) (c ++ rest) c.length)
      fun _ => True := by
    intro rest
    induction c with
    | nil => simpa [forFirst] using Function.Keeps.pure trivial
    | cons e c ih =>
      rw [PartOf, List.forall_mem_cons] at hc
      exact (speaks_element hc.1.1 hc.1.2 0 _).bind fun _ _ => ih hc.2
  exact hrow _

theorem speaks_expressionValue : Speaks f size (expressionValue f) (Reg.InPool size) := by
  refine speaks_get.bind fun s hs => ?_
  dsimp only
  split
  · next o rest hpending =>
    have ho : ∀ v, o = .var v → f.Mentions v := by
      rintro v rfl
      exact hs.expression.pending v (hpending ▸ List.mem_cons_self)
    have hrest : ∀ v, .var v ∈ rest → f.Mentions v := fun v hv =>
      hs.expression.pending v (hpending ▸ List.mem_cons_of_mem _ hv)
    refine Function.Keeps.bind (speaks_onExpression fun e he => ⟨hrest, he.lastResult⟩)
      fun _ _ => ?_
    exact (speaks_load ho).bind fun r hr => speaks_releaseOperands.bind fun _ _ => .pure hr
  · next r _ hresult => exact .pure (hs.expression.lastResult r hresult)
  · exact .throw _

theorem speaks_finishExpression : Speaks f size finishExpression fun _ => True :=
  (speaks_lift Assemble.speaks_endExpression).bind fun _ _ =>
    speaks_onExpression fun _ _ => ⟨nofun, nofun⟩

/-! ## Statements -/

theorem speaks_label (name : String) : Speaks f size (label name) fun _ => True :=
  speaks_emit (.label name)

theorem speaks_jump (target : String) : Speaks f size (jump target) fun _ => True :=
  speaks_emit (.plain (.jmp target) (by decide) (List.forall_mem_singleton.mpr trivial))

theorem speaks_openAt (c : Construct) (depth : Nat) :
    Speaks f size (openAt f c depth) fun _ => True :=
  .of_silent fun s r s' hs hrun => by
    cases hrun
    exact ⟨⟨hs.registers, hs.expression⟩, trivial, rfl⟩

theorem speaks_closeAt (c : Construct) (depth : Nat) :
    Speaks f size (closeAt c depth) fun _ => True :=
  speaks_modify (fun _ => rfl) fun _ => rfl

theorem speaks_test {c : Code} (hc : PartOf f c) (target : String) :
    Speaks f size (test f c target) fun _ => True := by
  refine (speaks_code hc _).bind fun _ _ => (speaks_takes (by simp)).bind fun _ _ =>
    speaks_expressionValue.bind fun r hr => ?_
  have hjz : f.Writes size (.plain .jz [.reg r, .label target]) :=
    .plain (.jz r target) (by decide) (Function.knows_pair hr trivial)
  exact speaks_finishExpression.bind fun _ _ => speaks_storeWritten.bind fun _ _ =>
    (speaks_emit hjz).bind fun _ _ => speaks_invalidate

theorem speaks_evaluate {c : Option Code} (hc : PartOf f (c.getD [])) :
    Speaks f size (evaluate f c) fun _ => True :=
  (speaks_code hc _).bind fun _ _ => (speaks_takes (by simp)).bind fun _ _ =>
    speaks_finishExpression

theorem speaks_epilogue : Speaks f size (epilogue f) fun _ => True :=
  (speaks_lift (Assemble.speaks_storeWhere _)).bind fun _ _ =>
    (speaks_lift Assemble.speaks_destroyFrame).bind fun _ _ => speaks_emit .ret

theorem speaks_leaveFunction : Speaks f size (leaveFunction f) fun _ => True := by
  have hrest : Speaks f size (do
      finishExpression
      epilogue f
      invalidate) fun _ => True :=
    speaks_finishExpression.bind fun _ _ => speaks_epilogue.bind fun _ _ => speaks_invalidate
  refine speaks_get.bind fun s _ => ?_
  split
  · exact speaks_expressionValue.bind fun r hr =>
      (speaks_emit (writes_mov Reg.inPool_eax hr)).bind fun _ _ => hrest
  · exact hrest

theorem speaks_scope {inner : Lower Unit} (h : Speaks f size inner fun _ => True) :
    Speaks f size (scope inner) fun _ => True :=
  (speaks_takes (by simp)).bind fun _ _ => h.bind fun _ _ =>
    speaks_takes (by simp)

theorem speaks_repeatLoop (base : LabelBase) (depth : Nat) :
    Speaks f size (repeatLoop base depth) fun _ => True :=
  speaks_storeWritten.bind fun _ _ => (speaks_jump _).bind fun _ _ =>
    (speaks_label _).bind fun _ _ => speaks_invalidate.bind fun _ _ => speaks_closeAt _ _

theorem speaks_join (name : String) : Speaks f size (join name) fun _ => True :=
  speaks_storeWritten.bind fun _ _ => (speaks_label name).bind fun _ _ => speaks_invalidate

theorem speaks_leaveLoop (leave : Option String) :
    Speaks f size (leaveLoop f leave) fun _ => True := by
  cases leave with
  | none => exact .throw _
  | some target =>
    exact speaks_storeWritten.bind fun _ _ => (speaks_jump target).bind fun _ _ => speaks_invalidate

theorem speaks_passOthers (base : LabelBase) (skip : String) :
    Speaks f size (passOthers base skip) fun _ => True :=
  speaks_storeWritten.bind fun _ _ => (speaks_jump _).bind fun _ _ =>
    (speaks_label _).bind fun _ _ => speaks_invalidate

theorem speaks_joinChain (base : LabelBase) (skip : String) (jumped : Bool) :
    Speaks f size (joinChain base skip jumped) fun _ => True := by
  refine (speaks_label _).bind fun _ _ => ?_
  split
  · exact (speaks_label _).bind fun _ _ => speaks_invalidate
  · exact speaks_invalidate

theorem speaks_openChain (depth : Nat) : Speaks f size (openChain f depth) fun _ => True :=
  (speaks_takes (by simp)).bind fun _ _ => speaks_openAt _ _

theorem speaks_openFor (depth : Nat) : Speaks f size (openFor f depth) fun _ => True :=
  (speaks_takes (by simp)).bind fun _ _ => speaks_openAt _ _

theorem speaks_openWhile (depth : Nat) : Speaks f size (openWhile f depth) fun _ => True :=
  (speaks_takes (by simp)).bind fun _ _ => speaks_storeWritten.bind fun _ _ =>
    speaks_invalidate.bind fun _ _ => (speaks_openAt _ _).bind fun base _ =>
    (speaks_label _).bind fun _ _ => .pure trivial

end Lower

open Lower

section Trees

variable {f : Function} {size : Nat}

theorem partOf_getD {c : Option Code} (h : ∀ code ∈ c, PartOf f code) : PartOf f (c.getD []) := by
  cases c with
  | none => nofun
  | some code => exact h code rfl

mutual

/-- **Lowering a statement keeps to the function**, if its expressions are part of
it. -/
theorem Stmt.Sound.speaks {inLoop : Bool} {s : Stmt} (h : s.Sound (PartOf f) inLoop) (depth : Nat)
    (leave : Option String) : Speaks f size (s.lower f depth leave) fun _ => True :=
  match s, h with
  | .eval _, h => speaks_evaluate h
  | .ret _, h =>
    (speaks_takes (by simp)).bind fun _ _ =>
      (speaks_code (partOf_getD h) _).bind fun _ _ =>
      (speaks_takes (by simp)).bind fun _ _ => speaks_leaveFunction
  | .leave, _ =>
    (speaks_takes (by simp)).bind fun _ _ => speaks_leaveLoop leave
  | .block _, h => speaks_scope (blockSound.speaks h depth leave)
  | .branch .., ⟨hc, hbody, hother⟩ =>
    (speaks_openChain depth).bind fun _ _ => (speaks_test hc _).bind fun _ _ =>
      (speaks_scope (hbody.speaks _ _)).bind fun _ _ =>
      (hother.speaks depth leave _ _ _).bind fun _ _ => speaks_closeAt _ _
  | .loop .., ⟨hc, hbody⟩ =>
    (speaks_openWhile depth).bind fun _ _ => (speaks_test hc _).bind fun _ _ =>
      (speaks_scope (hbody.speaks _ _)).bind fun _ _ => speaks_repeatLoop _ _
  | .count .., ⟨hfirst, hc, hstep, hbody⟩ =>
    (speaks_openFor depth).bind fun _ _ => (speaks_evaluate (partOf_getD hfirst)).bind fun _ _ =>
      (speaks_join _).bind fun _ _ => (speaks_test hc _).bind fun _ _ =>
      (speaks_scope (hbody.speaks _ _)).bind fun _ _ =>
      (speaks_code (partOf_getD hstep) _).bind fun _ _ =>
      speaks_finishExpression.bind fun _ _ => speaks_repeatLoop _ _

theorem Alternative.Sound.speaks {inLoop : Bool} {other : Alternative}
    (h : other.Sound (PartOf f) inLoop) (depth : Nat) (leave : Option String) (base : LabelBase)
    (index : Nat) (skip : String) :
    Speaks f size (other.lower f depth leave base index skip) fun _ => True :=
  match other, h with
  | .none, _ => speaks_storeWritten.bind fun _ _ => speaks_joinChain _ _ _
  | .elseIf .., ⟨hc, hbody, hother⟩ =>
    (speaks_passOthers _ _).bind fun _ _ => (speaks_takes (by simp)).bind fun _ _ =>
      (speaks_test hc _).bind fun _ _ => (speaks_scope (hbody.speaks _ _)).bind fun _ _ =>
      hother.speaks depth leave _ _ _
  | .otherwise _, h =>
    (speaks_passOthers _ _).bind fun _ _ => (speaks_takes (by simp)).bind fun _ _ =>
      (speaks_scope (blockSound.speaks h _ _)).bind fun _ _ => speaks_join _

theorem blockSound.speaks {inLoop : Bool} {body : List Stmt} (h : blockSound (PartOf f) inLoop body)
    (depth : Nat) (leave : Option String) :
    Speaks f size (blockLower f depth leave body) fun _ => True :=
  match body, h with
  | [], _ => .pure trivial
  | _ :: _, ⟨hs, hrest⟩ => (hs.speaks depth leave).bind fun _ _ => hrest.speaks depth leave

end

/-! ## Functions -/

theorem speaks_functionEnd : Speaks f size (functionEnd f) fun _ => True := by
  refine speaks_get.bind fun s _ => ?_
  split
  · exact speaks_epilogue
  · exact .pure trivial

/-- What follows the head of a function. -/
def behindHead (f : Function) (stmts : List Stmt) : Lower Unit := do
  Assemble.createFrame f.frameSize
  blockLower f 0 none stmts
  takes (.marker .functionEnd)
  functionEnd f

theorem speaks_behindHead {stmts : List Stmt} (h : blockSound (PartOf f) false stmts) :
    Speaks f size (behindHead f stmts) fun _ => True :=
  (speaks_lift (Assemble.speaks_createFrame _)).bind fun _ _ => (h.speaks 0 none).bind fun _ _ =>
    (speaks_takes (by simp)).bind fun _ _ => speaks_functionEnd

theorem bodyLower_eq_head (stmts : List Stmt) : bodyLower f stmts =
    takes (.marker .functionStart) >>= fun _ => onAssembler (Assemble.emit (.function f.name)) >>=
      fun _ => behindHead f stmts := by
  simp only [bodyLower, functionStart, behindHead, bind_assoc]
  rfl

/-- **A function is lowered to its head and lines of its own** behind it. -/
theorem bodyLower_records {stmts : List Stmt} (h : blockSound (PartOf f) false stmts)
    {a : Assembler} (ha : a.journal = #[]) (hpool : a.file.All (Register.Of f size))
    {s' : BodyState} (hrun : bodyLower f stmts { assembler := a } = .ok () s') :
    ∃ pool xs, s'.assembler.journal.toList = ⟨.takes (.marker .functionStart), a.file⟩ ::
      ⟨.emits (.function f.name), pool⟩ :: xs ∧ f.Records size xs := by
  have hstart : BodyState.Of f size { assembler := a } := ⟨hpool, nofun, nofun⟩
  rw [bodyLower_eq_head] at hrun
  obtain ⟨_, s₁, htake, hrun⟩ := bind_eq_ok.1 hrun
  obtain ⟨_, s₂, hhead, hrest⟩ := bind_eq_ok.1 hrun
  obtain ⟨hs₁, htake⟩ := record_ok hstart htake
  obtain ⟨hs₂, hhead⟩ := record_ok hs₁ hhead
  obtain ⟨-, -, xs, hxs, hrecords⟩ := speaks_behindHead h _ _ _ hs₂ hrest
  refine ⟨s₁.assembler.file, xs, ?_, hrecords⟩
  simp [hxs, hhead, htake, ha]

end Trees

/-! ## The expressions on the way -/

/-- A waypoint stands for a line, or for elements that are taken up. -/
theorem exists_of_mem_waypoints {p : Code} {xs : List Moment} {w : Waypoint}
    (hw : w ∈ waypoints p xs) :
    (∃ x ∈ xs, ∃ l, x.event = .emits l ∧ l.waypoint? = some w) ∨
      ∃ c, w = .code c ∧ ∀ e ∈ c, e ∈ p ∨ ∃ x ∈ xs, x.event = .takes e := by
  have hpending : ∀ c : Code, w ∈ c.waypoint → w = .code c := by
    intro c hc
    cases c with
    | nil => cases hc
    | cons e c => exact List.mem_singleton.1 hc
  induction xs generalizing p with
  | nil => exact .inr ⟨p, hpending p hw, fun e he => .inl he⟩
  | cons x xs ih =>
    -- what holds of the later moments holds of all
    have hlater : ∀ {q : Code}, (∀ e ∈ q, e ∈ p ∨ x.event = .takes e) → w ∈ waypoints q xs →
        (∃ y ∈ x :: xs, ∃ l, y.event = .emits l ∧ l.waypoint? = some w) ∨
          ∃ c, w = .code c ∧ ∀ e ∈ c, e ∈ p ∨ ∃ y ∈ x :: xs, y.event = .takes e := by
      intro q hq hw
      rcases ih hw with ⟨y, hy, hl⟩ | ⟨c, hc, hall⟩
      · exact .inl ⟨y, List.mem_cons_of_mem _ hy, hl⟩
      · refine .inr ⟨c, hc, fun e he => ?_⟩
        rcases hall e he with heq | ⟨y, hy, hevent⟩
        · exact (hq e heq).imp_right fun hx => ⟨x, List.mem_cons_self, hx⟩
        · exact .inr ⟨y, List.mem_cons_of_mem _ hy, hevent⟩
    have hnow : w ∈ p.waypoint →
        (∃ y ∈ x :: xs, ∃ l, y.event = .emits l ∧ l.waypoint? = some w) ∨
          ∃ c, w = .code c ∧ ∀ e ∈ c, e ∈ p ∨ ∃ y ∈ x :: xs, y.event = .takes e :=
      fun hp => .inr ⟨p, hpending p hp, fun e he => .inl he⟩
    rw [waypoints] at hw
    split at hw
    · next e hevent =>
      split at hw
      · refine hlater (fun e' he' => ?_) hw
        rcases List.mem_append.mp he' with he' | he'
        · exact .inl he'
        · exact .inr (List.mem_singleton.mp he' ▸ hevent)
      · exact (List.mem_append.mp hw).elim hnow (hlater (q := []) (by simp))
    · exact hlater (fun e he => .inl he) hw
    · next l hevent =>
      split at hw
      · next w' hline =>
        rcases List.mem_append.mp hw with hw | hw
        · exact hnow hw
        · rcases List.mem_cons.mp hw with rfl | hw
          · exact .inl ⟨x, List.mem_cons_self, l, hevent, hline⟩
          · exact hlater (q := []) (by simp) hw
      · exact hlater (fun e he => .inl he) hw

mutual

/-- Control comes by every expression of a statement. -/
theorem Stmt.code_mem_flow (name : String) (depth : Nat) (leave : Option String) (s : Stmt)
    (l : Labels) {c : Code} (hc : c ∈ s.expressions) :
    .code c ∈ (s.flow name depth leave l).1 :=
  match s with
  | .eval _ => List.mem_singleton.mpr (congrArg _ (List.mem_singleton.mp hc))
  | .ret _ => by simpa [Stmt.flow_ret, expressionFlow, Stmt.expressions] using hc
  | .leave => by cases hc
  | .block body => blockFlow_code_mem name depth leave body l hc
  | .branch condition body other => by
    have hbody := fun leave l => blockFlow_code_mem name (depth + 1) leave body l (c := c)
    have hother := fun base index skip l =>
      other.code_mem_flow name depth leave base index skip l (c := c)
    simp only [Stmt.expressions, List.mem_cons, List.mem_append] at hc
    simp only [Stmt.flow_branch, List.mem_cons, List.mem_append]
    grind
  | .loop condition body => by
    have hbody := fun leave l => blockFlow_code_mem name (depth + 1) leave body l (c := c)
    simp only [Stmt.expressions, List.mem_cons] at hc
    simp only [Stmt.flow_loop, List.mem_cons, List.mem_append]
    grind
  | .count first condition step body => by
    have hbody := fun leave l => blockFlow_code_mem name (depth + 1) leave body l (c := c)
    simp only [Stmt.expressions, List.mem_cons, List.mem_append] at hc
    simp only [Stmt.flow_count, expressionFlow, List.mem_cons, List.mem_append, List.mem_map]
    grind

theorem Alternative.code_mem_flow (name : String) (depth : Nat) (leave : Option String)
    (base : LabelBase) (index : Nat) (skip : String) (other : Alternative) (l : Labels) {c : Code}
    (hc : c ∈ other.expressions) :
    .code c ∈ (other.flow name depth leave base index skip l).1 :=
  match other with
  | .none => by cases hc
  | .elseIf condition body other => by
    have hbody := fun leave l => blockFlow_code_mem name (depth + 1) leave body l (c := c)
    have hother := fun base index skip l =>
      other.code_mem_flow name depth leave base index skip l (c := c)
    simp only [Alternative.expressions, List.mem_cons, List.mem_append] at hc
    simp only [Alternative.flow_elseIf, List.mem_cons, List.mem_append]
    grind
  | .otherwise body => by
    have hbody := blockFlow_code_mem name (depth + 1) leave body l hc
    simp [Alternative.flow_otherwise, hbody]

theorem blockFlow_code_mem (name : String) (depth : Nat) (leave : Option String)
    (body : List Stmt) (l : Labels) {c : Code} (hc : c ∈ blockExpressions body) :
    .code c ∈ (blockFlow name depth leave body l).1 :=
  match body with
  | [] => by cases hc
  | s :: rest => by
    rw [blockFlow_cons]
    refine List.mem_append.mpr ((List.mem_append.mp hc).imp (fun hc => ?_) fun hc => ?_)
    · exact s.code_mem_flow name depth leave l hc
    · exact blockFlow_code_mem name depth leave rest _ hc

end

/-! ## The lines of a function -/

/-- **What a function is lowered to**, with a pool of `size` registers: its head and
behind it lines of its own, among them a return and one for every call. -/
structure Function.Prints (f : Function) (size : Nat) (lines : List Line) : Prop where
  head : ∃ behind, lines = .function f.name :: behind ∧ ∀ l ∈ behind, f.Writes size l
  returns : .plain .ret [.imm (Int64.ofNat f.arity)] ∈ lines
  calls : ∀ name, f.Calls name → .plain .call [.label name] ∈ lines

theorem Function.Prints.eq_or_writes {f : Function} {size : Nat} {lines : List Line}
    (h : f.Prints size lines) {l : Line} (hl : l ∈ lines) :
    l = .function f.name ∨ f.Writes size l := by
  obtain ⟨behind, rfl, hwrites⟩ := h.head
  exact (List.mem_cons.1 hl).imp_right (hwrites l)

theorem Assembler.mem_lines {a : Assembler} {l : Line} :
    l ∈ a.lines.toList ↔ ∃ x ∈ a.journal.toList, x.event = .emits l := by
  rw [Assembler.lines, Array.toList_filterMap, List.mem_filterMap]
  refine exists_congr fun x => and_congr_right fun _ => ?_
  obtain ⟨event, file⟩ := x
  cases event with
  | emits l' => simp [Moment.line?, Event.line?]
  | _ => simp [Moment.line?, Event.line?]

/-- Where control leaves a function, a line of it drops its arguments. -/
theorem Function.Writes.eq_ret {f : Function} {size : Nat} {l : Line} (h : f.Writes size l)
    (hstop : l.waypoint? = some .stop) : l = .plain .ret [.imm (Int64.ofNat f.arity)] := by
  have hret : l.mnemonic? = some .ret := by
    unfold Line.waypoint? at hstop
    split at hstop <;> first | rfl | cases hstop
  cases h with
  | ret => rfl
  | instruction _ hm => exact absurd (Option.some.inj hret) hm.2
  | _ => cases hret

theorem Line.waypoint?_ne_code {l : Line} (c : Code) : l.waypoint? ≠ some (.code c) := by
  intro h
  unfold Line.waypoint? at h
  split at h <;> cases h

theorem RegisterFile.inPool_ofSize {registers : Nat} {pool : RegisterFile}
    (hpool : RegisterFile.ofSize registers = .ok pool) (f : Function) :
    pool.All (Register.Of f registers) := by
  unfold RegisterFile.ofSize at hpool
  split at hpool
  · cases hpool
  · cases hpool
    intro r hr
    obtain ⟨i, hi, rfl⟩ := List.mem_map.mp hr
    rw [List.mem_range] at hi
    have hbound : min (i + 1) 255 < 256 := by omega
    have hnumber : (UInt8.ofNat (min (i + 1) 255)).toNat = min (i + 1) 255 :=
      UInt8.toNat_ofNat_of_lt' hbound
    refine ⟨Reg.inPool_general (fun hzero => ?_) (by omega), nofun⟩
    rw [hzero] at hnumber
    change 0 = _ at hnumber
    omega

/-- **Every line of a lowered function.** -/
theorem Function.prints_of_assemble {f : Function} {stmts : List Stmt}
    (hbody : f.body = some (bodyLinear stmts)) (h : blockSound Code.Plain false stmts)
    {registers : Nat} {notes notes' : Array Note} {a : Assembler}
    (hassemble : f.assemble registers notes = .ok a notes') :
    f.Prints registers a.lines.toList := by
  obtain ⟨last, hshows, hlast⟩ := Function.assemble_shows hbody h hassemble
  obtain ⟨pool, s, hpool, hlower, rfl⟩ := Function.bodyLower_of_assemble hbody h hassemble
  have hmem : ∀ c ∈ blockExpressions stmts, ∀ e ∈ c, e ∈ f.body.getD [] := by
    intro c hc e he
    rw [hbody]
    exact (mem_bodyLinear h ((h.forall_expressions c hc).2 e he)).mpr ⟨c, hc, he⟩
  -- every expression of the tree is a part of the body that was read
  have hparts : blockSound (PartOf f) false stmts := h.of_expressions fun c hc e he =>
    ⟨(h.forall_expressions c hc).2 e he, hmem c hc e he⟩
  obtain ⟨file, xs, hjournal, hrecords⟩ := bodyLower_records hparts rfl
    (RegisterFile.inPool_ofSize hpool f) hlower
  have hlines : s.assembler.lines.toList = .function f.name :: xs.filterMap (·.line?) := by
    rw [Assembler.lines, Array.toList_filterMap, hjournal]
    rfl
  have hwrites : ∀ l ∈ xs.filterMap (·.line?), f.Writes registers l := by
    intro l hl
    obtain ⟨⟨event, file⟩, hx, hevent⟩ := List.mem_filterMap.1 hl
    cases event with
    | emits l' => exact Option.some.inj hevent ▸ hrecords.writes _ hx l' rfl
    | _ => cases hevent
  refine ⟨⟨_, hlines, hwrites⟩, ?_, ?_⟩
  · -- control leaves the function somewhere
    have hstop : .stop ∈ waypoints [] s.assembler.journal.toList := by
      rw [hshows.eq]
      rcases hlast with rfl | ⟨rfl, before, after, hflow, -⟩
      · simp
      · simp [hflow]
    rcases exists_of_mem_waypoints hstop with ⟨x, hx, l, hevent, hl⟩ | ⟨c, hc, -⟩
    · have hline := Assembler.mem_lines.mpr ⟨x, hx, hevent⟩
      rw [hlines] at hline
      rcases List.mem_cons.1 hline with rfl | hbehind
      · cases hl
      · rw [hlines, ← (hwrites l hbehind).eq_ret hl]
        exact List.mem_cons_of_mem _ hbehind
    · cases hc
  -- a call of the body is taken up on some path through it, and then its line is emitted
  · rintro name ⟨call, hcall, rfl⟩
    rw [hbody] at hcall
    obtain ⟨c, hc, hcall⟩ := (mem_bodyLinear h rfl).mp hcall
    have hcode : .code c ∈ waypoints [] s.assembler.journal.toList := by
      rw [hshows.eq]
      exact List.mem_append_left _ (blockFlow_code_mem f.name 0 none stmts {} hc)
    rcases exists_of_mem_waypoints hcode with ⟨x, hx, l, hevent, hl⟩ | ⟨c', hc', htaken⟩
    · exact absurd hl (Line.waypoint?_ne_code c)
    · cases hc'
      obtain ⟨x, hx, hevent⟩ := (htaken _ hcall).resolve_left List.not_mem_nil
      have hx : x ∈ xs := by
        rw [hjournal, List.mem_cons, List.mem_cons] at hx
        rcases hx with rfl | rfl | hx
        · cases hevent
        · cases hevent
        · exact hx
      obtain ⟨y, hy, hline⟩ := hrecords.calls x hx call hevent
      refine Assembler.mem_lines.mpr ⟨y, ?_, hline⟩
      rw [hjournal]
      exact List.mem_cons_of_mem _ (List.mem_cons_of_mem _ hy)

end WordC
