import Mathlib
import WordC.Proofs.SourceUnit.Unit
import WordC.Proofs.Machine.Acceptance
import WordC.Proofs.Lowering.Structured
/-!
# What the lines of a function are made of

Lowering takes registers from its pool, file-scope words and comments from the
variables that the function mentions, and the targets of calls from the calls in
its body. `Function.Writes` says so of one line. Each step keeps to it as long as
the registers hold nothing else (`Function.Keeps`), and a call that is taken up
gets its line.
-/

namespace WordC

/-! ## Lines -/

/-- The register is a special one or one of a pool of `size` registers, and its name can be
read back. -/
def Reg.InPool (size : Nat) (r : Reg) : Prop :=
  r.Legible ∧ ∀ n, r = .general n → n.toNat ≤ size

namespace Reg

variable {size : Nat}

theorem inPool_zero : zero.InPool size :=
  ⟨trivial, nofun⟩

theorem inPool_eax : eax.InPool size :=
  ⟨trivial, nofun⟩

theorem inPool_ebp : ebp.InPool size :=
  ⟨trivial, nofun⟩

theorem inPool_esp : esp.InPool size :=
  ⟨trivial, nofun⟩

theorem inPool_general {n : UInt8} (hpos : n ≠ 0) (hle : n.toNat ≤ size) :
    (general n).InPool size :=
  ⟨hpos, fun _ h => Reg.general.inj h ▸ hle⟩

/-- The machine has the registers of a small pool. -/
theorem InPool.onMachine {r : Reg} (h : r.InPool size) (hsize : size ≤ machineRegisters) :
    r.onMachine = .ok r := by
  cases r with
  | general n => exact if_neg ((h.2 n rfl).trans hsize).not_gt
  | _ => rfl

end Reg

namespace Function

/-- The operand is made of registers of the pool and of what the function mentions. The
targets of jumps are left open. -/
def Knows (f : Function) (size : Nat) : Arg → Prop
  | .reg r => r.InPool size
  | .mem base _ => base.InPool size
  | .global name => ∃ v, f.Mentions v ∧ v.storage = .global name
  | .imm _ | .label _ => True

/-- The comment is one line, or the name of a variable that the function
mentions. -/
def Notes (f : Function) (text : String) : Prop :=
  Text.OneLine text.toList ∨ ∃ v, f.Mentions v ∧ v.name = text

/-- The function calls a function of this name. -/
def Calls (f : Function) (name : String) : Prop :=
  ∃ c, .operand (.result c) ∈ f.body.getD [] ∧ c.name = name

/-- **A line of the function** behind its head. -/
inductive Writes (f : Function) (size : Nat) : Line → Prop where
  | label (name : String) : Writes f size (.label name)
  | call {name : String} : f.Calls name → Writes f size (.plain .call [.label name])
  | ret : Writes f size (.plain .ret [.imm (Int64.ofNat f.arity)])
  | instruction {m : Mnemonic} {args : List Arg} {note : Option String} : Fits m args →
      m ≠ .call ∧ m ≠ .ret → (∀ a ∈ args, f.Knows size a) → (∀ s ∈ note, f.Notes s) →
      Writes f size (.instruction m args note)

theorem Writes.plain {f : Function} {size : Nat} {m : Mnemonic} {args : List Arg}
    (hfits : Fits m args) (hm : m ≠ .call ∧ m ≠ .ret) (hargs : ∀ a ∈ args, f.Knows size a) :
    f.Writes size (.plain m args) :=
  .instruction hfits hm hargs nofun

theorem Writes.noted {f : Function} {size : Nat} {m : Mnemonic} {args : List Arg} {note : String}
    (hfits : Fits m args) (hm : m ≠ .call ∧ m ≠ .ret) (hargs : ∀ a ∈ args, f.Knows size a)
    (hnote : f.Notes note) : f.Writes size (.noted m args note) :=
  .instruction hfits hm hargs fun _ hs => Option.some.inj hs ▸ hnote

/-- **Moments of lowering the function**: its lines, and among them one for each
call that was taken up. -/
structure Records (f : Function) (size : Nat) (xs : List Moment) : Prop where
  writes : ∀ x ∈ xs, ∀ l, x.event = .emits l → f.Writes size l
  calls : ∀ x ∈ xs, ∀ c, x.event = .takes (.operand (.result c)) →
    ∃ y ∈ xs, y.event = .emits (.plain .call [.label c.name])

variable {f : Function} {size : Nat}

theorem Records.nil : f.Records size [] :=
  ⟨nofun, nofun⟩

theorem Records.append {xs ys : List Moment} (h : f.Records size xs) (h' : f.Records size ys) :
    f.Records size (xs ++ ys) where
  writes := List.forall_mem_append.mpr ⟨h.writes, h'.writes⟩
  calls := by
    refine List.forall_mem_append.mpr ⟨fun x hx c hc => ?_, fun x hx c hc => ?_⟩
    · obtain ⟨y, hy, hcall⟩ := h.calls x hx c hc
      exact ⟨y, List.mem_append_left ys hy, hcall⟩
    · obtain ⟨y, hy, hcall⟩ := h'.calls x hx c hc
      exact ⟨y, List.mem_append_right xs hy, hcall⟩

/-- One moment at which no call is taken up. -/
theorem Records.single {event : Event} (hline : ∀ l, event = .emits l → f.Writes size l)
    (hcall : ∀ c, event ≠ .takes (.operand (.result c))) (file : RegisterFile) :
    f.Records size [⟨event, file⟩] where
  writes := List.forall_mem_singleton.mpr hline
  calls := List.forall_mem_singleton.mpr fun c hc => absurd hc (hcall c)

/-! ## Steps -/

variable {σ α β : Type} {I : σ → Prop} {J : σ → List Moment}

/-- **The step keeps to the function.** From a state with `I` it comes to another
one, its result has `R`, and the journal `J` grows by moments of the function. -/
def Keeps (f : Function) (size : Nat) (I : σ → Prop) (J : σ → List Moment)
    (x : EStateM LoweringError σ α) (R : α → Prop) : Prop :=
  ∀ s r s', I s → x s = .ok r s' →
    I s' ∧ R r ∧ ∃ xs, J s' = J s ++ xs ∧ f.Records size xs

variable {x : EStateM LoweringError σ α} {y : α → EStateM LoweringError σ β}
  {P : α → Prop} {R : β → Prop}

namespace Keeps

theorem bind (h : f.Keeps size I J x P) (h' : ∀ r, P r → f.Keeps size I J (y r) R) :
    f.Keeps size I J (x >>= y) R := by
  intro s r s' hs hrun
  obtain ⟨r₁, s₁, hx, hy⟩ := bind_eq_ok.1 hrun
  obtain ⟨hs₁, hr₁, xs, hxs, hrecords⟩ := h s r₁ s₁ hs hx
  obtain ⟨hs', hr, ys, hys, hrecords'⟩ := h' r₁ hr₁ s₁ r s' hs₁ hy
  exact ⟨hs', hr, xs ++ ys, by rw [hys, hxs, List.append_assoc], hrecords.append hrecords'⟩

/-- A step that tells nothing. -/
theorem of_silent (h : ∀ s r s', I s → x s = .ok r s' → I s' ∧ P r ∧ J s' = J s) :
    f.Keeps size I J x P := by
  intro s r s' hs hrun
  obtain ⟨hs', hr, hjournal⟩ := h s r s' hs hrun
  exact ⟨hs', hr, [], by rw [hjournal, List.append_nil], .nil⟩

theorem pure {r : α} (h : P r) : f.Keeps size I J (Pure.pure r : EStateM LoweringError σ α) P :=
  of_silent fun s r' s' hs hrun => by cases hrun; exact ⟨hs, h, rfl⟩

theorem pure_bind {r : α} (h : f.Keeps size I J (y r) R) : f.Keeps size I J (Pure.pure r >>= y) R :=
  h

theorem throw (e : LoweringError) :
    f.Keeps size I J (MonadExcept.throw e : EStateM LoweringError σ α) P :=
  nofun

theorem throw_bind (e : LoweringError) :
    f.Keeps size I J ((MonadExcept.throw e : EStateM LoweringError σ α) >>= y) R :=
  nofun

theorem forM {γ : Type} {g : γ → EStateM LoweringError σ Unit} {cs : List γ}
    (h : ∀ c ∈ cs, f.Keeps size I J (g c) fun _ => True) :
    f.Keeps size I J (cs.forM g) fun _ => True := by
  induction cs with
  | nil => exact pure trivial
  | cons c cs ih =>
    rw [List.forall_mem_cons] at h
    exact h.1.bind fun _ _ => ih h.2

end Keeps

end Function

/-! ## Registers -/

/-- The register is of the pool, and a variable in it is one that the function
mentions. -/
def Register.Of (f : Function) (size : Nat) (r : Register) : Prop :=
  r.reg.InPool size ∧ ∀ v, r.binding = some (.var v) → f.Mentions v

namespace RegisterFile

variable {f : Function} {size : Nat} {file : RegisterFile}

theorem All.inPool_regAt (h : file.All (Register.Of f size)) (i : Nat) :
    (file.regAt i).InPool size := by
  unfold regAt
  cases hr : file.registers[i]? with
  | none => exact Reg.inPool_zero
  | some r => exact (h r (List.mem_of_getElem? hr)).1

theorem All.mentions_of_binding (h : file.All (Register.Of f size)) {i : Nat} {r : Register}
    (hr : file.registers[i]? = some r) {v : Variable} (hv : r.binding = some (.var v)) :
    f.Mentions v :=
  (h r (List.mem_of_getElem? hr)).2 v hv

theorem Of.cleared {r : Register} (h : r.Of f size) : r.cleared.Of f size :=
  ⟨h.1, nofun⟩

theorem All.of_use (h : file.All (Register.Of f size)) (i : Nat) :
    (file.use i).All (Register.Of f size) :=
  (h.touch (fun _ _ hr => hr) i).setState (fun _ hr => hr) i

theorem All.of_pin (h : file.All (Register.Of f size)) (i : Nat) :
    (file.pin i).All (Register.Of f size) := by
  rwa [All, registers_pin]

/-- Putting a value into a register. -/
theorem All.of_bind (h : file.All (Register.Of f size)) {b : Binding}
    (hb : ∀ v, b = .var v → f.Mentions v) (i : Nat) (state : RegisterState) :
    (file.bind i b state).All (Register.Of f size) := by
  have hbound : RegisterFile.All (Register.Of f size) { file with
      registers := file.registers.modify i fun r =>
        { r with binding := some b, written := false } } :=
    h.modify rfl fun r _ hr => ⟨hr.1, fun v hv => hb v (Option.some.inj hv)⟩
  exact (hbound.setState (fun _ hr => hr) i).touch (fun _ _ hr => hr) i

theorem All.of_release (h : file.All (Register.Of f size)) (i : Nat) :
    (file.release i).All (Register.Of f size) := by
  unfold RegisterFile.release
  split
  · exact h.clear (fun _ hr => Of.cleared hr) i
  · exact h.setState (fun _ hr => hr) i
  · exact h

theorem All.of_releaseOperands (h : file.All (Register.Of f size)) :
    file.releaseOperands.All (Register.Of f size) :=
  h.releaseOperands fun _ i hg => hg.of_release i

end RegisterFile

/-! ## Operands and comments -/

namespace Function

variable {f : Function} {size : Nat}

theorem knows_location {v : Variable} (hv : f.Mentions v) : f.Knows size v.location := by
  unfold Variable.location
  split
  · exact Reg.inPool_ebp
  · next hstorage => exact ⟨v, hv, hstorage⟩

theorem knows_pair {a b : Arg} (ha : f.Knows size a) (hb : f.Knows size b) :
    ∀ x ∈ [a, b], f.Knows size x :=
  List.forall_mem_cons.mpr ⟨ha, List.forall_mem_singleton.mpr hb⟩

theorem knows_triple {a b c : Arg} (ha : f.Knows size a) (hb : f.Knows size b)
    (hc : f.Knows size c) : ∀ x ∈ [a, b, c], f.Knows size x :=
  List.forall_mem_cons.mpr ⟨ha, knows_pair hb hc⟩

theorem writes_load {v : Variable} (hv : f.Mentions v) {r : Reg} (hr : r.InPool size) :
    f.Writes size (.plain .load [.reg r, v.location]) := by
  refine .plain ?_ (by decide) (knows_pair hr (knows_location hv))
  unfold Variable.location
  split
  · exact .load r _ _
  · exact .loadGlobal r _

theorem writes_store {v : Variable} (hv : f.Mentions v) {r : Reg} (hr : r.InPool size) :
    f.Writes size (.plain .store [v.location, .reg r]) := by
  refine .plain ?_ (by decide) (knows_pair (knows_location hv) hr)
  unfold Variable.location
  split
  · exact .store r _ _
  · exact .storeGlobal r _

theorem ne_break_of_mem_toString {n : Nat} :
    ∀ c ∈ (toString n).toList, c ≠ '\n' ∧ c ≠ '\r' := by
  intro c hc
  have hdigit : c.isDigit = true := Text.isDigit_of_mem_toDigits (Nat.toList_repr ▸ hc)
  constructor <;> (rintro rfl; cases hdigit)

theorem notes_append {before after : String} (hbefore : ∀ c ∈ before.toList, c ≠ '\n' ∧ c ≠ '\r')
    (hafter : ∀ c ∈ after.toList, c ≠ '\n' ∧ c ≠ '\r') : f.Notes (before ++ after) := by
  refine .inl (.of_forall ?_)
  rw [String.toList_append]
  exact List.forall_mem_append.mpr ⟨hbefore, hafter⟩

end Function

/-! ## The register file at work -/

namespace Assemble

variable {f : Function} {size : Nat} {α : Type}

/-- An operation on the register file that keeps to the function. -/
abbrev Speaks (f : Function) (size : Nat) (x : Assemble α) (R : α → Prop) : Prop :=
  f.Keeps size (fun a : Assembler => a.file.All (Register.Of f size)) (·.journal.toList) x R

theorem speaks_file : Speaks f size file fun file => file.All (Register.Of f size) :=
  Function.Keeps.of_silent fun a r a' ha hrun => by cases hrun; exact ⟨ha, ha, rfl⟩

theorem speaks_note (level : LogLevel) (text : String) :
    Speaks f size (note level text) fun _ => True :=
  Function.Keeps.of_silent fun a r a' ha hrun => by cases hrun; exact ⟨ha, trivial, rfl⟩

theorem speaks_onFile {g : RegisterFile → RegisterFile}
    (h : ∀ file, file.All (Register.Of f size) → (g file).All (Register.Of f size)) :
    Speaks f size (onFile g) fun _ => True :=
  Function.Keeps.of_silent fun a r a' ha hrun => by cases hrun; exact ⟨h a.file ha, trivial, rfl⟩

/-- A change of the register file that leaves the registers. -/
theorem speaks_account {g : RegisterFile → RegisterFile}
    (h : ∀ file, (g file).registers = file.registers) : Speaks f size (onFile g) fun _ => True :=
  speaks_onFile fun pool hfile => by rwa [RegisterFile.All, h pool]

theorem speaks_record {event : Event} (hline : ∀ l, event = .emits l → f.Writes size l)
    (hcall : ∀ c, event ≠ .takes (.operand (.result c))) :
    Speaks f size (record event) fun _ => True := by
  intro a r a' ha hrun
  cases hrun
  exact ⟨ha, trivial, [⟨event, a.file⟩], by simp, .single hline hcall a.file⟩

theorem speaks_ask (b : Binding) : Speaks f size (record (.asks b)) fun _ => True :=
  speaks_record nofun nofun

/-- **A line of the function.** -/
theorem speaks_emit {l : Line} (h : f.Writes size l) : Speaks f size (emit l) fun _ => True :=
  speaks_record (fun _ hl => Event.emits.inj hl ▸ h) nofun

theorem speaks_clear (i : Nat) : Speaks f size (onFile (·.clear i)) fun _ => True :=
  speaks_onFile fun _ h => h.clear (fun _ hr => RegisterFile.Of.cleared hr) i

theorem speaks_clearWhere (p : Register → Bool) :
    Speaks f size (onFile (·.clearWhere p)) fun _ => True :=
  speaks_onFile fun _ h => h.clearWhere (fun _ hr => RegisterFile.Of.cleared hr) p

theorem speaks_releaseOperands : Speaks f size (onFile (·.releaseOperands)) fun _ => True :=
  speaks_onFile fun _ h => h.of_releaseOperands

theorem speaks_invalidate : Speaks f size (onFile (·.invalidate)) fun _ => True :=
  speaks_onFile fun _ h => h.clearWhere (fun _ hr => RegisterFile.Of.cleared hr) _

/-- Adding a number to the stack pointer. -/
theorem writes_drop (n : Int64) : f.Writes size (.plain .add [.reg .esp, .reg .esp, .imm n]) := by
  exact .plain (.aluImmediate .add rfl _ _ _) (by decide)
    (Function.knows_triple Reg.inPool_esp Reg.inPool_esp trivial)

theorem speaks_evict (i : Nat) : Speaks f size (evict i) fun _ => True := by
  refine speaks_file.bind fun pool hfile => ?_
  have hreg := hfile.inPool_regAt i
  split
  · next n _ _ _ =>
    have hnote : f.Notes ("spill %" ++ toString n) :=
      Function.notes_append (by simp) Function.ne_break_of_mem_toString
    have hpush : f.Writes size (.noted .push [.reg (pool.regAt i)] s!"spill %{n}") :=
      .noted (.push _) (by decide) (List.forall_mem_singleton.mpr hreg) hnote
    refine (speaks_note _ _).bind fun _ _ => (speaks_emit hpush).bind fun _ _ => ?_
    exact Function.Keeps.bind (speaks_account fun _ => rfl) fun _ _ => speaks_clear i
  · next hr =>
    have hstore := Function.writes_store (hfile.mentions_of_binding hr rfl) hreg
    exact (speaks_note _ _).bind fun _ _ => (speaks_emit hstore).bind fun _ _ => speaks_clear i
  · exact .pure_bind (speaks_clear i)

theorem speaks_takeRegister : Speaks f size takeRegister fun _ => True := by
  refine speaks_file.bind fun pool _ => ?_
  split
  · exact Function.Keeps.throw _
  · next i _ => exact (speaks_evict i).bind fun _ _ => Function.Keeps.pure trivial

theorem speaks_dropReadSlots : Speaks f size dropReadSlots fun _ => True := by
  refine speaks_file.bind fun pool _ => ?_
  split
  refine Function.Keeps.bind (speaks_account fun _ => rfl) fun _ _ => ?_
  split
  · exact speaks_emit (writes_drop _)
  · exact Function.Keeps.pure trivial

theorem speaks_readSlot {reg : Reg} (hreg : reg.InPool size) (n : Nat) (slot : SpillSlot)
    (k : Nat) : Speaks f size (readSlot reg n slot k) fun _ => True := by
  have hnote : f.Notes ("fill %" ++ toString n) :=
    Function.notes_append (by simp) Function.ne_break_of_mem_toString
  refine speaks_file.bind fun pool _ => ?_
  split
  · have hpop : f.Writes size (.noted .pop [.reg reg] s!"fill %{n}") :=
      .noted (.pop _) (by decide) (List.forall_mem_singleton.mpr hreg) hnote
    exact (speaks_emit hpop).bind fun _ _ => speaks_account fun _ => rfl
  · split
    · exact Function.Keeps.throw _
    · have hload : ∀ offset,
          f.Writes size (.noted .load [.reg reg, .mem .esp offset] s!"fill %{n}") :=
        fun offset => .noted (.load _ _ _) (by decide)
          (Function.knows_pair hreg Reg.inPool_esp) hnote
      exact (speaks_emit (hload _)).bind fun _ _ => speaks_account fun _ => rfl

/-- Binding and pinning a register that was taken. -/
theorem speaks_bind {b : Binding} (hb : ∀ v, b = .var v → f.Mentions v) (i : Nat) :
    Speaks f size (onFile fun file => (file.bind i b .used).pin i) fun _ => True :=
  speaks_onFile fun _ h => (h.of_bind hb i .used).of_pin i

theorem speaks_fill (n : Nat) : Speaks f size (fill n) (Reg.InPool size) := by
  have hresult : ∀ v, Binding.intermediate n = .var v → f.Mentions v := fun _ hv => nomatch hv
  refine speaks_file.bind fun _ _ => ?_
  split
  · exact .throw_bind _
  · refine speaks_takeRegister.bind fun i _ => speaks_file.bind fun pool hfile => ?_
    have hreg := hfile.inPool_regAt i
    dsimp only
    split
    · exact Function.Keeps.throw _
    · next slot k _ =>
      exact (speaks_note _ _).bind fun _ _ => (speaks_readSlot hreg n slot k).bind fun _ _ =>
        speaks_dropReadSlots.bind fun _ _ =>
          (speaks_bind hresult i).bind fun _ _ => Function.Keeps.pure hreg

theorem speaks_loadInto {reg : Reg} (hreg : reg.InPool size) {b : Binding}
    (hb : ∀ v, b = .var v → f.Mentions v) : Speaks f size (loadInto reg b) fun _ => True := by
  cases b with
  | constant n =>
    exact speaks_emit (.plain (.movImmediate _ _) (by decide) (Function.knows_pair hreg trivial))
  | intermediate => exact Function.Keeps.pure trivial
  | var v =>
    simp only [loadInto]
    split
    · exact speaks_emit (.plain (.aluImmediate .add rfl _ _ _) (by decide)
        (Function.knows_triple hreg Reg.inPool_ebp trivial))
    · exact speaks_emit (Function.writes_load (hb v rfl) hreg)

/-- **Loading a value.** -/
theorem speaks_loadOperand {b : Binding} (hb : ∀ v, b = .var v → f.Mentions v) :
    Speaks f size (loadOperand b) (Reg.InPool size) := by
  refine (speaks_ask b).bind fun _ _ => speaks_file.bind fun pool hfile => ?_
  split
  · next i _ =>
    have huse : Speaks f size (onFile fun file => (file.use i).pin i) fun _ => True :=
      speaks_onFile fun _ h => (h.of_use i).of_pin i
    exact huse.bind fun _ _ => Function.Keeps.pure (hfile.inPool_regAt i)
  · have htake : Speaks f size (do
        let i ← takeRegister
        let f ← file
        loadInto (f.regAt i) b
        onFile fun f => (f.bind i b .used).pin i
        return f.regAt i) (Reg.InPool size) := by
      refine speaks_takeRegister.bind fun i _ => speaks_file.bind fun pool hfile => ?_
      have hreg := hfile.inPool_regAt i
      exact (speaks_loadInto hreg hb).bind fun _ _ => (speaks_bind hb i).bind fun _ _ =>
        Function.Keeps.pure hreg
    cases b with
    | intermediate n => exact speaks_fill n
    | var | constant => exact htake

/-- **Taking the register of a variable that is written.** -/
theorem speaks_bindForWrite {v : Variable} (hv : f.Mentions v) :
    Speaks f size (bindForWrite v) (Reg.InPool size) := by
  have hb : ∀ w, Binding.var v = .var w → f.Mentions w := fun w hw => Binding.var.inj hw ▸ hv
  have hwrite : ∀ i, Speaks f size (do
      onFile fun f => ((f.use i).markWritten i).pin i
      return (← file).regAt i) (Reg.InPool size) := by
    intro i
    have hmark : Speaks f size (onFile fun f => ((f.use i).markWritten i).pin i) fun _ => True := by
      refine speaks_onFile fun file h => RegisterFile.All.of_pin ?_ i
      exact (h.of_use i).modify rfl fun r _ hr => hr
    exact hmark.bind fun _ _ => speaks_file.bind fun pool hfile =>
      Function.Keeps.pure (hfile.inPool_regAt i)
  refine (speaks_ask _).bind fun _ _ => speaks_file.bind fun pool _ => ?_
  split
  · next i _ => exact .pure_bind (hwrite i)
  · refine speaks_takeRegister.bind fun i _ => ?_
    have hbind : Speaks f size (onFile (·.bind i (.var v) .used)) fun _ => True :=
      speaks_onFile fun _ h => h.of_bind hb i .used
    exact hbind.bind fun _ _ => .pure_bind (hwrite i)

/-- **Taking a register for a result.** -/
theorem speaks_bindResult (n : Nat) : Speaks f size (bindResult n) (Reg.InPool size) := by
  have hresult : ∀ v, Binding.intermediate n = .var v → f.Mentions v := fun _ hv => nomatch hv
  refine (speaks_ask _).bind fun _ _ => speaks_releaseOperands.bind fun _ _ =>
    speaks_takeRegister.bind fun i _ => ?_
  have hbind : Speaks f size (onFile (·.bind i (.intermediate n) .used)) fun _ => True :=
    speaks_onFile fun _ h => h.of_bind hresult i .used
  exact hbind.bind fun _ _ =>
    speaks_file.bind fun pool hfile => Function.Keeps.pure (hfile.inPool_regAt i)

/-- **Ending an expression.** -/
theorem speaks_endExpression : Speaks f size endExpression fun _ => True := by
  have hlast : Speaks f size (onFile fun f => { f with callStarts := [] }) fun _ => True :=
    speaks_account fun _ => rfl
  have hforget : Speaks f size (onFile fun f => f.releaseOperands.clearIntermediates)
      fun _ => True :=
    speaks_onFile fun _ h =>
      h.of_releaseOperands.clearWhere (fun _ hr => RegisterFile.Of.cleared hr) _
  refine hforget.bind fun _ _ => speaks_file.bind fun pool _ => ?_
  split
  · exact .pure_bind hlast
  · next first rest _ =>
    have hdrop : Speaks f size (do
        note .warn s!"dropping {pool.stackDepth - first.position} stack word(s) left over by an expression"
        instruction .add
          [.reg .esp, .reg .esp, .imm (Int64.ofNat (pool.stackDepth - first.position))]
        onFile fun f => { f with stackDepth := first.position, spills := [] }
        onFile fun f => { f with callStarts := [] }) fun _ => True :=
      (speaks_note _ _).bind fun _ _ => (speaks_emit (writes_drop _)).bind fun _ _ =>
        Function.Keeps.bind (speaks_account fun _ => rfl) fun _ _ => hlast
    split
    · exact .throw_bind _
    · exact hdrop

/-! ### Calls and stores -/

theorem speaks_beginCall : Speaks f size beginCall fun _ => True := by
  refine speaks_file.bind fun pool _ => (Function.Keeps.forM fun i _ => ?_).bind
    fun _ _ => speaks_account fun _ => rfl
  refine speaks_file.bind fun pool _ => ?_
  split
  · exact speaks_evict i
  · exact Function.Keeps.pure trivial

theorem speaks_endCall (name : String) (arity : Nat) :
    Speaks f size (endCall name arity) fun _ => True := by
  refine speaks_file.bind fun pool hfile => ?_
  have hregisters : (pool.endCall name arity).2.registers = pool.registers := by
    simp only [RegisterFile.endCall]
    split
    · rfl
    · split
      · rfl
      · split <;> rfl
  generalize pool.endCall name arity = p at hregisters
  obtain ⟨outcome, file'⟩ := p
  have hset : Speaks f size (onFile fun _ => file') fun _ => True :=
    speaks_onFile fun _ _ => by rwa [RegisterFile.All, show file'.registers = _ from hregisters]
  refine hset.bind fun _ _ => ?_
  split
  · exact Function.Keeps.pure trivial
  · exact Function.Keeps.throw _

theorem speaks_storeWhere (chosen : Variable → Bool) :
    Speaks f size (storeWhere chosen) fun _ => True := by
  -- clearing the marks changes no register's name and no variable it holds
  have hkeep : Speaks f size (onFile fun f => { f with
      registers := f.registers.map fun r =>
        if (pendingStore? chosen r).isSome then { r with written := false } else r })
      fun _ => True := by
    refine speaks_onFile fun file h => h.map rfl fun r hr => ?_
    split
    · exact hr
    · exact hr
  refine speaks_file.bind fun pool hfile =>
    (Function.Keeps.forM fun r hr => ?_).bind fun _ _ => hkeep
  split
  · next v hv =>
    have hbinding : r.binding = some (.var v) := by
      unfold pendingStore? at hv
      split at hv
      · next w _ hw =>
        split at hv
        · cases hv
          exact hw
        · cases hv
      · cases hv
    exact speaks_emit (Function.writes_store ((hfile r hr).2 v hbinding) (hfile r hr).1)
  · exact Function.Keeps.pure trivial

/-! ### Frames -/

theorem speaks_createFrame (words : UInt64) : Speaks f size (createFrame words) fun _ => True := by
  have hpush : f.Writes size (.noted .push [.reg .ebp] "stack frame") :=
    .noted (.push _) (by decide) (List.forall_mem_singleton.mpr Reg.inPool_ebp)
      (.inl (.of_forall (by simp)))
  have hmov : f.Writes size (.plain .mov [.reg .ebp, .reg .esp]) :=
    .plain (.mov _ _) (by decide) (Function.knows_pair Reg.inPool_ebp Reg.inPool_esp)
  have hnote : f.Notes (toString words.toNat ++ " local word(s)") :=
    Function.notes_append Function.ne_break_of_mem_toString (by simp)
  have hlocals : f.Writes size (.noted .sub [.reg .esp, .reg .esp, .imm words.toInt64]
      s!"{words.toNat} local word(s)") :=
    .noted (.aluImmediate .sub rfl _ _ _) (by decide)
      (Function.knows_triple Reg.inPool_esp Reg.inPool_esp trivial) hnote
  have hregisters : Speaks f size (do
      instruction .pusha []
      onFile fun f => { f.invalidate with stackDepth := 0, spills := [], callStarts := [] })
      fun _ => True := by
    refine (speaks_emit (.plain .pusha (by decide) nofun)).bind fun _ _ => ?_
    exact speaks_onFile fun file h => h.map rfl fun r hr => RegisterFile.Of.cleared hr
  refine (speaks_emit hpush).bind fun _ _ => (speaks_emit hmov).bind fun _ _ => ?_
  split
  · exact (speaks_emit hlocals).bind fun _ _ => hregisters
  · exact hregisters

theorem speaks_destroyFrame : Speaks f size destroyFrame fun _ => True := by
  have hmov : f.Writes size (.plain .mov [.reg .esp, .reg .ebp]) :=
    .plain (.mov _ _) (by decide) (Function.knows_pair Reg.inPool_esp Reg.inPool_ebp)
  have hpop : f.Writes size (.plain .pop [.reg .ebp]) :=
    .plain (.pop _) (by decide) (List.forall_mem_singleton.mpr Reg.inPool_ebp)
  exact (speaks_emit (.plain .popa (by decide) nofun)).bind fun _ _ =>
    (speaks_emit hmov).bind fun _ _ => speaks_emit hpop

end Assemble

end WordC
