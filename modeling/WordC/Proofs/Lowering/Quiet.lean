import Mathlib
import WordC.Lowering.Assembler
import WordC.Proofs.Stateful
import WordC.Proofs.Lowering.Held
/-!
# Operations inside an expression

Bringing values into registers and making room for them never emits a line that
control passes through. `Quiet` says so of an operation on the register file,
and that a register is marked written only while it holds a variable. `Plain`
adds that empty registers stay empty until one is asked for.
-/

namespace WordC

/-- Control joins or leaves at the line. -/
def Line.isEdge : Line → Bool
  | .label _ | .instruction .jmp _ _ | .instruction .jz _ _ => true
  | _ => false

/-- Control does not pass through the line in any other way than to the next
one. -/
def Line.isQuiet (l : Line) : Bool :=
  !l.isEdge && l.mnemonic? != some .ret

/-- The event is none that says where an expression or an edge is. -/
def Event.isQuiet : Event → Bool
  | .takes _ => false
  | .asks _ => true
  | .emits l => l.isQuiet

/-- A register is asked for. -/
def Event.isAsk : Event → Bool
  | .asks _ => true
  | _ => false

namespace Register

/-- The register is marked written only if it holds a variable. -/
def WrittenVariable (r : Register) : Prop :=
  r.written = true → ∃ v, r.binding = some (.var v)

/-- The register holds nothing. -/
def Empty (r : Register) : Prop :=
  r.state = .empty ∧ r.binding = none

end Register

namespace RegisterFile

/-- Every register has a property. -/
def All (P : Register → Prop) (f : RegisterFile) : Prop :=
  ∀ r ∈ f.registers, P r

variable {P : Register → Prop} {f f' : RegisterFile} {i : Nat}

/-- Changing one register. -/
theorem All.modify (h : f.All P) {g : Register → Register}
    (hf : f'.registers = f.registers.modify i g)
    (hg : ∀ r, f.registers[i]? = some r → P r → P (g r)) : f'.All P := by
  intro r hr
  obtain ⟨j, hj⟩ := List.mem_iff_getElem?.1 hr
  rw [hf, List.getElem?_modify] at hj
  obtain ⟨r', hr', rfl⟩ := Option.map_eq_some_iff.1 hj
  have hmem := h r' (List.mem_of_getElem? hr')
  split
  · next hij => exact hg r' (hij ▸ hr') hmem
  · exact hmem

/-- Replacing one register. -/
theorem All.set (h : f.All P) {r : Register} (hf : f'.registers = f.registers.set i r) (hr : P r) :
    f'.All P := by
  intro r' hr'
  rw [hf] at hr'
  rcases List.mem_or_eq_of_mem_set hr' with hr' | rfl
  · exact h r' hr'
  · exact hr

/-- Changing every register. -/
theorem All.map (h : f.All P) {g : Register → Register} (hf : f'.registers = f.registers.map g)
    (hg : ∀ r, P r → P (g r)) : f'.All P := by
  intro r hr
  rw [hf] at hr
  obtain ⟨r', hr', rfl⟩ := List.mem_map.1 hr
  exact hg r' (h r' hr')

theorem All.touch (h : f.All P) (hP : ∀ r t, P r → P { r with lastUse := t }) (i : Nat) :
    (f.touch i).All P :=
  h.modify rfl fun r _ => hP r _

theorem All.setState {state : RegisterState} (h : f.All P)
    (hP : ∀ r, P r → P { r with state := state }) (i : Nat) : (f.setState i state).All P := by
  unfold RegisterFile.setState
  split
  · exact h
  · next r hr => exact h.set rfl (hP r (h r (List.mem_of_getElem? hr)))

theorem All.clear (h : f.All P) (hP : ∀ r, P r → P r.cleared) (i : Nat) : (f.clear i).All P := by
  unfold RegisterFile.clear
  split
  · exact h
  · next r hr => exact h.set rfl (hP r (h r (List.mem_of_getElem? hr)))

theorem All.clearWhere (h : f.All P) (hP : ∀ r, P r → P r.cleared) (p : Register → Bool) :
    (f.clearWhere p).All P := by
  refine h.map rfl fun r hr => ?_
  split
  · exact hP r hr
  · exact hr

theorem registers_pin (f : RegisterFile) (i : Nat) : (f.pin i).registers = f.registers := by
  unfold pin
  split <;> rfl

theorem size_bind (f : RegisterFile) (i : Nat) (b : Binding) (state : RegisterState) :
    (f.bind i b state).size = f.size := by
  have hsame := (sameOutside_setState { f with registers := f.registers.modify i fun r =>
    { r with binding := some b, written := false } } i state).trans (sameOutside_touch _ i)
  rw [bind, size_congr hsame.held]
  exact List.length_modify ..

/-- Ending the use of registers one after the other. -/
theorem All.releaseOperands (h : f.All P) (hP : ∀ (g : RegisterFile) i, g.All P → (g.release i).All P) :
    f.releaseOperands.All P := by
  suffices ∀ (is : List Nat) (g : RegisterFile), g.All P → (is.foldl release g).All P from
    this f.pinned { f with pinned := [] } h
  intro is
  induction is with
  | nil => exact fun _ hg => hg
  | cons i is ih => exact fun g hg => ih _ (hP g i hg)

/-! ## What is written -/

theorem WrittenVariable.cleared (r : Register) : r.cleared.WrittenVariable :=
  nofun

theorem All.use (h : f.All Register.WrittenVariable) (i : Nat) :
    (f.use i).All Register.WrittenVariable :=
  (h.touch (fun _ _ hr => hr) i).setState (fun _ hr => hr) i

theorem All.bind (h : f.All Register.WrittenVariable) (i : Nat) (b : Binding)
    (state : RegisterState) : (f.bind i b state).All Register.WrittenVariable := by
  have hbound : RegisterFile.All Register.WrittenVariable { f with
      registers := f.registers.modify i fun r => { r with binding := some b, written := false } } :=
    h.modify rfl fun r _ _ => nofun
  exact (hbound.setState (fun _ hr => hr) i).touch (fun _ _ hr => hr) i

theorem All.release (h : f.All Register.WrittenVariable) (i : Nat) :
    (f.release i).All Register.WrittenVariable := by
  unfold RegisterFile.release
  split
  · exact h.clear (fun r _ => WrittenVariable.cleared r) i
  · exact h.setState (fun _ hr => hr) i
  · exact h

/-- Marking the register of a variable. -/
theorem All.markWritten (h : f.All Register.WrittenVariable) {v : Variable}
    (hi : i < f.size → f.bindingAt i = some (.var v)) :
    (f.markWritten i).All Register.WrittenVariable := by
  refine h.modify rfl fun r hr _ _ => ⟨v, ?_⟩
  have := hi (List.getElem?_eq_some_iff.1 hr).1
  rwa [bindingAt, hr] at this

/-! ## What is empty -/

theorem Empty.cleared (r : Register) : r.cleared.Empty :=
  ⟨rfl, rfl⟩

/-- There is nothing to release where nothing is held. -/
theorem All.release_empty (h : f.All Register.Empty) (i : Nat) :
    (f.release i).All Register.Empty := by
  have hnone : f.bindingAt i = none := by
    rw [bindingAt]
    cases hr : f.registers[i]? with
    | none => rfl
    | some r => exact (h r (List.mem_of_getElem? hr)).2
  unfold RegisterFile.release
  rwa [hnone]

/-- **Forgetting everything leaves every register empty.** -/
theorem all_empty_invalidate (f : RegisterFile) : f.invalidate.All Register.Empty := by
  intro r hr
  obtain ⟨r', -, rfl⟩ := List.mem_map.1 hr
  exact Empty.cleared r'

end RegisterFile

/-! ## Quiet operations -/

/-- The journal has grown by quiet events, and written registers still hold
variables. -/
structure Assembler.Adds (a a' : Assembler) (xs : List Moment) : Prop where
  journal : a'.journal.toList = a.journal.toList ++ xs
  quiet : ∀ x ∈ xs, x.event.isQuiet = true
  written : a.file.All Register.WrittenVariable → a'.file.All Register.WrittenVariable

/-- The journal has grown by quiet events, and empty registers have stayed empty
until one was asked for. -/
structure Assembler.AddsPlainly (a a' : Assembler) (xs : List Moment) : Prop extends
    Assembler.Adds a a' xs where
  asked : ∀ x, xs.find? (·.event.isAsk) = some x → a.file.All Register.Empty →
    x.file.All Register.Empty
  empty : xs.find? (·.event.isAsk) = none → a.file.All Register.Empty → a'.file.All Register.Empty

theorem Assembler.Adds.append {a a₁ a₂ : Assembler} {xs ys : List Moment} (h : a.Adds a₁ xs)
    (h' : a₁.Adds a₂ ys) : a.Adds a₂ (xs ++ ys) where
  journal := by rw [h'.journal, h.journal, List.append_assoc]
  quiet := List.forall_mem_append.2 ⟨h.quiet, h'.quiet⟩
  written ha := h'.written (h.written ha)

theorem Assembler.AddsPlainly.append {a a₁ a₂ : Assembler} {xs ys : List Moment}
    (h : a.AddsPlainly a₁ xs) (h' : a₁.AddsPlainly a₂ ys) : a.AddsPlainly a₂ (xs ++ ys) where
  toAdds := h.toAdds.append h'.toAdds
  asked x hx ha := by
    rw [List.find?_append] at hx
    cases hxs : xs.find? (·.event.isAsk) with
    | some x' => exact h.asked x (by rwa [hxs] at hx ⊢) ha
    | none => exact h'.asked x (by rwa [hxs] at hx) (h.empty hxs ha)
  empty hnone ha := by
    rw [List.find?_append, Option.or_eq_none_iff] at hnone
    exact h'.empty hnone.2 (h.empty hnone.1 ha)

namespace Assemble

variable {α β : Type} {x : Assemble α} {y : α → Assemble β}

/-- **The operation emits nothing that control passes through.** -/
def Quiet (x : Assemble α) : Prop :=
  ∀ a r a', x a = .ok r a' → ∃ xs, a.Adds a' xs

/-- **The operation emits nothing that control passes through**, and fills no
register without asking for it. -/
def Plain (x : Assemble α) : Prop :=
  ∀ a r a', x a = .ok r a' → ∃ xs, a.AddsPlainly a' xs

theorem Plain.quiet (h : Plain x) : Quiet x := by
  intro a r a' hx
  obtain ⟨xs, hxs⟩ := h a r a' hx
  exact ⟨xs, hxs.toAdds⟩

theorem Quiet.bind (h : Quiet x) (h' : ∀ r, Quiet (y r)) : Quiet (x >>= y) := by
  intro a r a' hrun
  obtain ⟨r₁, a₁, hx, hy⟩ := bind_eq_ok.1 hrun
  obtain ⟨xs, hxs⟩ := h a r₁ a₁ hx
  obtain ⟨ys, hys⟩ := h' r₁ a₁ r a' hy
  exact ⟨xs ++ ys, hxs.append hys⟩

theorem Plain.bind (h : Plain x) (h' : ∀ r, Plain (y r)) : Plain (x >>= y) := by
  intro a r a' hrun
  obtain ⟨r₁, a₁, hx, hy⟩ := bind_eq_ok.1 hrun
  obtain ⟨xs, hxs⟩ := h a r₁ a₁ hx
  obtain ⟨ys, hys⟩ := h' r₁ a₁ r a' hy
  exact ⟨xs ++ ys, hxs.append hys⟩

/-- An operation that leaves the journal and the registers as they are. -/
theorem plain_of_same (h : ∀ a r a', x a = .ok r a' →
    a'.journal = a.journal ∧ a'.file.registers = a.file.registers) : Plain x := by
  intro a r a' hx
  obtain ⟨hjournal, hregisters⟩ := h a r a' hx
  refine ⟨[], ⟨by simp [hjournal], nofun, fun ha => ?_⟩, nofun, fun _ ha => ?_⟩ <;>
    simpa only [RegisterFile.All, hregisters] using ha

theorem plain_pure (r : α) : Plain (pure r : Assemble α) :=
  plain_of_same fun a r a' h => by cases h; exact ⟨rfl, rfl⟩

theorem plain_throw (e : LoweringError) : Plain (throw e : Assemble α) :=
  nofun

theorem plain_file : Plain file :=
  plain_of_same fun a r a' h => by cases h; exact ⟨rfl, rfl⟩

theorem plain_note (level : LogLevel) (text : String) : Plain (note level text) :=
  plain_of_same fun a r a' h => by cases h; exact ⟨rfl, rfl⟩

/-- A change of the register file. -/
theorem quiet_onFile {g : RegisterFile → RegisterFile}
    (h : ∀ f, f.All Register.WrittenVariable → (g f).All Register.WrittenVariable) :
    Quiet (onFile g) := by
  intro a r a' hx
  cases hx
  exact ⟨[], by simp, nofun, h a.file⟩

theorem plain_onFile {g : RegisterFile → RegisterFile}
    (h : ∀ f, f.All Register.WrittenVariable → (g f).All Register.WrittenVariable)
    (h' : ∀ f, f.All Register.Empty → (g f).All Register.Empty) : Plain (onFile g) := by
  intro a r a' hx
  cases hx
  exact ⟨[], ⟨by simp, nofun, h a.file⟩, nofun, fun _ => h' a.file⟩

/-- A change of the register file that leaves the registers. -/
theorem plain_account {g : RegisterFile → RegisterFile}
    (h : ∀ f, (g f).registers = f.registers) : Plain (onFile g) :=
  plain_of_same fun a r a' hx => by cases hx; exact ⟨rfl, h a.file⟩

/-- A line that control only runs through. -/
theorem plain_emit {l : Line} (h : l.isQuiet = true) : Plain (emit l) := by
  intro a r a' hx
  cases hx
  refine ⟨[⟨.emits l, a.file⟩], ⟨by simp, ?_, id⟩, nofun, fun _ => id⟩
  rintro x hx
  rw [List.mem_singleton.1 hx]
  exact h

/-- Once a register was asked for, registers may be filled. -/
theorem plain_ask {b : Binding} {x : Assemble α} (h : Quiet x) :
    Plain (record (.asks b) >>= fun _ => x) := by
  intro a r a' hrun
  obtain ⟨_, a₁, hask, hx⟩ := bind_eq_ok.1 hrun
  cases hask
  obtain ⟨xs, hxs⟩ := h _ r a' hx
  have hone : a.Adds { a with journal := a.journal.push ⟨.asks b, a.file⟩ } [⟨.asks b, a.file⟩] :=
    ⟨by simp, fun x hx => by rw [List.mem_singleton.1 hx]; rfl, id⟩
  exact ⟨_, hone.append hxs, fun x hx ha => by cases hx; exact ha, nofun⟩

theorem plain_forM {γ : Type} {g : γ → Assemble Unit} (h : ∀ c, Plain (g c)) (cs : List γ) :
    Plain (cs.forM g) := by
  induction cs with
  | nil => exact plain_pure _
  | cons c cs ih => exact (h c).bind fun _ => ih

/-! ## The operations -/

theorem plain_clear (i : Nat) : Plain (onFile (·.clear i)) :=
  plain_onFile (fun _ h => h.clear (fun r _ => RegisterFile.WrittenVariable.cleared r) i)
    fun _ h => h.clear (fun r _ => RegisterFile.Empty.cleared r) i

theorem plain_clearWhere (p : Register → Bool) : Plain (onFile (·.clearWhere p)) :=
  plain_onFile (fun _ h => h.clearWhere (fun r _ => RegisterFile.WrittenVariable.cleared r) p)
    fun _ h => h.clearWhere (fun r _ => RegisterFile.Empty.cleared r) p

theorem plain_releaseOperands : Plain (onFile (·.releaseOperands)) :=
  plain_onFile (fun _ h => h.releaseOperands fun _ i hg => hg.release i)
    fun _ h => h.releaseOperands fun _ i hg => hg.release_empty i

theorem plain_evict (i : Nat) : Plain (evict i) := by
  refine plain_file.bind fun f => ?_
  split
  · refine (plain_note _ _).bind fun _ => (plain_emit rfl).bind fun _ => ?_
    exact Plain.bind (plain_account fun _ => rfl) fun _ => plain_clear i
  · refine (plain_note _ _).bind fun _ => Plain.bind (plain_emit rfl) fun _ => plain_clear i
  · exact Plain.bind (plain_pure ()) fun _ => plain_clear i

theorem plain_takeRegister : Plain takeRegister := by
  refine plain_file.bind fun f => ?_
  split
  · exact plain_throw _
  · next i _ => exact (plain_evict i).bind fun _ => plain_pure _

theorem plain_dropReadSlots : Plain dropReadSlots := by
  refine plain_file.bind fun f => ?_
  split
  refine Plain.bind (plain_account fun _ => rfl) fun _ => ?_
  split
  · exact plain_emit rfl
  · exact plain_pure _

theorem plain_readSlot (reg : Reg) (n : Nat) (slot : SpillSlot) (k : Nat) :
    Plain (readSlot reg n slot k) := by
  refine plain_file.bind fun f => ?_
  split
  · exact (plain_emit rfl).bind fun _ => plain_account fun _ => rfl
  · split
    · exact plain_throw _
    · exact (plain_emit rfl).bind fun _ => plain_account fun _ => rfl

/-- Binding and pinning a register that was taken. -/
theorem quiet_bind (i : Nat) (b : Binding) : Quiet (onFile fun f => (f.bind i b .used).pin i) := by
  refine quiet_onFile fun f h => ?_
  have := h.bind i b .used
  rwa [RegisterFile.All, RegisterFile.registers_pin]

theorem quiet_fill (n : Nat) : Quiet (fill n) := by
  refine plain_file.quiet.bind fun f => ?_
  split
  on_goal 1 => refine (plain_throw _).quiet.bind fun _ => ?_
  all_goals
    refine plain_takeRegister.quiet.bind fun i => plain_file.quiet.bind fun f => ?_
    dsimp only
    split
    · exact (plain_throw _).quiet
    · next slot k _ =>
      exact (plain_note _ _).quiet.bind fun _ => (plain_readSlot _ n slot k).quiet.bind fun _ =>
        plain_dropReadSlots.quiet.bind fun _ => (quiet_bind i _).bind fun _ => (plain_pure _).quiet

theorem plain_loadInto (reg : Reg) (b : Binding) : Plain (loadInto reg b) := by
  cases b with
  | constant => exact plain_emit rfl
  | intermediate => exact plain_pure _
  | var v =>
    have hload : Plain (instruction .load [.reg reg, v.location]) := plain_emit rfl
    have haddress : ∀ offset, Plain (instruction .add [.reg reg, .reg .ebp, .imm offset]) :=
      fun _ => plain_emit rfl
    simp only [loadInto]
    split
    · exact haddress _
    · exact hload

/-- **Loading a value.** -/
theorem plain_loadOperand (b : Binding) : Plain (loadOperand b) := by
  refine plain_ask (plain_file.quiet.bind fun f => ?_)
  split
  · next i _ =>
    refine (quiet_onFile fun f h => ?_).bind fun _ => (plain_pure _).quiet
    have := h.use i
    rwa [RegisterFile.All, RegisterFile.registers_pin]
  · have htake : Quiet (do
        let i ← takeRegister
        let f ← file
        loadInto (f.regAt i) b
        onFile fun f => (f.bind i b .used).pin i
        return f.regAt i) :=
      plain_takeRegister.quiet.bind fun i => plain_file.quiet.bind fun f =>
        (plain_loadInto _ b).quiet.bind fun _ => (quiet_bind i b).bind fun _ => (plain_pure _).quiet
    cases b with
    | intermediate n => exact quiet_fill n
    | var | constant => exact htake

/-- Marking the variable in register `i` written. -/
theorem adds_write {v : Variable} {i : Nat} {a a' : Assembler} {r : Reg}
    (hi : i < a.file.size → a.file.bindingAt i = some (.var v))
    (h : (do
      onFile fun f => ((f.use i).markWritten i).pin i
      return (← file).regAt i : Assemble Reg) a = .ok r a') : a.Adds a' [] := by
  cases h
  refine ⟨by simp, nofun, fun ha => ?_⟩
  have hheld := (RegisterFile.sameOutside_use a.file i).held
  have huse : i < (a.file.use i).size → (a.file.use i).bindingAt i = some (.var v) := by
    rw [RegisterFile.size_congr hheld, RegisterFile.bindingAt_congr hheld]
    exact hi
  have := (ha.use i).markWritten huse
  change RegisterFile.All _ (((a.file.use i).markWritten i).pin i)
  rwa [RegisterFile.All, RegisterFile.registers_pin]

/-- **Taking the register of a variable that is written.** -/
theorem plain_bindForWrite (v : Variable) : Plain (bindForWrite v) := by
  refine plain_ask fun a r a' hrun => ?_
  obtain ⟨f, a₀, hfile, hrun⟩ := bind_eq_ok.1 hrun
  cases hfile
  cases hfind : a.file.find? (.var v) with
  | some i =>
    rw [hfind] at hrun
    exact ⟨_, adds_write (fun _ => RegisterFile.bindingAt_of_find? hfind) hrun⟩
  | none =>
    rw [hfind] at hrun
    -- the binds of the `match` and of what follows it, in one row
    have hbind : (do
        let i ← takeRegister
        onFile (·.bind i (.var v) .used)
        onFile fun f => ((f.use i).markWritten i).pin i
        return (← file).regAt i : Assemble Reg) a = .ok r a' := by
      rw [← hrun]
      rfl
    obtain ⟨i, a₁, htake, hbind⟩ := bind_eq_ok.1 hbind
    obtain ⟨_, a₂, hgive, hwrite⟩ := bind_eq_ok.1 hbind
    obtain ⟨xs, hxs⟩ := plain_takeRegister.quiet _ _ _ htake
    obtain ⟨ys, hys⟩ := quiet_onFile (fun _ h => h.bind i (.var v) .used) _ _ _ hgive
    cases hgive
    refine ⟨_, hxs.append (hys.append (adds_write (v := v) (fun hi => ?_) hwrite))⟩
    have hi : i < a₁.file.size := by
      rwa [← RegisterFile.size_bind a₁.file i (.var v) .used]
    have hg := RegisterFile.given_bind hi (.var v) .used
    exact (hg.bindingAt i).trans (if_pos rfl)

/-- **Taking a register for a result.** -/
theorem plain_bindResult (n : Nat) : Plain (bindResult n) := by
  refine plain_ask (plain_releaseOperands.quiet.bind fun _ => plain_takeRegister.quiet.bind fun i => ?_)
  exact (quiet_onFile fun _ h => h.bind i _ .used).bind fun _ => plain_file.quiet.bind fun f =>
    (plain_pure _).quiet

/-- **Ending an expression.** -/
theorem plain_endExpression : Plain endExpression := by
  have hlast : Plain (onFile fun f => { f with callStarts := [] }) := plain_account fun _ => rfl
  refine Plain.bind ?_ fun _ => plain_file.bind fun f => ?_
  · exact plain_onFile
      (fun f h => (h.releaseOperands fun _ i hg => hg.release i).clearWhere
        (fun r _ => RegisterFile.WrittenVariable.cleared r) _)
      fun f h => (h.releaseOperands fun _ i hg => hg.release_empty i).clearWhere
        (fun r _ => RegisterFile.Empty.cleared r) _
  · split
    · exact Plain.bind (plain_pure ()) fun _ => hlast
    · next first rest _ =>
      -- words that an expression left over are dropped, with a warning
      have hdrop : Plain (do
          note .warn s!"dropping {f.stackDepth - first.position} stack word(s) left over by an expression"
          instruction .add [.reg .esp, .reg .esp, .imm (Int64.ofNat (f.stackDepth - first.position))]
          onFile fun f => { f with stackDepth := first.position, spills := [] }
          onFile fun f => { f with callStarts := [] }) :=
        (plain_note _ _).bind fun _ => Plain.bind (plain_emit rfl) fun _ =>
          Plain.bind (plain_account fun _ => rfl) fun _ => hlast
      split
      · exact (plain_throw _).bind fun _ => hdrop
      · exact hdrop

/-! ## Calls and stores -/

theorem plain_beginCall : Plain beginCall := by
  refine plain_file.bind fun f => Plain.bind (plain_forM (fun i => plain_file.bind fun f => ?_) _)
    fun _ => plain_account fun _ => rfl
  split
  · exact plain_evict i
  · exact plain_pure _

theorem plain_outcome (outcome : Except LoweringError Unit) :
    Plain (match outcome with
      | .ok _ => pure ()
      | .error e => throw e : Assemble Unit) := by
  cases outcome with
  | ok => exact plain_pure _
  | error e => exact plain_throw e

theorem plain_endCall (name : String) (arity : Nat) : Plain (endCall name arity) := by
  intro a r a' hrun
  obtain ⟨f, a₁, hfile, hrun⟩ := bind_eq_ok.1 hrun
  cases hfile
  have hregisters : (a.file.endCall name arity).2.registers = a.file.registers := by
    simp only [RegisterFile.endCall]
    split
    · rfl
    · split
      · rfl
      · split <;> rfl
  generalize a.file.endCall name arity = p at hregisters hrun
  obtain ⟨outcome, f⟩ := p
  obtain ⟨_, a₂, hset, hrun⟩ := bind_eq_ok.1 hrun
  cases hset
  have hsame : f.registers = a.file.registers := hregisters
  obtain ⟨xs, hxs⟩ := plain_outcome _ _ _ _ hrun
  refine ⟨xs, ⟨hxs.journal, hxs.quiet, fun h => hxs.written ?_⟩,
    fun x hx h => hxs.asked x hx ?_, fun hnone h => hxs.empty hnone ?_⟩ <;>
    simpa only [RegisterFile.All, hsame] using h

theorem plain_storeWhere (chosen : Variable → Bool) : Plain (storeWhere chosen) := by
  refine plain_file.bind fun f => Plain.bind (plain_forM (fun r => ?_) _) fun _ => ?_
  · split
    · exact plain_emit rfl
    · exact plain_pure _
  · refine plain_onFile (fun f h => h.map rfl fun r hr => ?_) fun f h => h.map rfl fun r hr => ?_
    · split
      · exact nofun
      · exact hr
    · split
      · exact hr
      · exact hr

/-! ## Frames -/

theorem plain_createFrame (words : UInt64) : Plain (createFrame words) := by
  have hforget : Plain (onFile fun f =>
      { f.invalidate with stackDepth := 0, spills := [], callStarts := [] }) := by
    refine plain_onFile (fun f h => h.map rfl fun r _ => ?_) fun f _ => ?_
    · exact RegisterFile.WrittenVariable.cleared r
    · exact RegisterFile.all_empty_invalidate f
  have hregisters : Plain (do
      instruction .pusha []
      onFile fun f => { f.invalidate with stackDepth := 0, spills := [], callStarts := [] }) :=
    Plain.bind (plain_emit rfl) fun _ => hforget
  refine (plain_emit rfl).bind fun _ => Plain.bind (plain_emit rfl) fun _ => ?_
  split
  · exact (plain_emit rfl).bind fun _ => hregisters
  · exact hregisters

end Assemble

end WordC
