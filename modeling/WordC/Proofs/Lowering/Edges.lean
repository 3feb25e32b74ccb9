import Mathlib
import WordC.Lowering.Program
import WordC.Proofs.Lowering.Inner
/-!
# Registers at control edges

Control joins at a label and leaves at a jump, and the code on the other side
knows nothing of the registers here. So before such a line every written variable
is stored, and behind it nothing is taken from a register that was filled before
it. The journal of a body shows both (`Flushed`).
-/

namespace WordC

namespace Moment

/-- Control joins or leaves at the line that is emitted. -/
def isEdge (x : Moment) : Bool :=
  x.line?.any Line.isEdge

/-- The line that is emitted leaves the function. -/
def isReturn (x : Moment) : Bool :=
  x.line?.any fun l => l.mnemonic? == some .ret

end Moment

namespace Register

/-- The variable in the register is stored. -/
def Stored (r : Register) : Prop :=
  r.written = false

/-- A file-scope variable in the register is stored. -/
def GlobalStored (r : Register) : Prop :=
  ∀ v : Variable, r.binding = some (.var v) → v.isGlobal = true → r.written = false

end Register

/-- An edge has come, and no register was asked for since. -/
def CrossedLast (xs : List Moment) : Prop :=
  ∃ before x since, xs = before ++ x :: since ∧ x.isEdge = true ∧
    ∀ y ∈ since, y.event.isAsk = false

/-- **No value survives an edge in a register.** -/
structure Flushed (xs : List Moment) : Prop where
  /-- Nothing is left to be stored at an edge. -/
  stored : ∀ x ∈ xs, x.isEdge = true → x.file.All Register.Stored
  /-- Every register is empty when the first one is asked for behind an edge. -/
  emptied : ∀ before x after, xs = before ++ x :: after → x.event.isAsk = true →
    CrossedLast before → x.file.All Register.Empty
  /-- No file-scope variable is left to be stored at a return. -/
  returned : ∀ x ∈ xs, x.isReturn = true → x.file.All Register.GlobalStored

section Journals

variable {xs ys : List Moment} {x : Moment}

/-- An element of a list in two parts is in one of them. -/
theorem append_eq_split {α : Type} {xs ys before after : List α} {x : α}
    (h : xs ++ ys = before ++ x :: after) :
    (∃ gap, xs = before ++ x :: gap ∧ after = gap ++ ys) ∨
      ∃ gap, before = xs ++ gap ∧ ys = gap ++ x :: after := by
  rcases List.append_eq_append_iff.1 h with ⟨gap, rfl, hsplit⟩ | ⟨gap, rfl, hsplit⟩
  · exact .inr ⟨gap, rfl, hsplit⟩
  · cases gap with
    | nil => exact .inr ⟨[], by simp, hsplit.symm⟩
    | cons x' gap =>
      obtain ⟨rfl, rfl⟩ := List.cons.inj hsplit
      exact .inl ⟨gap, rfl, rfl⟩

theorem CrossedLast.of_append (h : CrossedLast (xs ++ ys)) (hys : ∀ y ∈ ys, y.isEdge = false) :
    CrossedLast xs ∧ ∀ y ∈ ys, y.event.isAsk = false := by
  obtain ⟨before, x, since, heq, hedge, hnone⟩ := h
  rcases append_eq_split heq with ⟨gap, rfl, rfl⟩ | ⟨gap, -, rfl⟩
  · rw [List.forall_mem_append] at hnone
    exact ⟨⟨before, x, gap, rfl, hedge, hnone.1⟩, hnone.2⟩
  · rw [hys x (by simp)] at hedge
    cases hedge

/-- One more event. -/
theorem Flushed.snoc (h : Flushed xs) (hedge : x.isEdge = true → x.file.All Register.Stored)
    (hask : x.event.isAsk = true → CrossedLast xs → x.file.All Register.Empty)
    (hret : x.isReturn = true → x.file.All Register.GlobalStored) : Flushed (xs ++ [x]) where
  stored := List.forall_mem_append.2 ⟨h.stored, by simpa using hedge⟩
  emptied before y after heq hy hlast := by
    rcases append_eq_split heq with ⟨gap, rfl, -⟩ | ⟨gap, rfl, hsplit⟩
    · exact h.emptied before y gap rfl hy hlast
    · obtain ⟨rfl, rfl, rfl⟩ : gap = [] ∧ x = y ∧ after = [] := by
        cases gap with
        | nil => simpa using hsplit
        | cons z gap => simp at hsplit
      exact hask hy (by simpa using hlast)
  returned := List.forall_mem_append.2 ⟨h.returned, by simpa using hret⟩

end Journals

/-- What no quiet line is, the line of a quiet event is not. -/
theorem Event.any_line_of_isQuiet {e : Event} (h : e.isQuiet = true) {p : Line → Bool}
    (hp : ∀ l : Line, l.isQuiet = true → p l = false) : e.line?.any p = false := by
  cases e with
  | takes => cases h
  | asks => rfl
  | emits l => exact hp l h

theorem Line.isQuiet_iff {l : Line} :
    l.isQuiet = true ↔ l.isEdge = false ∧ (l.mnemonic? == some .ret) = false := by
  simp [isQuiet]

theorem isEdge_of_isQuiet {x : Moment} (h : x.event.isQuiet = true) : x.isEdge = false :=
  Event.any_line_of_isQuiet h fun _ hl => (Line.isQuiet_iff.1 hl).1

theorem isReturn_of_isQuiet {x : Moment} (h : x.event.isQuiet = true) : x.isReturn = false :=
  Event.any_line_of_isQuiet h fun _ hl => (Line.isQuiet_iff.1 hl).2

namespace Assembler

/-- The journal is flushed so far, and goes on being flushed inside an
expression. -/
structure Settled (a : Assembler) : Prop where
  flushed : Flushed a.journal.toList
  written : a.file.All Register.WrittenVariable
  empty : CrossedLast a.journal.toList → a.file.All Register.Empty

/-- An edge may come now. -/
structure Drained (a : Assembler) : Prop where
  flushed : Flushed a.journal.toList
  stored : a.file.All Register.Stored

/-- An edge may come now, or an expression. -/
structure Blank (a : Assembler) : Prop extends Assembler.Drained a where
  empty : a.file.All Register.Empty

theorem Blank.settled {a : Assembler} (h : a.Blank) : a.Settled where
  flushed := h.flushed
  written r hr hwritten := by
    rw [h.stored r hr] at hwritten
    cases hwritten
  empty _ := h.empty

/-- An event that crosses no edge and asks for nothing. -/
theorem Settled.pass {a : Assembler} (h : a.Settled) {e : Event}
    (hedge : Moment.isEdge ⟨e, a.file⟩ = false) (hask : e.isAsk = false)
    (hret : Moment.isReturn ⟨e, a.file⟩ = true → a.file.All Register.GlobalStored) :
    Settled { a with journal := a.journal.push ⟨e, a.file⟩ } := by
  refine ⟨?_, h.written, fun hlast => ?_⟩
  · rw [Array.toList_push]
    exact h.flushed.snoc (by simp [hedge]) (by simp [hask]) hret
  · rw [Array.toList_push] at hlast
    obtain ⟨hlast, -⟩ := hlast.of_append (by simpa using hedge)
    exact h.empty hlast

/-- What an operation of an expression adds. -/
theorem Settled.add {a a' : Assembler} {xs : List Moment} (h : a.Settled)
    (hadd : a.AddsPlainly a' xs) : a'.Settled := by
  have hedge : ∀ x ∈ xs, x.isEdge = false := fun x hx => isEdge_of_isQuiet (hadd.quiet x hx)
  refine ⟨?_, hadd.written h.written, fun hlast => ?_⟩
  · rw [hadd.journal]
    refine ⟨List.forall_mem_append.2 ⟨h.flushed.stored, fun x hx => by simp [hedge x hx]⟩, ?_,
      List.forall_mem_append.2 ⟨h.flushed.returned, fun x hx => by
        simp [isReturn_of_isQuiet (hadd.quiet x hx)]⟩⟩
    intro before x after heq hask hlast
    rcases append_eq_split heq with ⟨gap, hjournal, -⟩ | ⟨gap, rfl, rfl⟩
    · exact h.flushed.emptied before x gap hjournal hask hlast
    · -- It is the first register asked for among the new events.
      obtain ⟨hlast, hnone⟩ := hlast.of_append fun y hy => hedge y (by simp [hy])
      refine hadd.asked x ?_ (h.empty hlast)
      have hgap : gap.find? (·.event.isAsk) = none := List.find?_eq_none.2 (by simpa using hnone)
      rw [List.find?_append, hgap, Option.none_or]
      exact List.find?_cons_of_pos (p := fun x : Moment => x.event.isAsk) hask
  · rw [hadd.journal] at hlast
    obtain ⟨hlast, hnone⟩ := hlast.of_append hedge
    exact hadd.empty (List.find?_eq_none.2 (by simpa using hnone)) (h.empty hlast)

end Assembler

namespace Lower

variable {α β : Type} {y : Lower α} {z : α → Lower β} {P Q R : Assembler → Prop}

/-- If the step succeeds on an assembler with `P`, it leaves one with `Q`. -/
def Leads (P : Assembler → Prop) (y : Lower α) (Q : Assembler → Prop) : Prop :=
  ∀ s r s', P s.assembler → y s = .ok r s' → Q s'.assembler

theorem Leads.bind (h : Leads P y Q) (h' : ∀ r, Leads Q (z r) R) : Leads P (y >>= z) R := by
  intro s r s' hP hrun
  obtain ⟨r₁, s₁, hy, hz⟩ := bind_eq_ok.1 hrun
  exact h' r₁ s₁ r s' (h s r₁ s₁ hP hy) hz

theorem Leads.weaken (h : Leads P y Q) (hQ : ∀ a, Q a → R a) : Leads P y R :=
  fun s r s' hP hy => hQ _ (h s r s' hP hy)

theorem leads_pure (h : ∀ a, P a → Q a) (r : α) : Leads P (pure r : Lower α) Q :=
  fun s r s' hP hy => by cases hy; exact h _ hP

theorem leads_throw (e : LoweringError) : Leads P (throw e : Lower α) Q :=
  fun s r s' _ hy => by simp at hy

theorem leads_get {y : BodyState → Lower α} (h : ∀ s, Leads P (y s) Q) : Leads P (get >>= y) Q :=
  fun s r s' hP hy => h s s r s' hP hy

/-- A change outside the assembler. -/
theorem leads_modify {g : BodyState → BodyState} (h : ∀ s, (g s).assembler = s.assembler) :
    Leads P (modify g) P :=
  fun s r s' hP hy => by cases hy; rwa [h s]

theorem leads_change {g : BodyState → BodyState} {y : Lower α}
    (h : ∀ s, (g s).assembler = s.assembler) (hy : Leads P y Q) :
    Leads P (modify g >>= fun _ => y) Q :=
  (leads_modify h).bind fun _ => hy

theorem leads_onAssembler {x : Assemble α}
    (h : ∀ a r a', P a → x a = .ok r a' → Q a') : Leads P (onAssembler x) Q := by
  intro s r s' hP hy
  obtain ⟨a, ha, rfl⟩ := onAssembler_eq_ok.1 hy
  exact h _ _ _ hP ha

/-- **A step inside an expression.** -/
theorem Inner.leads (h : Inner y) : Leads Assembler.Settled y Assembler.Settled := by
  intro s r s' hs hy
  obtain ⟨-, xs, hxs⟩ := h.plain s r s' hy
  exact hs.add hxs

/-! ## What happens at an edge -/

/-- The chosen variables are stored. -/
theorem storeWhere_stored {chosen : Variable → Bool} {a a' : Assembler} {u : Unit}
    (h : Assemble.storeWhere chosen a = .ok u a') :
    a'.file.All fun r => ∀ v, r.binding = some (.var v) → chosen v = true → r.written = false := by
  obtain ⟨_, a₁, hfile, h⟩ := bind_eq_ok.1 h
  cases hfile
  obtain ⟨_, a₂, hstores, h⟩ := bind_eq_ok.1 h
  cases h
  intro r' hr' v hv hchosen
  obtain ⟨r, -, rfl⟩ := List.mem_map.1 hr'
  cases hpending : (Assemble.pendingStore? chosen r).isSome with
  | true => simp
  | false =>
    simp only [hpending, Bool.false_eq_true, if_false] at hv ⊢
    cases hwritten : r.written with
    | false => rfl
    | true => simp [Assemble.pendingStore?, hwritten, hv, hchosen] at hpending

/-- An edge may come when the written variables are stored. -/
theorem leads_storeWritten : Leads Assembler.Settled storeWritten Assembler.Drained := by
  refine leads_onAssembler fun a u a' ha hx => ?_
  obtain ⟨xs, hxs⟩ := Assemble.plain_storeWhere _ _ _ _ hx
  have hsettled := ha.add hxs
  refine ⟨hsettled.flushed, fun r hr => ?_⟩
  cases hwritten : r.written with
  | false => exact hwritten
  | true =>
    obtain ⟨v, hv⟩ := hsettled.written r hr hwritten
    exact storeWhere_stored hx r hr v hv rfl

theorem isReturn_of_isEdge {l : Line} (file : RegisterFile) (h : l.isEdge = true) :
    Moment.isReturn ⟨.emits l, file⟩ = false := by
  cases l with
  | instruction mnemonic => cases mnemonic <;> first | rfl | cases h
  | _ => rfl

theorem flushed_edge {a : Assembler} (h : a.Drained) {l : Line} (hl : l.isEdge = true) :
    Flushed (a.journal.push ⟨.emits l, a.file⟩).toList := by
  rw [Array.toList_push]
  exact h.flushed.snoc (fun _ => h.stored) nofun (by simp [isReturn_of_isEdge _ hl])

/-- An edge. -/
theorem leads_edge {l : Line} (hl : l.isEdge = true) :
    Leads Assembler.Drained (onAssembler (Assemble.emit l)) Assembler.Drained :=
  leads_onAssembler fun a u a' ha hx => by cases hx; exact ⟨flushed_edge ha hl, ha.stored⟩

/-- An edge where nothing is held. -/
theorem leads_edge_blank {l : Line} (hl : l.isEdge = true) :
    Leads Assembler.Blank (onAssembler (Assemble.emit l)) Assembler.Blank :=
  leads_onAssembler fun a u a' ha hx => by
    cases hx
    exact ⟨⟨flushed_edge ha.toDrained hl, ha.stored⟩, ha.empty⟩

/-- Behind an edge everything is forgotten. -/
theorem leads_invalidate (hP : ∀ a, P a → Flushed a.journal.toList) :
    Leads P invalidate Assembler.Blank := by
  refine leads_onAssembler (x := Assemble.onFile (·.invalidate)) fun a u a' ha hx => ?_
  cases hx
  refine ⟨⟨hP a ha, fun r hr => ?_⟩, RegisterFile.all_empty_invalidate a.file⟩
  obtain ⟨r, -, rfl⟩ := List.mem_map.1 hr
  rfl

theorem leads_label (name : String) : Leads Assembler.Drained (label name) Assembler.Drained :=
  leads_edge rfl

theorem leads_jump (target : String) :
    Leads Assembler.Drained (instruction .jmp [.label target]) Assembler.Drained :=
  leads_edge rfl

/-- The end of an edge. -/
theorem leads_forget : Leads Assembler.Drained invalidate Assembler.Settled :=
  (leads_invalidate fun _ h => h.flushed).weaken fun _ h => h.settled

/-! ## Control structures -/

variable (f : Function)

/-- Leaving the function. -/
theorem leads_epilogue : Leads Assembler.Settled (epilogue f) Assembler.Settled := by
  -- The lines of the frame leave the registers as they are.
  have hline : ∀ l : Line, l.isQuiet = true →
      Leads (fun a => a.Settled ∧ a.file.All Register.GlobalStored) (onAssembler (Assemble.emit l))
        fun a => a.Settled ∧ a.file.All Register.GlobalStored := by
    intro l hl
    refine leads_onAssembler fun a u a' ha hx => ?_
    obtain ⟨xs, hxs⟩ := Assemble.plain_emit hl _ _ _ hx
    cases hx
    exact ⟨ha.1.add hxs, ha.2⟩
  have hstore : Leads Assembler.Settled (onAssembler Assemble.storeWrittenGlobals)
      fun a => a.Settled ∧ a.file.All Register.GlobalStored := by
    refine leads_onAssembler fun a u a' ha hx => ?_
    obtain ⟨xs, hxs⟩ := Assemble.plain_storeWhere _ _ _ _ hx
    exact ⟨ha.add hxs, storeWhere_stored hx⟩
  have hret : Leads (fun a => a.Settled ∧ a.file.All Register.GlobalStored)
      (instruction .ret [.imm (Int64.ofNat f.arity)]) Assembler.Settled := by
    refine leads_onAssembler (x := Assemble.emit _) fun a u a' ha hx => ?_
    cases hx
    exact ha.1.pass rfl rfl fun _ => ha.2
  have hframe : Leads (fun a => a.Settled ∧ a.file.All Register.GlobalStored)
      (onAssembler Assemble.destroyFrame) fun a => a.Settled ∧ a.file.All Register.GlobalStored :=
    (hline _ rfl).bind fun _ => (hline _ rfl).bind fun _ => hline _ rfl
  exact hstore.bind fun _ => hframe.bind fun _ => hret

theorem leads_returnStatement :
    Leads Assembler.Settled (returnStatement f) Assembler.Settled := by
  have hmov : ∀ r, Inner (instruction .mov [.reg .eax, .reg r]) := fun _ => inner_emit rfl
  have hrest : Leads Assembler.Settled (do
      finishExpression
      epilogue f
      invalidate) Assembler.Settled :=
    inner_finishExpression.leads.bind fun _ => (leads_epilogue f).bind fun _ =>
      (leads_invalidate fun _ h => h.flushed).weaken fun _ h => h.settled
  refine leads_change (fun _ => rfl) (leads_get fun s => ?_)
  split
  · exact (inner_expressionValue f).leads.bind fun r => (hmov r).leads.bind fun _ => hrest
  · exact hrest

theorem leads_expressionEnd : Leads Assembler.Settled (expressionEnd f) Assembler.Settled := by
  refine leads_get fun s => ?_
  split
  · exact leads_returnStatement f
  · refine inner_finishExpression.leads.bind fun _ => leads_get fun s => ?_
    split
    · exact leads_change (fun _ => rfl) (leads_storeWritten.bind fun _ =>
        (leads_label _).bind fun _ => leads_forget)
    · exact leads_pure (fun _ h => h) _

theorem leads_takeConditionTarget (rest : List Element) :
    Leads P (takeConditionTarget f rest) P := by
  intro s r s' hP hrun
  obtain ⟨_, _, hget, hrun⟩ := bind_eq_ok.1 hrun
  cases hget
  generalize s.loopHead = head, s.conditionTarget = target at hrun
  split at hrun
  · cases hrun
    exact hP
  · cases hrun
    exact hP
  · simp at hrun

theorem leads_zeroJump (rest : List Element) :
    Leads Assembler.Settled (zeroJump f rest) Assembler.Settled := by
  refine (inner_expressionValue f).leads.bind fun r => (leads_takeConditionTarget f rest).bind
    fun target => inner_finishExpression.leads.bind fun _ => leads_storeWritten.bind fun _ => ?_
  have hjz : Leads Assembler.Drained (instruction .jz [.reg r, .label target]) Assembler.Drained :=
    leads_edge rfl
  exact hjz.bind fun _ => leads_forget

theorem leads_openInner (scope : OpenScope) : Leads P (openInner scope) P :=
  leads_modify fun _ => rfl

theorem leads_openScope : Leads P (openScope f) P := by
  refine leads_get fun s => leads_change (fun _ => rfl) ?_
  cases s.opening with
  | none => exact leads_modify fun _ => rfl
  | some o =>
    cases o with
    | branch | otherwise => exact leads_openInner _
    | whileLoop base depth => exact leads_change (fun _ => rfl) (leads_openInner _)
    | forLoop =>
      refine leads_get fun s => leads_change (fun _ => rfl) ?_
      split
      · exact leads_change (fun _ => rfl) (leads_openInner _)
      · exact leads_throw _

theorem leads_closeLoop (base : LabelBase) (depth : Nat) :
    Leads Assembler.Settled (closeLoop base depth) Assembler.Settled :=
  leads_change (fun _ => rfl) (leads_change (fun _ => rfl) (leads_storeWritten.bind fun _ =>
    (leads_jump _).bind fun _ => (leads_label _).bind fun _ => leads_forget.bind fun _ =>
    leads_modify fun _ => rfl))

theorem leads_closeChain : Leads P closeChain P := by
  refine leads_modify fun s => ?_
  split <;> rfl

theorem leads_closeBranch (rest : List Element) :
    Leads Assembler.Settled (closeBranch f rest) Assembler.Settled := by
  refine leads_change (fun _ => rfl) (leads_storeWritten.bind fun _ => leads_get fun s => ?_)
  split
  · exact leads_throw _
  · split
    · exact (leads_jump _).bind fun _ => leads_change (fun _ => rfl) ((leads_label _).bind fun _ =>
        leads_forget)
    · refine (leads_label _).bind fun _ => ?_
      have hrest : Leads Assembler.Drained (do
          invalidate
          closeChain) Assembler.Settled := leads_forget.bind fun _ => leads_closeChain
      split
      · exact (leads_label _).bind fun _ => hrest
      · exact hrest

theorem leads_closeOtherwise : Leads Assembler.Settled (closeOtherwise f) Assembler.Settled := by
  refine leads_change (fun _ => rfl) (leads_storeWritten.bind fun _ => leads_get fun s => ?_)
  split
  · exact leads_throw _
  · exact (leads_label _).bind fun _ => leads_forget.bind fun _ => leads_closeChain

/-- Closing a scope, where the step of a counted loop is lowered by `step`. -/
theorem leads_closeScope {step : Stretch → Lower Unit}
    (hstep : ∀ stretch, Leads Assembler.Settled (step stretch) Assembler.Settled)
    (rest : List Element) : Leads Assembler.Settled (closeScope f step rest) Assembler.Settled := by
  refine leads_get fun s => ?_
  split
  · exact leads_throw _
  · refine leads_change (fun _ => rfl) ?_
    split
    · exact leads_pure (fun _ h => h) _
    · exact leads_closeBranch f rest
    · exact leads_closeOtherwise f
    · exact leads_closeLoop _ _
    · exact (hstep _).bind fun _ => inner_finishExpression.leads.bind fun _ => leads_closeLoop _ _

theorem leads_openLabel (c : Construct) : Leads P (openLabel f c) P :=
  fun s r s' hP hrun => by cases hrun; exact hP

theorem leads_keyword (k : Keyword) :
    Leads Assembler.Settled (keyword f k) Assembler.Settled := by
  cases k with
  | returning | otherwise => exact leads_modify fun _ => rfl
  | ifThen => exact (leads_openLabel f _).bind fun _ => leads_modify fun _ => rfl
  | forLoop => exact (leads_openLabel f _).bind fun _ => leads_modify fun _ => rfl
  | elseIf =>
    refine leads_get fun s => ?_
    split
    · exact leads_throw _
    · exact leads_modify fun _ => rfl
  | whileLoop =>
    -- Nothing is held at the start of the loop already.
    have hstart : ∀ name, Leads Assembler.Blank (label name) Assembler.Blank :=
      fun _ => leads_edge_blank rfl
    have hforget : Leads Assembler.Drained invalidate Assembler.Blank :=
      leads_invalidate fun _ h => h.flushed
    refine leads_storeWritten.bind fun _ => hforget.bind fun _ => (leads_openLabel f _).bind
      fun base => ((hstart _).weaken fun _ h => h.settled).bind fun _ => leads_modify fun _ => rfl
  | breakLoop =>
    refine leads_get fun s => ?_
    split
    · exact leads_throw _
    · exact leads_storeWritten.bind fun _ => (leads_jump _).bind fun _ => leads_forget

/-! ## Bodies -/

theorem leads_functionStart : Leads Assembler.Settled (functionStart f) Assembler.Settled :=
  (inner_emit rfl).leads.bind fun _ => (inner_lift (Assemble.plain_createFrame _)).leads

theorem leads_functionEnd : Leads Assembler.Settled (functionEnd f) Assembler.Settled := by
  refine leads_get fun s => ?_
  split
  · exact leads_epilogue f
  · exact leads_pure (fun _ h => h) _

/-- **One element**, where the step of a counted loop is lowered by `step`. -/
theorem leads_elementWith {step : Stretch → Lower Unit}
    (hstep : ∀ stretch, Leads Assembler.Settled (step stretch) Assembler.Settled) (e : Element)
    (rest : List Element) :
    Leads Assembler.Settled (elementWith f step e rest) Assembler.Settled := by
  have htake : Leads Assembler.Settled (onAssembler (Assemble.record (.takes e)))
      Assembler.Settled :=
    leads_onAssembler fun a u a' ha hx => by cases hx; exact ha.pass rfl rfl nofun
  refine htake.bind fun _ => ?_
  cases e with
  | operand o => exact (inner_operand o).leads
  | operator op => exact (inner_operator f op rest).leads
  | keyword k => exact leads_keyword f k
  | marker m =>
    cases m with
    | functionStart => exact leads_functionStart f
    | functionEnd => exact leads_functionEnd f
    | expressionEnd => exact leads_expressionEnd f
    | zeroJump => exact leads_zeroJump f rest
    | scopeOpen => exact leads_openScope f
    | scopeClose => exact leads_closeScope f hstep rest

theorem leads_forFirst {action : Element → List Element → Lower Unit}
    (h : ∀ e rest, Leads P (action e rest) P) (xs : List Element) (n : Nat) :
    Leads P (forFirst action xs n) P := by
  induction xs generalizing n with
  | nil => exact leads_pure (fun _ h => h) _
  | cons e rest ih =>
    cases n with
    | zero => exact leads_pure (fun _ h => h) _
    | succ n => exact (h e rest).bind fun _ => ih n

theorem leads_element (nesting : Nat) (e : Element) (rest : List Element) :
    Leads Assembler.Settled (element f nesting e rest) Assembler.Settled := by
  induction nesting generalizing e rest with
  | zero => exact leads_elementWith f (fun _ => leads_throw _) e rest
  | succ nesting ih =>
    exact leads_elementWith f (fun stretch => leads_forFirst ih stretch.elements stretch.length)
      e rest

/-- **A row of elements.** -/
theorem leads_elements (nesting : Nat) (body : List Element) :
    Leads Assembler.Settled (elements f nesting body) Assembler.Settled := by
  induction body with
  | nil => exact leads_pure (fun _ h => h) _
  | cons e rest ih =>
    refine leads_get fun s => ?_
    have hnext := leads_element f nesting e rest
    split
    · split
      · refine Leads.bind ?_ fun _ => ih
        unfold passOver
        split
        · exact leads_modify fun _ => rfl
        · exact leads_pure (fun _ h => h) _
      · exact hnext.bind fun _ => ih
    · exact hnext.bind fun _ => ih

end Lower

/-- A pool before its first use. -/
theorem settled_ofSize {registers : Nat} {file : RegisterFile} (notes : Array Note)
    (h : RegisterFile.ofSize registers = .ok file) : Assembler.Settled { file, notes } := by
  refine ⟨⟨nofun, fun before x after heq => by simp at heq, nofun⟩, ?_, ?_⟩
  · unfold RegisterFile.ofSize at h
    split at h
    · cases h
    · cases h
      intro r hr hwritten
      obtain ⟨i, -, rfl⟩ := List.mem_map.1 hr
      cases hwritten
  · rintro ⟨before, x, since, heq, -⟩
    simp at heq

namespace Function

/-- **No value survives a control edge in a register**, in any list of elements
that can be lowered. -/
theorem assemble_flushed {f : Function} {registers : Nat} {notes notes' : Array Note}
    {a : Assembler} (h : f.assemble registers notes = .ok a notes') :
    Flushed a.journal.toList := by
  unfold assemble at h
  split at h
  · cases h
  · cases h
  · next body file _ hfile =>
    split at h
    · next u s hrun =>
      cases h
      exact (Lower.leads_elements f _ body _ _ _ (settled_ofSize notes hfile) hrun).flushed
    · cases h

/-- Counts a file-scope word down to zero. -/
def countdown : Function where
  name := "count"
  returnType := .void
  parameters := []
  body :=
    let word : Element := .operand (.var ⟨"n", .int, .global "n", none⟩)
    some [.marker .functionStart, .keyword .whileLoop, word, .marker .zeroJump, .marker .scopeOpen,
      word, word, .operand (.constant (.int 1)), .operator .minus, .operand (.intermediate 0),
      .operator .assign, .marker .expressionEnd, .marker .scopeClose, .marker .functionEnd]
  frameSize := 0

/-- The loop of `countdown` has two labels and two jumps. -/
theorem assemble_flushed_countdown : ∃ a notes, countdown.assemble 2 #[] = .ok a notes ∧
    (a.lines.toList.filter Line.isEdge).length = 4 ∧ Flushed a.journal.toList := by
  have hrun : (match countdown.assemble 2 #[] with
      | .ok a _ => (a.lines.toList.filter Line.isEdge).length
      | .error .. => 0) = 4 := by decide +kernel
  cases h : countdown.assemble 2 #[] with
  | ok a notes =>
    rw [h] at hrun
    exact ⟨a, notes, rfl, hrun, assemble_flushed h⟩
  | error e notes =>
    rw [h] at hrun
    cases hrun

end Function

end WordC
