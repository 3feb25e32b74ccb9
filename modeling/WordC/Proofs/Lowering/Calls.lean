import Mathlib
import WordC.Proofs.Lowering.Operators
/-!
# Passing arguments and calling

Before the first argument of a call, every result that waits is pushed, so the
arguments of one call lie side by side on the stack when it comes.
-/

namespace WordC

open RegisterFile

variable {W : Type} [DecidableEq W]

namespace Lower

variable {T : Target W} {known : Variable → Prop} {d : Nat} {below : List W} {base : List Pushed} {f : RegisterFile}
variable {e : ExpressionState} {m : Traced W} {mem : Memory W} {ρ : Nat → W} {k n : Nat}
variable {σ : List (Slot W)} {R : List Nat} (fn : Function) {o : Operand} {b : Binding}

/-- What comes before the push of an argument: the first one begins the call. -/
def beginAt (slot : UInt64) : Lower Unit :=
  if slot = 0 then Assemble.beginCall else pure ()

/-- The starts of the pending calls once argument `slot` is passed on `depth`
words. -/
def startsAt (slot : UInt64) (depth : Nat) (starts : List Nat) : List Nat :=
  if slot = 0 then depth :: starts else starts

/-- Beginning a call at its first argument. -/
theorem beginAt_linked (h : Linked T known d below base f m mem ρ k σ) (hp : Pinned R f)
    (slot : UInt64) :
    ∃ f' m' σ', Steps T (beginAt slot) f e m () f' e m' ∧
      Linked T known d below base f' m' mem ρ k σ' ∧ Pinned R f' ∧
      (∀ r b, Readied f r b → Readied f' r b) ∧ Framed f.size n f σ f' σ' ∧
      passedArgs σ' = passedArgs σ ∧ m'.coming = m.coming ∧
      f'.callStarts = startsAt slot (d + σ'.length) f.callStarts ∧
      (slot = 0 → ∀ i l, f'.bindingAt i = some (.intermediate l) → i ∈ f'.pinned) := by
  -- only the first argument of a call starts it
  by_cases hslot : slot = 0
  · obtain ⟨f', m', σ', hrun, h', hroom, hresults⟩ := Assemble.beginCall_linked h
    obtain ⟨ns, hσ', hns⟩ := hroom.pushed
    refine ⟨{ f' with callStarts := f'.stackDepth :: f'.callStarts }, m', σ', ?_,
      ⟨h'.holds.congr rfl, h'.stack.congr rfl rfl, h'.top, h'.results.congr fun _ _ => Iff.rfl⟩,
      fun l => ?_, fun r b hr => ?_, ⟨hroom.kept.size, hroom.kept.regAt, fun L hL _ _ => ?_, ?_⟩,
      ?_, hroom.coming, ?_, fun _ => hresults⟩
    · rw [beginAt, if_pos hslot]
      exact Steps.lift hrun
    · rw [← hp l]
      constructor
      · rintro ⟨i, hi, hbind⟩
        have hi : i ∈ f.pinned := hroom.pinned ▸ hi
        exact ⟨i, hi, ((hroom.kept.pinned i hi).2).symm.trans hbind⟩
      · rintro ⟨i, hi, hbind⟩
        exact ⟨i, (hroom.kept.pinned i hi).1, ((hroom.kept.pinned i hi).2).trans hbind⟩
    · obtain ⟨i, hi, hbind, hreg⟩ := hr.kept hroom.kept
      exact ⟨i, hi, hbind, hreg⟩
    · rw [hσ']
      exact hL.trans (List.suffix_append _ _)
    · rw [hσ', List.length_append, List.length_map]
      omega
    · rw [hσ', passedArgs_append, passedArgs_map_result, List.nil_append]
    · rw [startsAt, if_pos hslot, ← h'.stack.depth, ← hroom.kept.callStarts]
  · refine ⟨f, m, σ, ?_, h, hp, fun _ _ hr => hr, (Framed.refl n f σ).mono (Nat.zero_le _)
      (Nat.le_refl n), rfl, rfl, (if_neg hslot).symm, fun heq => absurd heq hslot⟩
    rw [beginAt, if_neg hslot]
    exact Steps.pure ()

/-- **Passing an argument.** Behind the first one, all results that wait are on
the stack below it. -/
theorem argument_linked (slot : UInt64) {w : W}
    (h : Linked T known d below base f m mem ρ k σ) (ha : Apart W known) (hpin : f.pinned = [])
    (hsize : 2 ≤ f.size) (hlen : σ.length + 1 < 2 ^ 63) (ho : o.binding? = some b)
    (hb : b.Available known k) (hR : Consumes b.results n k) (hw : T.bound mem ρ b = w) :
    ∃ f' m' σ', Steps T (argument fn (.parameter slot) o) f e m () f' e m' ∧
      Linked T known d below base f' m' mem ρ n (.passed (m.trace.calls.element, w) :: σ') ∧ f'.pinned = [] ∧
      (∀ τ, σ' ≠ .read :: τ) ∧ Framed (f.size + 1) n f σ f' σ' ∧
      passedArgs σ' = passedArgs σ ∧ m'.coming = m.coming ∧
      f'.callStarts = startsAt slot (d + σ'.length) f.callStarts ∧
      (slot = 0 → ∀ l < n, .result l ∈ σ') := by
  obtain ⟨r, f₁, m₁, σ₁, hload, h₁, hg, hr, -⟩ := load_linked fn (e := e) h ha
    (Gathered.start (n := n) (m := m) (σ := σ) hpin) (by omega) hlen ho hb fun l hl => hR.le hl
  rw [List.append_nil] at hg
  obtain ⟨f₂, m₂, σ₂, hbegin, h₂, hp₂, hkept, hframe, hpassed, hcoming, hstarts, hfirst⟩ :=
    beginAt_linked (n := n) (e := e) h₁ hg.pinned slot
  have hvalue : m₂.regs r = w := ((hkept r b hr).value h₂.holds).trans hw
  have helement : m₂.trace.calls.element = m.trace.calls.element :=
    congrArg (·.2.element) (hcoming.trans hg.coming)
  let m₃ : Traced W := { m₂ with
    stack := m₂.regs r :: m₂.stack
    trace := { m₂.trace with words := .argument m₂.trace.calls.element :: m₂.trace.words } }
  have h₃ : Linked T known d below base f₂.recordPush m₃ mem ρ k
      (.passed (m.trace.calls.element, w) :: σ₂) := by
    have hholds : HoldsValues T known f₂.recordPush m₂.toMachine mem ρ := h₂.holds.congr rfl
    refine ⟨hholds.machine_congr rfl rfl, ?_, nofun, h₂.results.congr fun _ _ => Iff.rfl⟩
    rw [← hvalue, ← helement]
    exact h₂.stack.push_passed (_, _) rfl rfl
  have h₄ := Assemble.releaseOperands_linked h₃ hp₂ hR
  have hc := cleared_releaseOperands f₂.recordPush
  refine ⟨_, m₃, σ₂, ?_, h₄, pinned_releaseOperands _, h₂.top, ?_, hpassed.trans hg.passed,
    hcoming.trans hg.coming, ?_, fun hslot l hl => ?_⟩
  · have hpush : Steps T (noted .push [.reg r] s!"argument {slot.toNat}") f₂ e m₂ () f₂ e m₃ :=
      Steps.lift (Runs.emit rfl rfl (StackTrace.line_argument _ _ _))
    have hrest := hbegin.bind (z := fun _ => noted .push [.reg r] s!"argument {slot.toNat}" >>=
      fun _ => onAssembler (Assemble.onFile (·.recordPush)) >>= fun _ => releaseOperands)
      (hpush.bind ((Steps.lift (Runs.onFile _)).bind (Steps.lift (Runs.onFile _))))
    refine hload.bind ?_
    by_cases hslot : slot = 0
    · rw [beginAt, if_pos hslot] at hrest
      rw [if_pos hslot]
      exact hrest
    · rw [beginAt, if_neg hslot] at hrest
      rw [if_neg hslot]
      exact hrest
  · have hboth := hg.frame.trans hframe
    rw [hg.frame.size, Nat.zero_add, Nat.add_comm] at hboth
    exact { hboth with
      size := hc.size.trans hboth.size
      regAt := fun i => (hc.regAt i).trans (hboth.regAt i) }
  · rw [hc.callStarts, ← hg.callStarts]
    exact hstarts
  · refine (h₄.results.placed l hl).elim (fun ⟨i, hi⟩ => ?_) fun hmem => by simpa using hmem
    -- a result in a register would have been pinned, and given up with the rest
    obtain ⟨hq, hi⟩ := hc.bound hi
    refine absurd ?_ (Bool.eq_false_iff.1 hq)
    have hi : f₂.bindingAt i = some (.intermediate l) := hi
    have hpin : i ∈ f₂.recordPush.pinned := hfirst hslot i l hi
    have hholds : f₂.recordPush.holdsResult i = true := by
      change (f₂.bindingAt i).any Binding.isIntermediate = true
      rw [hi]
      rfl
    simp [hpin, hholds]

/-- **A call** with the arguments `as`, the last one first, which lie on top of
the stack. -/
theorem call_linked {c : CallRef} {as : List (Nat × W)} {starts calls : List Nat}
    (h : Linked T known d below base f m mem ρ n (as.map .passed ++ σ)) (htop : ∀ τ, σ ≠ .read :: τ)
    (hpin : f.pinned = []) (hsize : 0 < f.size) (hcount : e.count = n)
    (hstarts : f.callStarts = Assemble.startsWith as (d + σ.length) starts)
    (hcalls : m.calls = as.length :: calls) (hdue : m.trace.calls.due = as.map Prod.fst)
    (hlen : m.trace.calls.arity = as.length) (harity : c.arity.toNat = as.length) :
    ∃ r f' m' σ', Steps T (call c) f e m () f'
        { e with hasValues := true, count := n + 1, lastResult := some r } m' ∧
      Linked T known d below base f' m' (T.call c.name (as.map Prod.snd).reverse mem).2
        (Function.update ρ n (T.call c.name (as.map Prod.snd).reverse mem).1) (n + 1) σ' ∧
      f'.pinned = [] ∧ (∃ i, f'.bindingAt i = some (.intermediate n) ∧ r = f'.regAt i) ∧
      Framed 3 n f σ f' σ' ∧ f'.callStarts = starts ∧ m'.coming = (calls, m.trace.calls) ∧
      passedArgs σ' = passedArgs σ := by
  obtain ⟨f₁, m₁, f₂, m₂, hstore, hstep, hend, h₂, heax, hcoming, hsize₂, hreg₂, hstarts₂, hpin₂⟩ :=
    Assemble.call_linked c.name h htop hstarts hcalls hdue hlen
  have hc := cleared_invalidateGlobals f₂
  have hpin₃ : f₂.invalidateGlobals.pinned = [] := hpin₂.trans hpin
  obtain ⟨g, f', m', σ', hresult, hregs, -, hproduced⟩ := result_linked
    (e := { e with hasValues := true, count := n + 1 }) h₂
    (Gathered.start (n := n) (m := m₂) (σ := σ) hpin₃) (Nat.zero_le 2) (Consumes.nil n)
    (by rw [hc.size, hsize₂]; exact hsize)
  -- the call leaves its value in `eax`, from where it is moved into a register of the pool
  have hmov : m'.step T (.instruction .mov [.reg (.general g), .reg .eax] none) =
      some (m'.toMachine.set (.general g) (T.call c.name (as.map Prod.snd).reverse mem).1) := by
    rw [← heax, ← hregs]
    rfl
  have hdone := hproduced (T.call c.name (as.map Prod.snd).reverse mem).1
  refine ⟨.general g, f', _, σ', ?_, hdone.linked, hdone.pinned, hdone.bound,
    { hdone.frame with
      size := hdone.frame.size.trans (hc.size.trans hsize₂)
      regAt := fun i => (hdone.frame.regAt i).trans ((hc.regAt i).trans (hreg₂ i)) },
    hdone.callStarts.trans (hc.callStarts.trans hstarts₂), hdone.coming.trans hcoming,
    hdone.passed⟩
  rw [← harity] at hend
  have hrelease : Steps T releaseOperands f { e with hasValues := true } m () f
      { e with hasValues := true } m := by
    have := Steps.lift (T := T) (e := { e with hasValues := true }) (m := m)
      (Runs.onFile (f := f) (·.releaseOperands))
    rwa [releaseOperands_of_pinned hpin] at this
  refine (Steps.onExpression _).bind (hrelease.bind ((Steps.lift hstore).bind
    ((Steps.lift hstep).bind ((Steps.lift hend).bind
      ((Steps.lift (Runs.onFile _)).bind (Steps.get fun s _ hs => ?_))))))
  rw [hs]
  subst hcount
  exact (Steps.onExpression _).bind (hresult.bind ((Steps.instruction rfl hmov).bind
    (Steps.onExpression _)))

end Lower

end WordC
