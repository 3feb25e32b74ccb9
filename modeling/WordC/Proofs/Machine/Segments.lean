import Mathlib
import WordC.Proofs.Log
import WordC.Proofs.Machine.Simulation
/-!
# A text and the text it is expanded to

The lines of an expanded text between its header and the block that starts the machine fall into
segments, one for each line of the text that was expanded. Running the statements of a segment
does what its line means (`Simulated`). From this follow the other parts of a `Simulation`: numbers
may be inverted and negated beforehand, what is pushed is popped again, and functions return to
their callers.
-/

namespace WordC

variable {δ : Type} {P : Platform δ}

/-! ## Segments -/

/-- The texts of machine lines. -/
def MachineLine.texts (ls : List MachineLine) : List (List Char) :=
  ls.map (·.text.toList)

/-- **The segment of a line does what the line means.** -/
def Simulated (P : Platform δ) (names : List (String × String)) (text : List Char)
    (segment : List (List Char)) : Prop :=
  ∃ content note, readLine? text = some ⟨content, note⟩ ∧ (content.stacksPointer = false →
    ∀ c : Core δ, Reaches P names (machineStatements segment) c
      fun next => content.effect P next c)

theorem Expanded.simulated {text : List Char} {content : LineContent} {note : Option String}
    (hread : readLine? text = some ⟨content, note⟩) (hcontent : content.Spelled)
    (hnote : ∀ s ∈ note, Text.OneLine s.toList) {before after : Bool} {ls : List MachineLine}
    (h : Expanded ⟨content, note⟩ before ls after) :
    Simulated P specialRegisters text (MachineLine.texts ls) := by
  refine ⟨content, note, hread, fun hpointer c => ?_⟩
  obtain ⟨hruns, hreaches⟩ := h.drives c hpointer
  rw [MachineLine.texts, machineStatements_map_text (h.spelled hcontent hnote) hruns]
  exact hreaches

/-- Lines are expanded one by one, each to a segment that does what it means. -/
theorem ExpandedText.simulated {isOpen : Bool} {texts : List (List Char)}
    {lines : List MachineLine} (h : ExpandedText isOpen texts lines) :
    ∃ (segments : List (List MachineLine)) (isOpen' : Bool),
      lines = segments.flatten ++ closing isOpen' ∧
      List.Forall₂ (Simulated P specialRegisters) texts (segments.map MachineLine.texts) := by
  induction h with
  | @nil isOpen => exact ⟨[], isOpen, rfl, .nil⟩
  | @cons _ _ _ _ _ first _ _ hread hcontent hnote hfirst _ ih =>
    obtain ⟨segments, isOpen', rfl, hsegments⟩ := ih
    refine ⟨first :: segments, isOpen', ?_, .cons (hfirst.simulated hread hcontent hnote) hsegments⟩
    rw [List.flatten_cons, List.append_assoc]

theorem exists_segments_of_expandText {source target : String}
    (h : (expandText source).value = .ok target) :
    ∃ segments, (∃ isOpen, Text.lines target = MachineLine.texts machineHeader ++
        segments.flatten ++ MachineLine.texts (closing isOpen ++ machineStart)) ∧
      List.Forall₂ (Simulated P (registerNames target)) (Text.lines source) segments := by
  rw [registerNames_of_expandText h]
  obtain ⟨body, hbody, hspelled, rfl⟩ := exists_of_expandText h
  obtain ⟨segments, isOpen, rfl, hsegments⟩ := hbody.simulated (P := P)
  refine ⟨segments.map MachineLine.texts, ⟨isOpen, ?_⟩, hsegments⟩
  rw [lines_renderMachineLines hspelled]
  simp only [MachineLine.texts, List.map_append, List.map_flatten, List.append_assoc]
  rfl

/-! ## Segments in a row -/

/-- A line of the source with the given content has the given segment. -/
def Emitted (source : String) (segments : List (List (List Char))) (content : LineContent)
    (segment : List (List Char)) : Prop :=
  ∃ text note, (text, segment) ∈ (Text.lines source).zip segments ∧
    readLine? text = some ⟨content, note⟩

/-- Running a segment takes the machine from one state to another, and it goes on behind it. -/
def Takes (P : Platform δ) (names : List (String × String)) (segment : List (List Char))
    (c c' : Core δ) : Prop :=
  Reaches P names (machineStatements segment) c fun next => ⟨c', next⟩

theorem MachineCode.holds_append {code : MachineCode} {ss ss' : List MachineStatement}
    {a next : Word} : code.Holds a (ss ++ ss') next ↔
      ∃ b, code.Holds a ss b ∧ code.Holds b ss' next := by
  induction ss generalizing a with
  | nil => simp [Holds]
  | cons s ss ih =>
    simp only [List.cons_append, Holds, ih]
    constructor
    · rintro ⟨b, hs, b', hss, hss'⟩
      exact ⟨b', ⟨b, hs, hss⟩, hss'⟩
    · rintro ⟨b', ⟨b, hs, hss⟩, hss'⟩
      exact ⟨b, hs, b', hss, hss'⟩

theorem Reaches.append {names : List (String × String)} {ss ss' : List MachineStatement}
    {c c' : Core δ} {out : Word → Processor δ} (h : Reaches P names ss c fun next => ⟨c', next⟩)
    (h' : Reaches P names ss' c' out) : Reaches P names (ss ++ ss') c out := by
  intro code a next hholds
  obtain ⟨b, hss, hss'⟩ := MachineCode.holds_append.1 hholds
  rw [List.length_append, Processor.run_add, h code a b hss, Option.bind_some]
  exact h' code b next hss'

theorem Takes.append {names : List (String × String)} {segment segment' : List (List Char)}
    {c c' c'' : Core δ} (h : Takes P names segment c c') (h' : Takes P names segment' c' c'') :
    Takes P names (segment ++ segment') c c'' := by
  rw [Takes, machineStatements, List.filterMap_append]
  exact Reaches.append h h'

/-! ## What follows from simulation -/

section Parts

variable (P : Platform δ) (names : List (String × String)) (source : String)
  (segments : List (List (List Char)))

/-- **Numbers are inverted and negated as words are.** Doing it to a number gives the same word as
loading the number and doing it to the register that the number is in, which may be the target
itself. -/
def FoldsConstants : Prop :=
  ∀ (m : Mnemonic) (d s : Reg) (k : Int64) (folded loading applying : List (List Char)),
    m = .not ∨ m = .neg →
    Emitted source segments (.line (.plain m [.reg d, .imm k])) folded →
    Emitted source segments (.line (.plain .mov [.reg s, .imm k])) loading →
    Emitted source segments (.line (.plain m [.reg d, .reg s])) applying →
    s = d ∨ s.number ≠ Reg.zero.number → ∀ c : Core δ, ∃ c₁ c₂,
      Takes P names folded c c₁ ∧ Takes P names (loading ++ applying) c c₂ ∧
      c₁.get d = c₂.get d ∧ (s = d → c₂ = c₁) ∧
      (s.number ≠ d.number → c₂ = c₁.set s (wordOf k))

/-- **What is pushed is popped again**, whatever happens in between, if the stack pointer comes
back and the word is still there. Nothing else changes. -/
def RestoresPushed : Prop :=
  ∀ (r : Reg) (pushing popping : List (List Char)), r ≠ .esp →
    Emitted source segments (.line (.plain .push [.reg r])) pushing →
    Emitted source segments (.line (.plain .pop [.reg r])) popping → ∀ c : Core δ, ∃ c₁,
      Takes P names pushing c c₁ ∧ (∀ q, (c₁.adopt c [.esp, r]).get q = c.get q) ∧
      ∀ c₂ : Core δ, c₂.get .esp = c₁.get .esp →
        c₂.memory (c₁.get .esp) = c₁.memory (c₁.get .esp) →
        Takes P names popping c₂ (c₂.adopt c [.esp, r])

/-- **The three general registers are restored**, if the stack pointer comes back and their words
are still there. -/
def RestoresGeneral : Prop :=
  ∀ pushing popping : List (List Char),
    Emitted source segments (.line (.plain .pusha [])) pushing →
    Emitted source segments (.line (.plain .popa [])) popping → ∀ c : Core δ, ∃ c₁,
      Takes P names pushing c c₁ ∧
      (∀ q, (c₁.adopt c [.esp, .general 1, .general 2, .general 3]).get q = c.get q) ∧
      ∀ c₂ : Core δ, c₂.get .esp = c₁.get .esp →
        (∀ k ∈ ([0, 1, 2] : List Word),
          c₂.memory (c₁.get .esp + k) = c₁.memory (c₁.get .esp + k)) →
        Takes P names popping c₂ (c₂.adopt c [.esp, .general 1, .general 2, .general 3])

/-- **Functions return to their callers.** A call and the beginning of the function leave the
address behind the call on the stack. A return with the stack pointer there and that word untouched
goes on at that address, with the stack pointer raised by the number of words that it drops. -/
def ReturnsToCallers : Prop :=
  ∀ (f : String) (n : Int64) (calling entering returning : List (List Char)),
    Emitted source segments (.line (.plain .call [.label f])) calling →
    Emitted source segments (.line (.function f)) entering →
    Emitted source segments (.line (.plain .ret [.imm n])) returning →
    ∀ (code : MachineCode) (a back e r next : Word),
      code.Holds a (machineStatements calling) back →
      code.Holds (P.code f) (machineStatements entering) e →
      code.Holds r (machineStatements returning) next → ∀ c : Core δ, ∃ c₁,
        Processor.run P names code
          ((machineStatements calling).length + (machineStatements entering).length) ⟨c, a⟩ =
            some ⟨c₁, e⟩ ∧
        c₁.get .esp = c.get .esp - 1 ∧ c₁.memory (c₁.get .esp) = back ∧
        ∀ c₂ : Core δ, c₂.get .esp = c₁.get .esp →
          c₂.memory (c₁.get .esp) = c₁.memory (c₁.get .esp) →
          Processor.run P names code (machineStatements returning).length ⟨c₂, r⟩ =
            some ⟨(c₂.set .edx back).set .esp (c.get .esp + wordOf n), back⟩

variable {P names source segments}
  (hline : List.Forall₂ (Simulated P names) (Text.lines source) segments)

include hline

theorem Emitted.reaches {content : LineContent} {segment : List (List Char)}
    (h : Emitted source segments content segment) (hpointer : content.stacksPointer = false)
    (c : Core δ) :
    Reaches P names (machineStatements segment) c fun next => content.effect P next c := by
  obtain ⟨text, note, hmem, hread⟩ := h
  obtain ⟨content', note', hread', hreaches⟩ := (List.forall₂_iff_zip.1 hline).2 hmem
  rw [hread] at hread'
  cases hread'
  exact hreaches hpointer c

/-- Every line has a segment. -/
theorem exists_emitted {text : List Char} (htext : text ∈ Text.lines source)
    {content : LineContent} {note : Option String} (hread : readLine? text = some ⟨content, note⟩) :
    ∃ segment, Emitted source segments content segment := by
  obtain ⟨i, hi, rfl⟩ := List.mem_iff_getElem.1 htext
  have hi' : i < segments.length := hline.length_eq ▸ hi
  refine ⟨segments[i], _, note, ?_, hread⟩
  rw [← List.getElem_zip (h := by simp [hi, hi'])]
  exact List.getElem_mem _

/-- A line that goes on behind itself. -/
theorem Emitted.takes {content : LineContent} {segment : List (List Char)}
    (h : Emitted source segments content segment) (hpointer : content.stacksPointer = false)
    {c c' : Core δ} (hc : ∀ next, content.effect P next c = ⟨c', next⟩) :
    Takes P names segment c c' := by
  have hreaches := h.reaches hline hpointer c
  rwa [funext hc] at hreaches

theorem foldsConstants_of_simulated : FoldsConstants P names source segments := by
  intro m d s k folded loading applying hm hfolded hloading happlying hs c
  obtain ⟨f, hf⟩ : ∃ f : Word → Word, ∀ (next : Word) (c : Core δ) (a : Arg),
      (LineContent.line (.plain m [.reg d, a])).effect P next c =
        ⟨c.set d (f (a.value c)), next⟩ := by
    rcases hm with rfl | rfl
    · exact ⟨fun w => ~~~w, fun _ _ _ => rfl⟩
    · exact ⟨fun w => -w, fun _ _ _ => rfl⟩
  have hpointer : ∀ a, (LineContent.line (.plain m [.reg d, a])).stacksPointer = false := by
    rcases hm with rfl | rfl <;> exact fun _ => rfl
  have hload : Takes P names loading c (c.set s (wordOf k)) := hloading.takes hline rfl fun _ => rfl
  have hfold := hfolded.takes hline (hpointer _) fun next => hf next c (.imm k)
  have happly := happlying.takes hline (hpointer _) fun next =>
    hf next (c.set s (wordOf k)) (.reg s)
  refine ⟨_, _, hfold, hload.append happly, ?_⟩
  -- register zero keeps no value, so here it has to be the destination as well
  by_cases hzero : s.number = 0
  · obtain rfl : s = d := hs.resolve_right (not_not.2 hzero)
    rw [Core.set_zero _ hzero, Core.set_zero _ hzero, Core.set_zero _ hzero]
    exact ⟨rfl, fun _ => rfl, fun hne => absurd rfl hne⟩
  · have hvalue : (Arg.reg s).value (c.set s (wordOf k)) = wordOf k := c.get_set_self hzero _
    rw [hvalue]
    refine ⟨?_, ?_, fun hne => c.set_comm hne _ _⟩
    · by_cases hd : d.number = 0
      · rw [Core.get_zero _ hd, Core.get_zero _ hd]
      · rw [Core.get_set_self _ hd, Core.get_set_self _ hd]
        rfl
    · rintro rfl
      exact c.set_set s _ _

theorem restoresPushed_of_simulated : RestoresPushed P names source segments := by
  intro r pushing popping hr hpushing hpopping c
  have hpush : (LineContent.line (.plain .push [.reg r])).stacksPointer = false := by
    cases r with
    | esp => exact absurd rfl hr
    | _ => rfl
  have hpop : (LineContent.line (.plain .pop [.reg r])).stacksPointer = false := by
    cases r with
    | esp => exact absurd rfl hr
    | _ => rfl
  refine ⟨c.push (c.get r), hpushing.takes hline hpush fun _ => rfl, fun q => ?_,
    fun c₂ hpointer hword => hpopping.takes hline hpop fun next => ?_⟩
  · refine Core.get_adopt_eq _ (fun q hq => c.get_push (fun hesp => hq ?_) _) q
    rw [hesp]
    exact List.mem_cons_self
  · exact congrArg (Processor.mk · next) (Core.pop_of_push hpointer hword r)

theorem restoresGeneral_of_simulated : RestoresGeneral P names source segments := by
  intro pushing popping hpushing hpopping c
  refine ⟨_, hpushing.takes hline rfl fun _ => rfl, fun q => ?_,
    fun c₂ hpointer hwords => hpopping.takes hline rfl fun next => ?_⟩
  · refine Core.get_adopt_eq _ (fun q hq => ?_) q
    have hesp : q.number ≠ Reg.esp.number := by
      intro hesp
      rw [hesp] at hq
      exact hq List.mem_cons_self
    rw [Core.get_push _ hesp, Core.get_push _ hesp, Core.get_push _ hesp]
  · exact congrArg (Processor.mk · next) (Core.pop_of_push_three rfl hpointer hwords)

theorem returnsToCallers_of_simulated : ReturnsToCallers P names source segments := by
  intro f n calling entering returning hcalling hentering hreturning code a back e r next
    hcall hentry hret c
  have hcalled := hcalling.reaches hline rfl c code a back hcall
  have hentered := hentering.reaches hline rfl (c.set .edx back) code (P.code f) e hentry
  have hedx : (c.set .edx back).get .edx = back := Core.get_set_self c (by decide) back
  have hesp : (c.set .edx back).get .esp = c.get .esp := Core.get_set_of_ne c (by decide) back
  refine ⟨(c.set .edx back).push back, ?_, ?_, ?_, fun c₂ hpointer hword => ?_⟩
  · rw [Processor.run_add, hcalled, Option.bind_some]
    refine hentered.trans ?_
    change some (Processor.mk ((c.set .edx back).push ((c.set .edx back).get .edx)) e) = _
    rw [hedx]
  · rw [Core.get_esp_push, hesp]
  · rw [Core.get_esp_push, Core.memory_push, if_pos rfl]
  -- `pop` brings the return address back, and the arguments are dropped behind it
  · have hnumbers : Reg.edx.number ≠ Reg.esp.number := by decide
    have hpop : c₂.pop .edx = (c₂.set .esp (c.get .esp)).set .edx back := by
      rw [Core.pop_of_push hpointer hword, hesp]
    refine (hreturning.reaches hline rfl c₂ code r next hret).trans ?_
    change some (Processor.mk ((c₂.pop .edx).set .esp ((c₂.pop .edx).get .esp + wordOf n))
      ((c₂.pop .edx).get .edx)) = _
    rw [hpop, Core.get_set_of_ne _ hnumbers.symm, Core.get_set_esp, Core.get_set_self _ (by decide),
      Core.set_comm _ hnumbers, Core.set_set, Core.set_comm _ hnumbers]

end Parts

/-- **How a text and the text that it is expanded to belong together**, on a machine of which `P`
says what is left open. -/
structure Simulation (P : Platform δ) (source target : String)
    (segments : List (List (List Char))) : Prop where
  /-- The segments are the lines of the target between the names of the registers and the block
  that starts the machine. -/
  lines_eq : ∃ isOpen, Text.lines target = MachineLine.texts machineHeader ++ segments.flatten ++
    MachineLine.texts (closing isOpen ++ machineStart)
  /-- The special registers are the last four of the machine. -/
  names_eq : registerNames target = [("eax", "r4"), ("edx", "r5"), ("ebp", "r6"), ("esp", "r7")]
  /-- Each line of the source has a segment, which does what the line means. -/
  line : List.Forall₂ (Simulated P (registerNames target)) (Text.lines source) segments
  constants : FoldsConstants P (registerNames target) source segments
  pushed : RestoresPushed P (registerNames target) source segments
  general : RestoresGeneral P (registerNames target) source segments
  returns : ReturnsToCallers P (registerNames target) source segments

/-- **Machine texts do what assembly means.** -/
theorem expandText_simulates (P : Platform δ) {source target : String}
    (h : (expandText source).value = .ok target) :
    ∃ segments, Simulation P source target segments := by
  obtain ⟨segments, hlines, hline⟩ := exists_segments_of_expandText (P := P) h
  exact ⟨segments,
    { lines_eq := hlines
      names_eq := registerNames_of_expandText h
      line := hline
      constants := foldsConstants_of_simulated hline
      pushed := restoresPushed_of_simulated hline
      general := restoresGeneral_of_simulated hline
      returns := returnsToCallers_of_simulated hline }⟩

/-- A function that saves registers and negates the least word, and a call of it. -/
def savingText : String :=
  "$f:\nPUSHA\nNEG r1 -32768\nMOV r2 -32768\nNEG r1 r2\nPUSH eax\nPOP eax\nPOPA\nRET 1\n" ++
  "$main:\nCALL f\nRET 0\n"

/-- A machine without devices. -/
def bareMachine : Platform Unit where
  signed := true
  data _ := 0
  code _ := 0
  label _ := 0
  input _ _ := (0, ())
  output _ _ _ := ()

/-- The least word is its own negation, and the machine says so too. -/
theorem expandText_simulates_savingText :
    ∃ target segments, (expandText savingText).value = .ok target ∧
      Simulation bareMachine savingText target segments ∧
      ∃ folded, Emitted savingText segments
          (.line (.plain .neg [.reg (.general 1), .imm (-32768)])) folded ∧
        ∀ c, Takes bareMachine (registerNames target) folded c (c.set (.general 1) 0x8000) := by
  have hrun : (expandText savingText).value.toOption.isSome = true := by decide +kernel
  obtain ⟨target, htarget⟩ := Option.isSome_iff_exists.1 hrun
  have hok : (expandText savingText).value = .ok target := Logged.value_of_toOption htarget
  obtain ⟨segments, hsegments⟩ := expandText_simulates bareMachine hok
  have hmem : "NEG r1 -32768".toList ∈ Text.lines savingText := by decide +kernel
  have hread : readLine? "NEG r1 -32768".toList =
      some ⟨.line (.plain .neg [.reg (.general 1), .imm (-32768)]), none⟩ := by decide +kernel
  obtain ⟨folded, hfolded⟩ := exists_emitted hsegments.line hmem hread
  refine ⟨target, segments, hok, hsegments, folded, hfolded, fun c => ?_⟩
  have hword : -wordOf (-32768) = 0x8000 := by decide
  refine hfolded.takes hsegments.line rfl fun next => ?_
  rw [← hword]
  rfl

end WordC
