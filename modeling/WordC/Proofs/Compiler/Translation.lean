import Mathlib
import WordC.Proofs.Assembly.Spelling
import WordC.Proofs.Compiler.FrontEnd
import WordC.Proofs.Lowering.Jumps
import WordC.Proofs.Lowering.Lines
import WordC.Proofs.SourceUnit.Storage
/-!
# Which programs reach the machine

Names are written into register assembly as they are. A name with a letter of
another script cannot be read back there, and a call of a function that is named
like a register is read as an instruction on that register. Nothing else stands
between register assembly and the machine (`registerAssembly_expands_iff`).
-/

namespace WordC

/-! ## The names of a function -/

/-- The names in a function are names of a text. -/
structure Function.HasNames (f : Function) : Prop where
  name : IsName f.name
  calls : ∀ name, f.Calls name → IsName name
  mentions : ∀ v, f.Mentions v → IsName v.name
  globals : ∀ v, f.Mentions v → ∀ label, v.storage = .global label → label = v.name

theorem Program.ReadFrom.hasNames {tokens : List PlacedToken} {p : Program}
    (h : p.ReadFrom tokens)
    (hnames : ∀ t ∈ tokens, ∀ name, t.token = .ident name → IsName name) {f : Function}
    (hf : f ∈ p.functions) : f.HasNames := by
  have hident : ∀ name, HasIdent tokens name → IsName name := by
    rintro name ⟨t, ht, htoken⟩
    exact hnames t ht name htoken
  obtain ⟨locals, hlaid⟩ := h.laidOut hf
  refine ⟨hident _ (h.named f hf), ?_, fun v hv => hident _ ((h.namedBy f hf).mentions v hv),
    fun v hv label hlabel => (hlaid.mem_of_global hv hlabel).1⟩
  rintro name ⟨c, hc, rfl⟩
  exact hident _ ((h.namedBy f hf).calls c hc)

/-! ## The lines of a function -/

/-- **The lines of a function.** They define labels of its own, and its jumps lead to
them. -/
structure Function.Lowered (f : Function) (size : Nat) (lines : List Line) : Prop
    extends f.Prints size lines where
  labels : NamesOf f.name (labelLines lines)
  jumps : JumpsInside lines

theorem Function.ReadAs.lowered {nodes : Nat} {file locals : List Variable} {f : Function}
    {stmts : List Stmt} (h : f.ReadAs nodes file stmts locals) {registers : Nat}
    {notes notes' : Array Note} {lines : List Line}
    (hlower : f.lower registers notes = .ok lines notes') : f.Lowered registers lines := by
  obtain ⟨hlabels, hjumps⟩ := h.resolved hlower
  obtain ⟨a, notes₁, hassemble, hlines⟩ := bind_eq_ok.1 hlower
  cases hlines
  have hplain : blockSound Code.Plain false stmts := h.sound.mono fun _ hcode => hcode.plain
  exact ⟨Function.prints_of_assemble h.body hplain hassemble, hlabels, hjumps⟩

/-- **The spelling of a function** that reaches the machine. -/
structure Function.Spelled (f : Function) : Prop where
  name : isPlainName false f.name.toList = true
  /-- What it calls can be told from a register. -/
  calls : ∀ name, f.Calls name → (Arg.label name).Legible
  /-- The words that it drops leave room for the return address. -/
  returns : Int64.ofNat f.arity ≠ Int64.maxValue

namespace Function.Lowered

variable {f : Function} {size : Nat} {lines : List Line} {m : Mnemonic} {args : List Arg}
  {note : Option String}

theorem own_of_label (h : f.Lowered size lines) {name : String} (hname : .label name ∈ lines) :
    ∃ k : LabelKey, k.path ≠ [] ∧ k.name f.name = name := by
  obtain ⟨keys, hkeys, -, hpath⟩ := h.labels
  have hmem : name ∈ labelLines lines := List.mem_filterMap.2 ⟨_, hname, rfl⟩
  obtain ⟨k, hk, hkname⟩ := List.mem_map.1 (hkeys.mem_iff.1 hmem)
  exact ⟨k, hpath k hk, hkname⟩

/-- A target that is not called is a label of the function. -/
theorem own_of_jump (h : f.Lowered size lines) (hl : .instruction m args note ∈ lines)
    (hfits : Fits m args) (hm : m ≠ .call) {name : String} (hname : .label name ∈ args) :
    ∃ k : LabelKey, k.path ≠ [] ∧ k.name f.name = name := by
  cases hfits with
  | call => exact absurd rfl hm
  | jmp target =>
    obtain rfl : name = target := by simpa using hname
    obtain ⟨target, hway, hlabel⟩ := h.jumps _ hl (.inl rfl)
    obtain rfl : name = target := by simpa [Line.waypoint?] using hway
    exact h.own_of_label hlabel
  | jz r target =>
    obtain rfl : name = target := by simpa using hname
    obtain ⟨target, hway, hlabel⟩ := h.jumps _ hl (.inr rfl)
    obtain rfl : name = target := by simpa [Line.waypoint?] using hway
    exact h.own_of_label hlabel
  | _ => simp at hname

/-- **A line of a function is made of words**, whatever its names are, and its comments
are one line each. -/
theorem worded (h : f.Lowered size lines) (hf : f.HasNames) {l : Line} (hl : l ∈ lines) :
    l.Worded ∧ ∀ s ∈ l.notes, Text.OneLine s.toList := by
  have hword : ∀ {name}, IsName name → IsWord (Arg.global name).text.toList := by
    intro name hname
    obtain ⟨-, hchars⟩ := hname.isWord
    refine ⟨by simp [Arg.text], fun c hc => ?_⟩
    rcases List.mem_cons.1 (by simpa [Arg.text] using hc) with rfl | hc
    · decide
    · exact hchars c hc
  -- a line is the function's own label or of one of the four kinds that lowering writes
  obtain rfl | hwrites := h.eq_or_writes hl
  · exact ⟨hf.name.isWord, List.forall_mem_nil _⟩
  cases hwrites with
  | label name =>
    obtain ⟨k, hk, rfl⟩ := h.own_of_label hl
    exact ⟨LabelKey.isWord_name hk hf.name.isWord, List.forall_mem_nil _⟩
  | @call name hcall =>
    exact ⟨List.forall_mem_singleton.2 (hf.calls name hcall).isWord, List.forall_mem_nil _⟩
  | ret =>
    exact ⟨List.forall_mem_singleton.2 (Arg.isWord_text trivial), List.forall_mem_nil _⟩
  | @instruction m args note hfits hm hargs hnotes =>
    refine ⟨fun a ha => ?_, fun s hs => ?_⟩
    · cases a with
      | reg r => exact Arg.isWord_text (hargs _ ha).1
      | imm n => exact Arg.isWord_text trivial
      | mem base offset => exact Arg.isWord_text (hargs _ ha).1
      | global label =>
        obtain ⟨v, hv, hstorage⟩ := hargs _ ha
        rw [hf.globals v hv label hstorage]
        exact hword (hf.mentions v hv)
      | label name =>
        obtain ⟨k, hk, rfl⟩ := h.own_of_jump hl hfits hm.1 ha
        exact LabelKey.isWord_name hk hf.name.isWord
    · rcases hnotes s (by simpa [Line.notes] using hs) with hline | ⟨v, hv, rfl⟩
      · exact hline
      · exact (hf.mentions v hv).oneLine

theorem oneLine (h : f.Lowered size lines) (hf : f.HasNames) {l : Line} (hl : l ∈ lines) :
    Text.OneLine l.text.toList :=
  Line.oneLine_text (h.worded hf hl).1 (h.worded hf hl).2

/-- A function whose lines are expanded is spelled for the machine. -/
theorem spelled (h : f.Lowered size lines) (hf : f.HasNames)
    (hlines : ∀ l ∈ lines, Expands l.text.toList) : f.Spelled where
  name := by
    obtain ⟨behind, rfl, -⟩ := h.head
    exact (Line.expands_function_iff hf.name.isWord).1 (hlines _ List.mem_cons_self)
  calls name hcall := by
    have hname := hf.calls name hcall
    obtain ⟨c, rest, heq, hdigit, hc⟩ := hname.not_operand
    exact Line.legible_of_expands_call heq hname.isWord hdigit hc (hname.not_mem (by decide))
      (hlines _ (h.calls name hcall))
  returns hmax := by
    have hret := hlines _ h.returns
    rw [hmax] at hret
    exact Line.not_expands_ret none hret

/-- The lines of a function that is spelled for the machine are expanded, if the machine has
its registers and the file-scope words it mentions have plain names. -/
theorem expands (h : f.Lowered size lines) (hsize : size ≤ machineRegisters) (hf : f.Spelled)
    (hglobals : ∀ v, f.Mentions v → ∀ label, v.storage = .global label →
      isPlainName false label.toList = true) {l : Line} (hl : l ∈ lines) :
    Expands l.text.toList := by
  obtain rfl | hwrites := h.eq_or_writes hl
  · exact (Line.expands_function_iff (.of_isPlainName hf.name)).2 hf.name
  cases hwrites with
  | label name =>
    obtain ⟨k, hk, rfl⟩ := h.own_of_label hl
    exact Line.expands_label (LabelKey.legible_name hk hf.name).1
  | @call name hcall =>
    exact Line.expands_instruction (List.forall_mem_singleton.2 (hf.calls name hcall))
      (.call name) (List.forall_mem_singleton.2 trivial) nofun none
  | ret =>
    have hlegible : ∀ a ∈ [Arg.imm (Int64.ofNat f.arity)], a.Legible :=
      List.forall_mem_singleton.2 trivial
    refine Line.expands_instruction hlegible (.ret _) (List.forall_mem_singleton.2 trivial)
      (fun _ hmem => ?_) none
    exact hf.returns (Arg.imm.inj (List.mem_singleton.1 hmem)).symm
  | @instruction m args note hfits hm hargs hnotes =>
    refine Line.expands_instruction (fun a ha => ?_) hfits (fun a ha => ?_)
      (fun hret => absurd hret hm.2) note
    · cases a with
      | reg r => exact (hargs _ ha).1
      | imm n => trivial
      | mem base offset => exact (hargs _ ha).1
      | global label =>
        obtain ⟨v, hv, hstorage⟩ := hargs _ ha
        exact hglobals v hv label hstorage
      | label name =>
        -- a jump goes to a label of the function itself, so its name starts with the function's
        obtain ⟨k, hk, rfl⟩ := h.own_of_jump hl hfits hm.1 ha
        exact LabelKey.legible_name hk hf.name
    · cases a with
      | reg r => exact Reg.InPool.onMachine (hargs _ ha) hsize
      | mem base offset => exact Reg.InPool.onMachine (hargs _ ha) hsize
      | _ => trivial

end Function.Lowered

/-! ## Programs -/

/-- **The spelling of a program** that reaches the machine. -/
structure Program.Spelled (p : Program) : Prop where
  globals : ∀ g ∈ p.globals, isPlainName false g.name.toList = true
  functions : ∀ f ∈ p.functions, f.isDefined = true → f.Spelled

/-- The register assembly of a program is the text of its lines. -/
theorem lines_of_run_registerAssembly {settings : Settings} {p : Program}
    {notes notes' : Array Note} {high : String}
    (h : registerAssembly settings p notes = .ok high notes') :
    ∃ lines, p.lower settings.registers notes = .ok lines notes' ∧ high = renderLines lines := by
  obtain ⟨_, notes₀, hbalance, h⟩ := bind_eq_ok.1 h
  obtain rfl := Logged.eq_of_ofExcept hbalance
  obtain ⟨lines, notes₁, hlower, hhigh⟩ := bind_eq_ok.1 h
  cases hhigh
  exact ⟨lines, Logged.mapError_eq_ok.1 hlower, rfl⟩

theorem lines_of_registerAssembly {settings : Settings} {p : Program} {high : String}
    (h : (registerAssembly settings p).value = .ok high) :
    ∃ lines, (p.lower settings.registers).value = .ok lines ∧ high = renderLines lines := by
  obtain ⟨notes, hrun⟩ := Logged.exists_of_value h
  obtain ⟨lines, hlower, hhigh⟩ := lines_of_run_registerAssembly hrun
  exact ⟨lines, Logged.value_of_ok hlower, hhigh⟩

/-- **The lines of a unit**: those of its file-scope words, and those of each function that
has a body. -/
theorem SourceUnit.lowered_of_lower {source : String} {tokens : List PlacedToken} {u : SourceUnit}
    (hscan : scan source = .ok tokens) (hparse : parse tokens = .ok u) {registers : Nat}
    {notes notes' : Array Note} {lines : List Line}
    (hlower : u.program.lower registers notes = .ok lines notes') :
    (∀ g ∈ u.program.globals, IsWord g.name.toList) ∧
    ∃ bodies, lines = u.program.globals.map Global.line ++ bodies.flatten ∧
      List.Forall₂ (fun f body => f.HasNames ∧ f.Lowered registers body)
        (u.program.functions.filter (·.isDefined)) bodies := by
  have hread := SourceUnit.parse_readFrom hparse
  have hnames := scan_names hscan
  obtain ⟨bodies, rfl, hbodies⟩ := hread.lines_of_run hlower
  refine ⟨fun g hg => ?_, bodies, rfl, hbodies.imp ?_⟩
  · obtain ⟨t, ht, htoken⟩ := hread.globalsNamed g hg
    exact (hnames t ht g.name htoken).isWord
  · rintro f body ⟨hf, ⟨stmts, locals, hreadAs⟩, notes, notes', hbody⟩
    exact ⟨hread.hasNames hnames hf, hreadAs.lowered hbody⟩

/-- Each line of a unit is one line of its text. -/
theorem Function.oneLine_of_lowered {globals : List Global} {fs : List Function}
    {bodies : List (List Line)} {size : Nat} (hword : ∀ g ∈ globals, IsWord g.name.toList)
    (hbodies : List.Forall₂ (fun f body => f.HasNames ∧ f.Lowered size body) fs bodies) :
    ∀ l ∈ globals.map Global.line ++ bodies.flatten, Text.OneLine l.text.toList := by
  refine List.forall_mem_append.2 ⟨List.forall_mem_map.2 fun g hg => ?_, fun l hl => ?_⟩
  · exact Line.oneLine_text (hword g hg) nofun
  · obtain ⟨body, hbody, hl⟩ := List.mem_flatten.1 hl
    obtain ⟨f, hf, hnames, hlowered⟩ := forall₂_mem_right hbodies hbody
    exact hlowered.oneLine hnames hl

/-- **The lines of a unit reach the machine just if its names can be read back.** -/
theorem SourceUnit.expands_iff_of_run {source : String} {tokens : List PlacedToken}
    {u : SourceUnit} (hscan : scan source = .ok tokens) (hparse : parse tokens = .ok u)
    {registers : Nat} (hregisters : registers ≤ machineRegisters) {notes notes' : Array Note}
    {lines : List Line} (hrun : u.program.lower registers notes = .ok lines notes') :
    (∃ target, (expandText (renderLines lines)).value = .ok target) ↔ u.program.Spelled := by
  have hread := SourceUnit.parse_readFrom hparse
  obtain ⟨hword, bodies, rfl, hbodies⟩ := lowered_of_lower hscan hparse hrun
  have honeLine := Function.oneLine_of_lowered hword hbodies
  rw [expandText_ok_iff, lines_renderLines honeLine, List.forall_mem_map, List.forall_mem_append,
    List.forall_mem_map]
  constructor
  · rintro ⟨hglobals, hfunctions⟩
    refine ⟨fun g hg => (Line.expands_global_iff (hword g hg) g.value).1 (hglobals g hg),
      fun f hf hdefined => ?_⟩
    have hf : f ∈ u.program.functions.filter (·.isDefined) := List.mem_filter.2 ⟨hf, hdefined⟩
    obtain ⟨body, hbody, hnamed, hlines⟩ := forall₂_mem_right hbodies.flip hf
    exact hlines.spelled hnamed fun l hl => hfunctions l (List.mem_flatten.2 ⟨body, hbody, hl⟩)
  · rintro ⟨hglobals, hfunctions⟩
    refine ⟨fun g hg => (Line.expands_global_iff (hword g hg) g.value).2 (hglobals g hg),
      fun l hl => ?_⟩
    obtain ⟨body, hbody, hl⟩ := List.mem_flatten.1 hl
    obtain ⟨f, hf, -, hlines⟩ := forall₂_mem_right hbodies hbody
    obtain ⟨hf, hdefined⟩ := List.mem_filter.1 hf
    refine hlines.expands hregisters (hfunctions f hf hdefined) (fun v hv label hlabel => ?_) hl
    -- a global that the function mentions is one of the file, and spelled as such
    obtain ⟨locals, hlaid⟩ := hread.laidOut hf
    obtain ⟨-, g, hg, rfl⟩ := hlaid.mem_of_global hv hlabel
    cases hlabel
    exact hglobals g hg

theorem SourceUnit.expands_iff {source : String} {tokens : List PlacedToken} {u : SourceUnit}
    (hscan : scan source = .ok tokens) (hparse : parse tokens = .ok u) {registers : Nat}
    (hregisters : registers ≤ machineRegisters) {lines : List Line}
    (hlower : (u.program.lower registers).value = .ok lines) :
    (∃ target, (expandText (renderLines lines)).value = .ok target) ↔ u.program.Spelled := by
  obtain ⟨notes, hrun⟩ := Logged.exists_of_value hlower
  exact expands_iff_of_run hscan hparse hregisters hrun

/-- **Register assembly reaches the machine just if its names can be read back.** With
a pool of two or three registers, the translation of a program of the front end
fails only if the name of a file-scope word or a function is not plain, if a
function that is called is named like a register, or if a function has so many
parameters that the words it drops cannot be told. -/
theorem registerAssembly_expands_iff {settings : Settings} {source : String} {p : Program}
    {high : String} (hregisters : settings.registers = 2 ∨ settings.registers = 3)
    (hfront : (frontEnd settings source).value = .ok p)
    (hhigh : (registerAssembly settings p).value = .ok high) :
    (∃ target, (expandText high).value = .ok target) ↔ p.Spelled := by
  obtain ⟨tokens, u, hscan, hparse, -, rfl⟩ := frontEnd_eq_ok.1 hfront
  obtain ⟨lines, hlower, rfl⟩ := lines_of_registerAssembly hhigh
  have hpool : settings.registers ≤ machineRegisters := by
    rcases hregisters with h | h <;> rw [h] <;> decide
  exact SourceUnit.expands_iff hscan hparse hpool hlower

/-- A function that counts a word at file scope down, and calls itself. -/
def countdownText : String :=
  "int g; void f() { if (g) { g = g - 1; f(); } } int main() { f(); return g; }"

/-- The element calls no function but the one of the given name. -/
def Element.callsOnly (name : String) : Element → Bool
  | operand (.result c) => c.name = name
  | _ => true

theorem Function.eq_of_callsOnly {f : Function} {name called : String}
    (h : (f.body.getD []).all (Element.callsOnly name) = true) (hcalled : f.Calls called) :
    called = name := by
  obtain ⟨c, hc, rfl⟩ := hcalled
  exact of_decide_eq_true (List.all_eq_true.1 h _ hc)

theorem registerAssembly_expands_countdownText :
    ∃ p high target, (frontEnd {} countdownText).value = .ok p ∧
      (registerAssembly {} p).value = .ok high ∧ (expandText high).value = .ok target := by
  -- all that the hypotheses ask of the program, evaluated at once
  have hrun : (match (frontEnd {} countdownText).value with
      | .error _ => false
      | .ok p => (registerAssembly {} p).value.isOk &&
        p.globals.all (fun g => isPlainName false g.name.toList) &&
        p.functions.all fun f => isPlainName false f.name.toList && f.arity = 0 &&
          (f.body.getD []).all (Element.callsOnly "f")) = true := by decide +kernel
  have hlegible : (Arg.label "f").Legible := by
    refine ⟨by decide, ?_⟩
    rintro (hspecial | ⟨digits, n, heq, -⟩)
    · exact absurd hspecial (by decide)
    · cases heq
  cases hfront : (frontEnd {} countdownText).value with
  | error e =>
    rw [hfront] at hrun
    cases hrun
  | ok p =>
    simp only [hfront, Bool.and_eq_true, List.all_eq_true, decide_eq_true_eq] at hrun
    obtain ⟨⟨hok, hglobals⟩, hfunctions⟩ := hrun
    cases hhigh : (registerAssembly {} p).value with
    | error e =>
      rw [hhigh] at hok
      cases hok
    | ok high =>
      have hspelled : p.Spelled := by
        refine ⟨hglobals, fun f hf _ => ?_⟩
        obtain ⟨⟨hname, harity⟩, hcalls⟩ := hfunctions f hf
        refine ⟨hname, fun name hname => ?_, by rw [harity]; decide⟩
        rw [Function.eq_of_callsOnly (List.all_eq_true.2 hcalls) hname]
        exact hlegible
      obtain ⟨target, htarget⟩ :=
        (registerAssembly_expands_iff (.inr rfl) hfront hhigh).2 hspelled
      exact ⟨p, high, target, rfl, hhigh, htarget⟩

/-- A function with the name of a register, and a call of it. -/
def calledRegisterText : String :=
  "int r1() { return 1; } int main() { return r1(); }"

/-- **A call of a function that is named like a register is not expanded**, and so its
program has register assembly that does not reach the machine. -/
theorem calledRegister_not_expanded :
    ∃ p high, (frontEnd {} calledRegisterText).value = .ok p ∧
      (registerAssembly {} p).value = .ok high ∧
      ∀ target, (expandText high).value ≠ .ok target := by
  have hrun : (match (frontEnd {} calledRegisterText).value with
      | .error _ => false
      | .ok p => (registerAssembly {} p).value.isOk &&
        p.functions.any fun f => f.isDefined &&
          (f.body.getD []).contains (.operand (.result ⟨"r1", 0⟩))) = true := by decide +kernel
  -- a call of `r1` is written as an operand that names a register
  have hregister : IsRegisterName "r1".toList :=
    .inr ⟨['1'], 1, by decide, by decide, by decide, by decide⟩
  cases hfront : (frontEnd {} calledRegisterText).value with
  | error e =>
    rw [hfront] at hrun
    cases hrun
  | ok p =>
    simp only [hfront, Bool.and_eq_true, List.any_eq_true, List.contains_iff_mem] at hrun
    obtain ⟨hok, f, hf, hdefined, hcall⟩ := hrun
    cases hhigh : (registerAssembly {} p).value with
    | error e =>
      rw [hhigh] at hok
      cases hok
    | ok high =>
      refine ⟨p, high, rfl, hhigh, fun target htarget => ?_⟩
      obtain ⟨tokens, u, hscan, hparse, -, rfl⟩ := frontEnd_eq_ok.1 hfront
      obtain ⟨lines, hlower, rfl⟩ := lines_of_registerAssembly hhigh
      have hspelled := (SourceUnit.expands_iff hscan hparse (by decide) hlower).1 ⟨target, htarget⟩
      exact ((hspelled.functions f hf hdefined).calls "r1" ⟨_, hcall, rfl⟩).2 hregister

end WordC
