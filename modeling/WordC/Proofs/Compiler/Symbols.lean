import Mathlib
import WordC.Proofs.Compiler.Translation
import WordC.Proofs.Machine.Blocks
/-!
# The symbols of a compiled program

The data blocks of a compiled program are its file-scope words and its code blocks are
its functions, with the block `__init` behind them. So no block of a kind has the name
of another one, unless a function is called `__init` (`compile_blockNames`).
-/

namespace WordC

/-! ## Lines -/

namespace Line

/-- The name of the block of the given kind that a line becomes. -/
def opened? (kind : BlockKind) : Line → Option String
  | function name => if kind = .code then some name else none
  | global name _ => if kind = .data then some name else none
  | _ => none

/-- **A line that reaches the machine is read as the block that it becomes.** The name of a
label must be plain, or it could be taken for something else. -/
theorem bind_opened? {l : Line} (h : l.Worded)
    (hlabel : ∀ name, l = label name → isPlainName true name.toList = true)
    (hexpands : Expands l.text.toList) (kind : BlockKind) :
    (readLine? l.text.toList).bind (·.content.opened? kind) = l.opened? kind := by
  obtain ⟨found, hread⟩ := Option.ne_none_iff_exists'.1 hexpands.readLine?
  rw [hread, Option.bind_some]
  cases l with
  | global name value =>
    rw [readLine?_global h value] at hread
    split at hread
    · cases hread
      rfl
    · cases hread
  | function name =>
    rw [readLine?_function h] at hread
    split at hread
    · cases hread
      rfl
    · cases hread
  | label name =>
    have htext : readLine? (label name).text.toList = some (label name).asRead :=
      readLine?_text (hlabel name rfl) nofun
    rw [htext] at hread
    cases hread
    rfl
  | instruction m args note =>
    rw [readLine?_instruction m h note] at hread
    obtain ⟨read, -, rfl⟩ := Option.map_eq_some_iff.1 hread
    rfl
  | comment text =>
    -- read as a comment, or as nothing if it is blank: neither is a block
    rw [readLine?_comment] at hread
    cases hread
    cases readNote? (' ' :: text.toList) with
    | none => rfl
    | some found => rfl

end Line

/-! ## Functions -/

namespace Function.Lowered

variable {f : Function} {size : Nat} {lines : List Line}

/-- **The lines of a function become one block.** -/
theorem opened? (h : f.Lowered size lines) (kind : BlockKind) :
    lines.filterMap (Line.opened? kind) = if kind = .code then [f.name] else [] := by
  obtain ⟨behind, rfl, hwrites⟩ := h.head
  have hbehind : behind.filterMap (Line.opened? kind) = [] := by
    refine List.filterMap_eq_nil_iff.2 fun l hl => ?_
    cases hwrites l hl with
    | label | call | ret | instruction => rfl
  rw [List.filterMap_cons, hbehind, Line.opened?]
  cases kind with
  | code => rfl
  | data => rfl

theorem bind_opened? (h : f.Lowered size lines) (hf : f.HasNames)
    (hlines : ∀ l ∈ lines, Expands l.text.toList) {l : Line} (hl : l ∈ lines) (kind : BlockKind) :
    (readLine? l.text.toList).bind (·.content.opened? kind) = l.opened? kind := by
  refine Line.bind_opened? (h.worded hf hl).1 ?_ (hlines l hl) kind
  rintro name rfl
  obtain ⟨k, hk, rfl⟩ := h.own_of_label hl
  exact (LabelKey.legible_name hk (h.spelled hf hlines).name).1

end Function.Lowered

theorem opened?_bodies {fs : List Function} {bodies : List (List Line)} {size : Nat}
    (h : List.Forall₂ (fun f body => f.HasNames ∧ f.Lowered size body) fs bodies)
    (kind : BlockKind) :
    bodies.flatten.filterMap (Line.opened? kind) =
      if kind = .code then fs.map Function.name else [] := by
  induction h with
  | nil => cases kind <;> rfl
  | cons hbody _ ih =>
    rw [List.flatten_cons, List.filterMap_append, hbody.2.opened? kind, ih]
    cases kind <;> rfl

theorem opened?_globals (globals : List Global) (kind : BlockKind) :
    (globals.map Global.line).filterMap (Line.opened? kind) =
      if kind = .data then globals.map Global.name else [] := by
  rw [List.filterMap_map]
  cases kind with
  | code => exact List.filterMap_eq_nil_iff.2 fun _ _ => rfl
  | data => exact congrFun List.filterMap_eq_map' globals

/-! ## Programs -/

/-- The blocks of a text of lines are those that its lines become. -/
theorem blockNames_of_lines {lines : List Line} {target : String}
    (h : (expandText (renderLines lines)).value = .ok target)
    (honeLine : ∀ l ∈ lines, Text.OneLine l.text.toList) {kind : BlockKind}
    (hopened : ∀ l ∈ lines,
      (readLine? l.text.toList).bind (·.content.opened? kind) = l.opened? kind) :
    blockNames kind target =
      lines.filterMap (Line.opened? kind) ++ if kind = .code then ["__init"] else [] := by
  rw [blockNames_of_expandText h, lines_renderLines honeLine, List.filterMap_map,
    ← List.filterMap_congr hopened]
  rfl

/-- **The blocks of a unit**: one for each file-scope word and each function with a body. -/
theorem SourceUnit.blockNames_of_lower {source : String} {tokens : List PlacedToken}
    {u : SourceUnit} (hscan : scan source = .ok tokens) (hparse : parse tokens = .ok u)
    {registers : Nat} {notes notes' : Array Note} {lines : List Line}
    (hlower : u.program.lower registers notes = .ok lines notes') {target : String}
    (htarget : (expandText (renderLines lines)).value = .ok target) :
    blockNames .data target = u.program.globals.map Global.name ∧
      blockNames .code target =
        (u.program.functions.filter (·.isDefined)).map Function.name ++ ["__init"] := by
  obtain ⟨hword, bodies, rfl, hbodies⟩ := lowered_of_lower hscan hparse hlower
  have honeLine := Function.oneLine_of_lowered hword hbodies
  have hexpands := (expandText_ok_iff _).1 ⟨target, htarget⟩
  rw [lines_renderLines honeLine, List.forall_mem_map, List.forall_mem_append,
    List.forall_mem_map] at hexpands
  obtain ⟨hglobals, hfunctions⟩ := hexpands
  -- no line is taken for another kind of line when it is read back
  have hopened : ∀ kind, ∀ l ∈ u.program.globals.map Global.line ++ bodies.flatten,
      (readLine? l.text.toList).bind (·.content.opened? kind) = l.opened? kind := by
    intro kind
    refine List.forall_mem_append.2 ⟨List.forall_mem_map.2 fun g hg => ?_, fun l hl => ?_⟩
    · have hworded : g.line.Worded := hword g hg
      exact Line.bind_opened? hworded nofun (hglobals g hg) kind
    · obtain ⟨body, hbody, hl⟩ := List.mem_flatten.1 hl
      obtain ⟨f, -, hnames, hlowered⟩ := forall₂_mem_right hbodies hbody
      exact hlowered.bind_opened? hnames
        (fun l hl => hfunctions l (List.mem_flatten.2 ⟨body, hbody, hl⟩)) hl kind
  constructor
  · rw [blockNames_of_lines htarget honeLine (hopened _), List.filterMap_append, opened?_globals,
      opened?_bodies hbodies]
    simp
  · rw [blockNames_of_lines htarget honeLine (hopened _), List.filterMap_append, opened?_globals,
      opened?_bodies hbodies]
    simp

theorem steady_expandText (source : String) : Logged.Steady (expandText source) :=
  (Logged.steady_ofExcept _).bind fun _ =>
    (Logged.steady_note _ _).bind fun _ => Logged.steady_pure _

/-- A program is compiled in two steps, to register assembly and to a machine text. -/
theorem compile_eq_ok {settings : Settings} {source : String} {texts : CompiledText} :
    (compile settings source).value = .ok texts ↔
      Logged.value (frontEnd settings source >>= registerAssembly settings) = .ok texts.high ∧
      (expandText texts.high).value = .ok texts.target := by
  constructor
  · intro h
    obtain ⟨_, hrun⟩ := Logged.exists_of_value h
    obtain ⟨p, notes, hfront, hback⟩ := bind_eq_ok.1 hrun
    obtain ⟨high, notes₁, hhigh, hback⟩ := bind_eq_ok.1 hback
    obtain ⟨target, notes₂, htarget, hback⟩ := bind_eq_ok.1 hback
    cases hback
    exact ⟨Logged.value_of_ok (bind_eq_ok.2 ⟨p, notes, hfront, hhigh⟩),
      ((steady_expandText high).value_eq_ok notes₁).2 ⟨_, Logged.mapError_eq_ok.1 htarget⟩⟩
  · rintro ⟨hhigh, htarget⟩
    obtain ⟨notes₁, hrun⟩ := Logged.exists_of_value hhigh
    obtain ⟨p, notes, hfront, hhigh⟩ := bind_eq_ok.1 hrun
    -- there are notes by now, which the expansion does not look at
    obtain ⟨notes₂, htarget⟩ := ((steady_expandText texts.high).value_eq_ok notes₁).1 htarget
    have hback : backEnd settings p notes = .ok texts _ :=
      bind_eq_ok.2 ⟨_, _, hhigh, bind_eq_ok.2 ⟨_, _, Logged.mapError_eq_ok.2 htarget, rfl⟩⟩
    exact Logged.value_of_ok (bind_eq_ok.2 ⟨p, notes, hfront, hback⟩)

/-- **A compiled text went through every step.** -/
theorem exists_of_compile {settings : Settings} {source : String} {texts : CompiledText}
    (h : (compile settings source).value = .ok texts) :
    ∃ p lines notes notes', (frontEnd settings source).value = .ok p ∧
      p.lower settings.registers notes = .ok lines notes' ∧ texts.high = renderLines lines ∧
      (expandText texts.high).value = .ok texts.target := by
  obtain ⟨hhigh, htarget⟩ := compile_eq_ok.1 h
  obtain ⟨notes', hrun⟩ := Logged.exists_of_value hhigh
  obtain ⟨p, notes, hfront, hhigh⟩ := bind_eq_ok.1 hrun
  obtain ⟨lines, hlower, hlines⟩ := lines_of_run_registerAssembly hhigh
  exact ⟨p, lines, notes, notes', Logged.value_of_ok hfront, hlower, hlines, htarget⟩

/-- **The blocks of a compiled program.** -/
theorem blockNames_of_compile {settings : Settings} {source : String} {texts : CompiledText}
    (h : (compile settings source).value = .ok texts) :
    ∃ tokens, ∃ u : SourceUnit, SourceUnit.parse tokens = .ok u ∧
      (frontEnd settings source).value = .ok u.program ∧
      blockNames .data texts.target = u.program.globals.map Global.name ∧
      blockNames .code texts.target =
        (u.program.functions.filter (·.isDefined)).map Function.name ++ ["__init"] := by
  obtain ⟨p, lines, notes, notes', hfront, hlower, hhigh, htarget⟩ := exists_of_compile h
  obtain ⟨tokens, u, hscan, hparse, -, rfl⟩ := frontEnd_eq_ok.1 hfront
  rw [hhigh] at htarget
  exact ⟨tokens, u, hparse, hfront,
    SourceUnit.blockNames_of_lower hscan hparse hlower htarget⟩

/-- **The names of blocks are distinct**, but for one case. The data blocks of a compiled
program are its file-scope words and its code blocks are the functions that have a body, with
`__init` behind them. So two blocks of a kind have one name just if a function is called
`__init`. -/
theorem compile_blockNames {settings : Settings} {source : String} {texts : CompiledText}
    (h : (compile settings source).value = .ok texts) :
    ∃ p, (frontEnd settings source).value = .ok p ∧
      blockNames .data texts.target = p.globals.map Global.name ∧
      blockNames .code texts.target =
        (p.functions.filter (·.isDefined)).map Function.name ++ ["__init"] ∧
      (blockNames .data texts.target).Nodup ∧
      ((blockNames .code texts.target).Nodup ↔
        ∀ f ∈ p.functions, f.isDefined = true → f.name ≠ "__init") := by
  obtain ⟨tokens, u, hparse, hfront, hdata, hcode⟩ := blockNames_of_compile h
  have hread := SourceUnit.parse_readFrom hparse
  have hfunctions : ((u.program.functions.filter (·.isDefined)).map Function.name).Nodup :=
    hread.functionNames.sublist (List.filter_sublist.map _)
  refine ⟨u.program, hfront, hdata, hcode, hdata ▸ hread.globalNames, ?_⟩
  rw [hcode, List.nodup_append_comm, List.singleton_append, List.nodup_cons]
  refine (and_iff_left hfunctions).trans ?_
  simp [List.mem_map, List.mem_filter]

/-! ## Texts that are compiled -/

/-- The program has plain names and no parameters, and calls no function but the one of the
given name. -/
def Program.callsOnly (p : Program) (name : String) : Bool :=
  p.globals.all (fun g => isPlainName false g.name.toList) &&
    p.functions.all fun f => isPlainName false f.name.toList && f.arity = 0 &&
      (f.body.getD []).all (Element.callsOnly name)

theorem Program.spelled_of_callsOnly {p : Program} {name : String}
    (hname : (Arg.label name).Legible) (h : p.callsOnly name = true) : p.Spelled := by
  simp only [callsOnly, Bool.and_eq_true, List.all_eq_true, decide_eq_true_eq] at h
  refine ⟨h.1, fun f hf _ => ?_⟩
  obtain ⟨⟨hplain, harity⟩, hcalls⟩ := h.2 f hf
  refine ⟨hplain, fun called hcalled => ?_, by rw [harity]; decide⟩
  rw [Function.eq_of_callsOnly (List.all_eq_true.2 hcalls) hcalled]
  exact hname

/-- Such a program is compiled, if it has register assembly. No text has to be computed to
see this. -/
theorem exists_compile {settings : Settings} {source name : String} {q : Program → Bool}
    (hsize : settings.registers ≤ machineRegisters) (hname : (Arg.label name).Legible)
    (h : (Logged.value (do
      let p ← frontEnd settings source
      let _ ← registerAssembly settings p
      return p.callsOnly name && q p)).toOption = some true) :
    ∃ p texts, (frontEnd settings source).value = .ok p ∧ q p = true ∧
      (compile settings source).value = .ok texts := by
  obtain ⟨notes, hrun⟩ := Logged.exists_of_value (Logged.value_of_toOption h)
  obtain ⟨p, notes₁, hfront, hrun⟩ := bind_eq_ok.1 hrun
  obtain ⟨high, notes₂, hhigh, hrun⟩ := bind_eq_ok.1 hrun
  obtain ⟨hcalls, hq⟩ : p.callsOnly name = true ∧ q p = true :=
    Bool.and_eq_true_iff.1 (by injection hrun)
  have hvalue := Logged.value_of_ok hfront
  obtain ⟨tokens, u, hscan, hparse, -, rfl⟩ := frontEnd_eq_ok.1 hvalue
  -- the target text is never evaluated: the lines expand because of how they are spelled
  obtain ⟨lines, hlower, rfl⟩ := lines_of_run_registerAssembly hhigh
  have hspelled := Program.spelled_of_callsOnly hname hcalls
  obtain ⟨target, htarget⟩ :=
    (SourceUnit.expands_iff_of_run hscan hparse hsize hlower).2 hspelled
  refine ⟨u.program, ⟨renderLines lines, target⟩, hvalue, hq, compile_eq_ok.2 ⟨?_, htarget⟩⟩
  exact Logged.value_of_ok (bind_eq_ok.2 ⟨_, _, hfront, hhigh⟩)

theorem legible_label_f : (Arg.label "f").Legible := by
  refine ⟨by decide, ?_⟩
  rintro (hspecial | ⟨digits, n, heq, -⟩)
  · exact absurd hspecial (by decide)
  · cases heq

/-- A function that is announced and called before its body is given. -/
def announcedText : String :=
  "int g; int f(); int main() { return f(); } int f() { return g; }"

theorem compile_blockNames_announcedText :
    ∃ texts, (compile { registers := 2 } announcedText).value = .ok texts ∧
      (blockNames .data texts.target).Nodup ∧ (blockNames .code texts.target).Nodup := by
  have hrun : (Logged.value (do
      let p ← frontEnd { registers := 2 } announcedText
      let _ ← registerAssembly { registers := 2 } p
      return p.callsOnly "f" && p.functions.all fun f => f.name ≠ "__init")).toOption =
        some true := by
    decide +kernel
  obtain ⟨p, texts, hfront, hp, hcompile⟩ := exists_compile (by decide) legible_label_f hrun
  obtain ⟨p', hfront', -, -, hdata, hcode⟩ := compile_blockNames hcompile
  rw [hfront] at hfront'
  cases hfront'
  refine ⟨texts, hcompile, hdata, hcode.2 fun f hf _ => ?_⟩
  exact of_decide_eq_true (List.all_eq_true.1 hp f hf)

/-- A program with a function of the name of the block that starts the machine. -/
def initText : String :=
  "int __init() { return 0; } int main() { return 0; }"

/-- **A function that is called `__init` is a second block of that name**, and its program
is compiled. -/
theorem compile_initText :
    ∃ texts, (compile {} initText).value = .ok texts ∧
      blockNames .code texts.target = ["__init", "main", "__init"] ∧
      ¬(blockNames .code texts.target).Nodup := by
  have hrun : (Logged.value (do
      let p ← frontEnd {} initText
      let _ ← registerAssembly {} p
      return p.callsOnly "f" &&
        (p.functions.filter (·.isDefined)).map Function.name = ["__init", "main"])).toOption =
        some true := by
    decide +kernel
  obtain ⟨p, texts, hfront, hp, hcompile⟩ := exists_compile (by decide) legible_label_f hrun
  obtain ⟨tokens, u, -, hfront', -, hcode⟩ := blockNames_of_compile hcompile
  rw [hfront] at hfront'
  cases hfront'
  rw [of_decide_eq_true hp] at hcode
  exact ⟨texts, hcompile, hcode, hcode ▸ by decide⟩

end WordC
