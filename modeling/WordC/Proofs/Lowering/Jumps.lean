import Mathlib
import WordC.Proofs.Token.Partition
import WordC.Proofs.SourceUnit.Unit
import WordC.Proofs.Lowering.Labels
/-!
# Labels and jumps of a program

The lines of a program are those of its functions, and the labels among them are
the labels of their flows. So no label is defined twice in a program, also not
with underscores for dots, and every jump stays in its function
(`SourceUnit.parse_resolved`).
-/

namespace WordC

/-- The label that a line defines. -/
def Line.label? : Line → Option String
  | .label name => some name
  | _ => none

/-- The labels that lines define, in order. -/
def labelLines (lines : List Line) : List String :=
  lines.filterMap Line.label?

/-- **Every jump among the lines leads to a label among them.** -/
def JumpsInside (lines : List Line) : Prop :=
  ∀ l ∈ lines, l.mnemonic? = some .jmp ∨ l.mnemonic? = some .jz →
    ∃ target, (l.waypoint? = some (.jump target) ∨ l.waypoint? = some (.branch target)) ∧
      .label target ∈ lines

/-! ## From journals to lines -/

theorem labelsOf_waypoint (c : Code) : labelsOf c.waypoint = [] := by
  cases c <;> rfl

theorem Line.label?_of_waypoint? {l : Line} {w : Waypoint} (h : l.waypoint? = some w) :
    l.label? = w.label? := by
  unfold Line.waypoint? at h
  split at h <;> cases h <;> rfl

theorem Line.label?_of_waypoint?_none {l : Line} (h : l.waypoint? = none) : l.label? = none := by
  cases l with
  | label name => cases h
  | _ => rfl

/-- The labels of a journal are those of its waypoints. -/
theorem labelsOf_waypoints (p : Code) (xs : List Moment) :
    labelsOf (waypoints p xs) = labelLines (xs.filterMap Moment.line?) := by
  induction xs generalizing p with
  | nil => exact labelsOf_waypoint p
  | cons x xs ih =>
    -- only an emitted line can be a label; elements taken become code or end it
    obtain ⟨event, file⟩ := x
    cases event with
    | takes e =>
      change labelsOf (if e.inExpression then waypoints (p ++ [e]) xs
        else p.waypoint ++ waypoints [] xs) = _
      split
      · exact ih _
      · rw [labelsOf_append, labelsOf_waypoint]
        exact ih []
    | asks b => exact ih p
    | emits l =>
      have hline : labelLines (((⟨.emits l, file⟩ : Moment) :: xs).filterMap Moment.line?) =
          l.label?.toList ++ labelLines (xs.filterMap Moment.line?) := by
        change (l :: xs.filterMap Moment.line?).filterMap Line.label? = _
        rw [List.filterMap_cons]
        cases l.label? <;> rfl
      rw [hline]
      cases hl : l.waypoint? with
      | none =>
        rw [Line.label?_of_waypoint?_none hl]
        simp only [waypoints, hl]
        exact ih p
      | some w =>
        have hw : labelsOf [w] = w.label?.toList := by
          cases w <;> rfl
        rw [Line.label?_of_waypoint? hl, ← hw, ← ih []]
        simp only [waypoints, hl]
        rw [labelsOf_append, labelsOf_waypoint, List.nil_append, ← List.singleton_append,
          labelsOf_append]

/-- A line that is no waypoint jumps nowhere. -/
theorem Line.isQuiet_eq_false {l : Line} (h : l.mnemonic? = some .jmp ∨ l.mnemonic? = some .jz) :
    l.isQuiet = false := by
  cases l with
  | instruction mnemonic args note =>
    rcases h with h | h
    · cases h
      rfl
    · cases h
      rfl
  | _ => rcases h with h | h <;> cases h

/-- Where a waypoint of a jump leads. -/
theorem Line.target_of_waypoint? {l : Line} {w : Waypoint} (hl : l.waypoint? = some w)
    (h : l.mnemonic? = some .jmp ∨ l.mnemonic? = some .jz) :
    ∃ target, (w = .jump target ∨ w = .branch target) := by
  unfold Line.waypoint? at hl
  split at hl
  · rcases h with h | h <;> cases h
  · next target _ =>
    cases hl
    exact ⟨target, .inl rfl⟩
  · next target _ =>
    cases hl
    exact ⟨target, .inr rfl⟩
  · rcases h with h | h <;> cases h
  · cases hl

/-- **Jumps that resolve among the waypoints resolve among the lines.** -/
theorem Shows.jumpsInside {xs : List Moment} {ws : List Waypoint} (h : Shows [] xs ws [])
    (htargets : ∀ t ∈ targetsOf ws, t ∈ labelsOf ws) : JumpsInside (xs.filterMap Moment.line?) := by
  intro l hl hjump
  obtain ⟨x, hx, hline⟩ := List.mem_filterMap.1 hl
  obtain ⟨event, file⟩ := x
  cases event with
  | takes | asks => cases hline
  | emits l' =>
    cases hline
    -- a jump is not quiet, so it is one of the waypoints
    have hsome : l.waypoint?.isSome = true := by
      rcases h.lines _ hx l rfl with hquiet | hsome
      · rw [Line.isQuiet_eq_false hjump] at hquiet
        cases hquiet
      · exact hsome
    obtain ⟨w, hw⟩ := Option.isSome_iff_exists.1 hsome
    obtain ⟨before, after, hsplit⟩ := List.append_of_mem hx
    obtain ⟨vs, hvs⟩ := waypoints_split hw file [] before after
    have hmem : w ∈ ws := by
      rw [← h.eq, hsplit, hvs]
      simp
    obtain ⟨target, htarget⟩ := Line.target_of_waypoint? hw hjump
    have hlabel : target ∈ labelsOf ws := by
      refine htargets target (List.mem_filterMap.2 ⟨w, hmem, ?_⟩)
      rcases htarget with rfl | rfl
      · rfl
      · rfl
    rw [← h.eq, labelsOf_waypoints] at hlabel
    obtain ⟨l', hl', hname⟩ := List.mem_filterMap.1 hlabel
    refine ⟨target, ?_, ?_⟩
    · rcases htarget with rfl | rfl
      · exact .inl hw
      · exact .inr hw
    · cases l' with
      | label name =>
        cases hname
        exact hl'
      | _ => cases hname

/-! ## The labels of a function -/

/-- The names are those of different labels of a function. -/
def NamesOf (function : String) (names : List String) : Prop :=
  ∃ keys : List LabelKey, names.Perm (keys.map (·.name function)) ∧ keys.Nodup ∧
    ∀ k ∈ keys, k.path ≠ []

theorem labelsOf_append_last (ws : List Waypoint) {last : List Waypoint}
    (h : last = [.stop] ∨ last = []) :
    labelsOf (ws ++ last) = labelsOf ws ∧ targetsOf (ws ++ last) = targetsOf ws := by
  rcases h with rfl | rfl
  · simp
  · simp

/-- **The labels and jumps of a function that was read.** -/
theorem Function.ReadAs.resolved {nodes : Nat} {file locals : List Variable} {f : Function}
    {stmts : List Stmt} (h : f.ReadAs nodes file stmts locals) {registers : Nat}
    {notes notes' : Array Note} {lines : List Line}
    (hlower : f.lower registers notes = .ok lines notes') :
    NamesOf f.name (labelLines lines) ∧ JumpsInside lines := by
  obtain ⟨a, notes₁, hassemble, hlines⟩ := bind_eq_ok.1 hlower
  cases hlines
  have hplain : blockSound Code.Plain false stmts := h.sound.mono fun _ hcode => hcode.plain
  obtain ⟨last, hshows, hlast⟩ := Function.assemble_shows h.body hplain hassemble
  have hkind : last = [.stop] ∨ last = [] := hlast.imp id And.left
  obtain ⟨hlabels, htargets⟩ := labelsOf_append_last (blockFlow f.name 0 none stmts {}).1 hkind
  have hlines : a.lines.toList = a.journal.toList.filterMap Moment.line? := by
    rw [Assembler.lines, Array.toList_filterMap]
  rw [hlines]
  constructor
  · rw [← labelsOf_waypoints [], hshows.eq, hlabels]
    obtain ⟨keys, hkeys, hnodup, hnumbered⟩ := (blockFlow_keyed f.name 0 none {} stmts).keys
    refine ⟨keys, hkeys, hnodup, fun k hk => ?_⟩
    exact List.ne_nil_of_length_pos (hnumbered k hk).deep
  -- at the top level there is no loop to leave
  · refine hshows.jumpsInside fun t ht => ?_
    rw [htargets] at ht
    rw [hlabels]
    rcases mem_labelsOf_blockFlow f.name 0 none {} stmts t ht with hmem | hleave
    · exact hmem
    · cases hleave

/-! ## The labels of a program -/

/-- The results of a row of steps are those of its steps. -/
theorem forall₂_of_mapM {ε σ α β : Type} {g : α → EStateM ε σ β} {as : List α} {bs : List β}
    {s s' : σ} (h : as.mapM g s = .ok bs s') :
    List.Forall₂ (fun a b => ∃ s s', g a s = .ok b s') as bs := by
  induction as generalizing s bs with
  | nil =>
    cases h
    exact .nil
  | cons a as ih =>
    rw [List.mapM_cons] at h
    obtain ⟨b, s₁, hb, h⟩ := bind_eq_ok.1 h
    obtain ⟨bs', s₂, hbs, h⟩ := bind_eq_ok.1 h
    cases h
    exact .cons ⟨s, s₁, hb⟩ (ih hbs)

/-- **The lines of a program** are those of its file-scope words and of its defined
functions. -/
theorem Program.lines_of_run {p : Program} {registers : Nat} {lines : List Line}
    {notes notes' : Array Note} (h : p.lower registers notes = .ok lines notes') :
    ∃ bodies : List (List Line), lines = p.globals.map Global.line ++ bodies.flatten ∧
      List.Forall₂ (fun f body => ∃ notes notes', f.lower registers notes = .ok body notes')
        (p.functions.filter (·.isDefined)) bodies := by
  unfold Program.lower at h
  split at h
  · cases h
  obtain ⟨bodies, notes₂, hbodies, h⟩ := bind_eq_ok.1 h
  obtain ⟨_, notes₃, -, h⟩ := bind_eq_ok.1 h
  cases h
  refine ⟨bodies, rfl, (forall₂_of_mapM hbodies).imp ?_⟩
  rintro f body ⟨notes, notes', hbody⟩
  obtain ⟨_, notes'', -, hbody⟩ := bind_eq_ok.1 hbody
  exact ⟨notes'', notes', hbody⟩

/-- The functions of a program that was read are lowered from the statements that they were
read as. -/
theorem Program.ReadFrom.lines_of_run {tokens : List PlacedToken} {p : Program}
    (hread : p.ReadFrom tokens) {registers : Nat} {lines : List Line} {notes notes' : Array Note}
    (h : p.lower registers notes = .ok lines notes') :
    ∃ bodies : List (List Line), lines = p.globals.map Global.line ++ bodies.flatten ∧
      List.Forall₂ (fun f body => f ∈ p.functions ∧
          (∃ stmts locals,
            f.ReadAs (tokens.length + 1) (p.globals.map Global.variable) stmts locals) ∧
          ∃ notes notes', f.lower registers notes = .ok body notes')
        (p.functions.filter (·.isDefined)) bodies := by
  obtain ⟨bodies, hlines, hbodies⟩ := Program.lines_of_run h
  have hmem : ∀ f ∈ p.functions.filter (·.isDefined), f ∈ p.functions ∧
      ∃ stmts locals, f.ReadAs (tokens.length + 1) (p.globals.map Global.variable) stmts locals := by
    intro f hf
    obtain ⟨hf, hdefined⟩ := List.mem_filter.1 hf
    obtain ⟨linear, hlinear⟩ := Option.isSome_iff_exists.1 hdefined
    exact ⟨hf, hread.functions f hf linear hlinear⟩
  refine ⟨bodies, hlines, ((List.forall₂_and_left _ _).2 ⟨hmem, hbodies⟩).imp ?_⟩
  rintro f body ⟨⟨hf, hreadAs⟩, hbody⟩
  exact ⟨hf, hreadAs, hbody⟩

theorem forall₂_mem_right {α β : Type} {R : α → β → Prop} {as : List α} {bs : List β}
    (h : List.Forall₂ R as bs) {b : β} (hb : b ∈ bs) : ∃ a ∈ as, R a b := by
  induction h with
  | nil => cases hb
  | cons hab _ ih =>
    rcases List.mem_cons.1 hb with rfl | hb
    · exact ⟨_, List.mem_cons_self, hab⟩
    · obtain ⟨a, ha, hab⟩ := ih hb
      exact ⟨a, List.mem_cons_of_mem _ ha, hab⟩

/-- Names of different functions are different, also on the machine. -/
theorem nodup_of_namesOf {functions : List Function} {names : List (List String)}
    (hnames : List.Forall₂ (fun f ns => NamesOf f.name ns) functions names)
    (hnodup : (functions.map Function.name).Nodup)
    (hdot : ∀ f ∈ functions, '.' ∉ f.name.toList) :
    (names.flatten.map machineLabel).Nodup := by
  induction hnames with
  | nil => exact List.nodup_nil
  | @cons f ns functions names hfirst hrest ih =>
    rw [List.map_cons, List.nodup_cons] at hnodup
    rw [List.forall_mem_cons] at hdot
    rw [List.flatten_cons, List.map_append]
    refine List.nodup_append'.2 ⟨?_, ih hnodup.2 hdot.2, ?_⟩
    · obtain ⟨keys, hkeys, hdistinct, hpath⟩ := hfirst
      refine (hkeys.map machineLabel).nodup_iff.2 ?_
      rw [List.map_map]
      refine hdistinct.map_on fun k hk k' hk' heq => ?_
      exact (LabelKey.machineLabel_injective hdot.1 hdot.1 (hpath k hk) (hpath k' hk') heq).2
    · -- a label that two functions share would give them one name
      intro label hmem hmem'
      obtain ⟨name, hname, rfl⟩ := List.mem_map.1 hmem
      obtain ⟨name', hname', heq⟩ := List.mem_map.1 hmem'
      obtain ⟨ns', hns', hname'⟩ := List.mem_flatten.1 hname'
      obtain ⟨g, hg, keys', hkeys', -, hpath'⟩ := forall₂_mem_right hrest hns'
      obtain ⟨keys, hkeys, -, hpath⟩ := hfirst
      obtain ⟨k, hk, rfl⟩ := List.mem_map.1 (hkeys.mem_iff.1 hname)
      obtain ⟨k', hk', rfl⟩ := List.mem_map.1 (hkeys'.mem_iff.1 hname')
      have hsame := (LabelKey.machineLabel_injective (hdot.2 g hg) hdot.1 (hpath' k' hk')
        (hpath k hk) heq).1
      exact hnodup.1 (hsame ▸ List.mem_map_of_mem hg)

/-- A label on the machine has an underscore in it. -/
theorem LabelKey.machineLabel_ne {function name : String} (hdot : '.' ∉ function.toList)
    (hname : '_' ∉ name.toList) {k : LabelKey} (hk : k.path ≠ []) :
    machineLabel (k.name function) ≠ name := by
  intro heq
  refine hname ?_
  rw [← heq, LabelKey.toList_machineLabel hdot hk]
  simp

theorem labelLines_append (lines rest : List Line) :
    labelLines (lines ++ rest) = labelLines lines ++ labelLines rest :=
  List.filterMap_append

theorem labelLines_globals (globals : List Global) : labelLines (globals.map Global.line) = [] := by
  induction globals with
  | nil => rfl
  | cons g globals ih => exact ih

theorem labelLines_flatten (bodies : List (List Line)) :
    labelLines bodies.flatten = (bodies.map labelLines).flatten := by
  induction bodies with
  | nil => rfl
  | cons body bodies ih => rw [List.flatten_cons, labelLines_append, ih]; rfl

namespace SourceUnit

/-- **Labels are unique and jumps resolve.** No label is defined twice in a program,
also not with underscores for dots, none is the label of the idle loop, and every
jump leads to a label of its own function. -/
theorem parse_resolved {source : String} {tokens : List PlacedToken} {u : SourceUnit}
    (hscan : scan source = .ok tokens) (hparse : parse tokens = .ok u) {registers : Nat}
    {lines : List Line} (hlower : (u.program.lower registers).value = .ok lines) :
    (labelLines lines).Nodup ∧ ((labelLines lines).map machineLabel).Nodup ∧
      "idle" ∉ (labelLines lines).map machineLabel ∧
      ∃ bodies : List (List Line), lines = u.program.globals.map Global.line ++ bodies.flatten ∧
        List.Forall₂ (fun f body =>
            (∃ notes notes', f.lower registers notes = .ok body notes') ∧ JumpsInside body)
          (u.program.functions.filter (·.isDefined)) bodies := by
  have hread := parse_readFrom hparse
  obtain ⟨notes, hrun⟩ := Logged.exists_of_value hlower
  obtain ⟨bodies, rfl, hbodies⟩ := hread.lines_of_run hrun
  have hlabels : labelLines (u.program.globals.map Global.line ++ bodies.flatten) =
      (bodies.map labelLines).flatten := by
    rw [labelLines_append, labelLines_globals, List.nil_append, labelLines_flatten]
  -- the names of functions come from the text
  have hdot : ∀ f ∈ u.program.functions.filter (·.isDefined), '.' ∉ f.name.toList := by
    intro f hf hmem
    obtain ⟨t, ht, hname⟩ := hread.named f (List.mem_filter.1 hf).1
    have hpart := (scan_names hscan t ht f.name hname).part '.' hmem
    exact absurd hpart (by decide)
  have hnodup : ((u.program.functions.filter (·.isDefined)).map Function.name).Nodup :=
    hread.functionNames.sublist (List.filter_sublist.map _)
  have hresolved : List.Forall₂ (fun f body =>
      (∃ notes notes', f.lower registers notes = .ok body notes') ∧
        NamesOf f.name (labelLines body) ∧ JumpsInside body)
      (u.program.functions.filter (·.isDefined)) bodies := by
    refine hbodies.imp ?_
    rintro f body ⟨-, ⟨stmts, locals, hf⟩, notes, notes', hbody⟩
    exact ⟨⟨notes, notes', hbody⟩, hf.resolved hbody⟩
  have hnames : List.Forall₂ (fun f ns => NamesOf f.name ns)
      (u.program.functions.filter (·.isDefined)) (bodies.map labelLines) := by
    rw [List.forall₂_map_right_iff]
    exact hresolved.imp fun f body h => h.2.1
  have hmachine : ((labelLines (u.program.globals.map Global.line ++ bodies.flatten)).map
      machineLabel).Nodup := by
    rw [hlabels]
    exact nodup_of_namesOf hnames hnodup hdot
  refine ⟨hmachine.of_map machineLabel, hmachine, ?_, bodies, rfl, ?_⟩
  · rw [hlabels]
    intro hmem
    obtain ⟨name, hname, hidle⟩ := List.mem_map.1 hmem
    obtain ⟨ns, hns, hname⟩ := List.mem_flatten.1 hname
    obtain ⟨f, hf, keys, hkeys, -, hpath⟩ := forall₂_mem_right hnames hns
    obtain ⟨k, hk, rfl⟩ := List.mem_map.1 (hkeys.mem_iff.1 hname)
    exact LabelKey.machineLabel_ne (hdot f hf) (by decide) (hpath k hk) hidle
  · exact hresolved.imp fun f body h => ⟨h.1, h.2.2⟩

/-- Two functions whose names differ by what labels are made of, with a chain of
three branches and both kinds of loops. -/
def branchingText : String :=
  "void f(int a) { while (a) { if (a) break; else if (a) a = 1; else f(a); } } " ++
  "void f_if_0(int a) { for (;;) if (a) return; }"

theorem parse_resolved_branchingText : ∃ tokens u lines, scan branchingText = .ok tokens ∧
    parse tokens = .ok u ∧ (u.program.lower 2).value = .ok lines ∧
    (labelLines lines).length = 8 ∧ ((labelLines lines).map machineLabel).Nodup := by
  have hreads : reads branchingText (fun u => (u.program.lower 2).value.toOption.any fun lines =>
      (labelLines lines).length = 8) = true := by decide +kernel
  obtain ⟨tokens, u, hscan, hparse, hrun⟩ := exists_of_reads hreads
  cases hlower : (u.program.lower 2).value with
  | error e =>
    rw [hlower] at hrun
    cases hrun
  | ok lines =>
    rw [hlower] at hrun
    exact ⟨tokens, u, lines, hscan, hparse, hlower, of_decide_eq_true hrun,
      (parse_resolved hscan hparse hlower).2.1⟩

end SourceUnit

end WordC
