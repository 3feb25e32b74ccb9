import Mathlib
import WordC.Command.Session
import WordC.Proofs.Artifact.RoundTrip
import WordC.Proofs.Command.Files
import WordC.Proofs.Stateful
/-!
# Sessions that go on from a saved program

A session adds effects to those it finds (`Session.Does`), so the effects of steps
in a row are those of the steps in a row. What a session does with a program
depends on the stage, the pool of registers and the files for its results, and on
nothing that is known of the source text. A session that begins with a saved
program therefore prints and writes what the session that saved it printed and
wrote, and fails as it failed (`World.session_resumed`).
-/

namespace WordC

/-! ## What the steps of a session do -/

namespace Session

variable {α β : Type} {o o' : Options} {p : Program}

/-- **The step adds the effects to those there are**, with the given outcome. -/
def Does (x : Session α) (added : List Effect) (outcome : Except Error α) : Prop :=
  ∀ effects, x effects = match outcome with
    | .ok a => .ok a (effects ++ added.toArray)
    | .error e => .error e (effects ++ added.toArray)

theorem does_pure (a : α) : Does (pure a) [] (.ok a) := by
  intro effects
  simp

theorem does_effect (e : Effect) : Does (effect e) [e] (.ok ()) := by
  intro effects
  simp [effect]

/-- A stage of the compiler adds its notes. -/
theorem does_stage (x : Compile α) :
    ∃ notes : List Note, Does (stage x) (notes.map .note) x.value := by
  unfold Does stage Logged.value
  cases x #[] with
  | ok a notes =>
    refine ⟨notes.toList, fun effects => ?_⟩
    rw [← Array.toList_map, Array.toArray_toList]
  | error e notes =>
    refine ⟨notes.toList, fun effects => ?_⟩
    rw [← Array.toList_map, Array.toArray_toList]

theorem Does.bind {x : Session α} {f : α → Session β} {added added' : List Effect} {a : α}
    {outcome : Except Error β} (hx : Does x added (.ok a)) (hf : Does (f a) added' outcome) :
    Does (x >>= f) (added ++ added') outcome := by
  intro effects
  rw [bind_ok (hx effects), hf]
  cases outcome <;> simp

theorem Does.bind_error {x : Session α} {f : α → Session β} {added : List Effect} {e : Error}
    (hx : Does x added (.error e)) : Does (x >>= f) added (.error e) :=
  fun effects => WordC.bind_error (hx effects)

/-- The failure in an outcome. -/
def failure? : Except Error Unit → Option Error
  | .ok _ => none
  | .error e => some e

theorem effects_eq {content : Except FileCause (List UInt8)} {added : List Effect}
    {outcome : Except Error Unit} (h : Does (run o content) added outcome) :
    effects o content = (added, failure? outcome) := by
  unfold effects
  rw [h]
  cases outcome <;> simp [failure?]

/-- The step adds effects, and writes to none but the given paths. -/
def WritesTo (paths : List String) (x : Session α) : Prop :=
  ∃ added outcome, Does x added outcome ∧ ∀ path content, .write path content ∈ added → path ∈ paths

theorem WritesTo.bind {paths : List String} {x : Session α} {f : α → Session β}
    (hx : WritesTo paths x) (hf : ∀ a, WritesTo paths (f a)) : WritesTo paths (x >>= f) := by
  obtain ⟨added, outcome, hx, hadded⟩ := hx
  cases outcome with
  | error e => exact ⟨added, .error e, hx.bind_error, hadded⟩
  | ok a =>
    obtain ⟨added', outcome, hf, hadded'⟩ := hf a
    refine ⟨added ++ added', outcome, hx.bind hf, fun path content hmem => ?_⟩
    exact (List.mem_append.1 hmem).elim (hadded path content) (hadded' path content)

theorem writesTo_effect {paths : List String} {e : Effect}
    (h : ∀ path content, e = .write path content → path ∈ paths) : WritesTo paths (effect e) :=
  ⟨[e], .ok (), does_effect e, fun path content hmem =>
    h path content (List.mem_singleton.1 hmem).symm⟩

theorem writesTo_stage (paths : List String) (x : Compile α) : WritesTo paths (stage x) := by
  obtain ⟨notes, h⟩ := does_stage x
  exact ⟨_, _, h, by simp⟩

end Session

/-- The files for the results of a session. -/
def Options.results (o : Options) : List String :=
  o.high.toList ++ o.output.toList

namespace Session

variable {α β : Type} {o o' : Options} {p : Program}

theorem writesTo_writeOutput (o : Options) (text : String) :
    WritesTo o.results (writeOutput o text) := by
  unfold writeOutput
  split
  · next path hpath =>
    refine (writesTo_effect ?_).bind fun _ => writesTo_effect nofun
    rintro _ _ ⟨⟩
    simp [Options.results, hpath]
  · exact writesTo_effect nofun

/-- What is done with a program writes to the files for results. -/
theorem writesTo_emit (o : Options) (p : Program) : WritesTo o.results (emit o p) := by
  unfold emit
  split
  · exact writesTo_effect nofun
  · exact writesTo_effect nofun
  · exact (writesTo_stage _ _).bind fun text => writesTo_writeOutput o text
  · refine (writesTo_stage _ _).bind fun texts => ?_
    split
    · next path hpath =>
      refine (writesTo_effect ?_).bind fun _ => writesTo_writeOutput o _
      rintro _ _ ⟨⟩
      simp [Options.results, hpath]
    · exact writesTo_writeOutput o _

/-- **What is done with a program** depends on the stage, the pool and the files for
results. -/
theorem emit_congr (hemit : o'.emit = o.emit) (hregisters : o'.registers = o.registers)
    (hhigh : o'.high = o.high) (houtput : o'.output = o.output) (p : Program) :
    emit o' p = emit o p := by
  have hpool : (settings o').registers = (settings o).registers := by
    simp only [settings, Settings.withRegisters, hregisters]
  have hassembly : registerAssembly (settings o') p = registerAssembly (settings o) p := by
    unfold registerAssembly
    rw [hpool]
  have hback : backEnd (settings o') p = backEnd (settings o) p := by
    unfold backEnd
    rw [hassembly]
  unfold emit writeOutput
  rw [hemit, hhigh, houtput, hassembly, hback]

end Session

/-! ## Carrying out effects -/

namespace Effect

/-- What is printed. -/
def printed : List Effect → String
  | [] => ""
  | .print text :: rest => text ++ printed rest
  | _ :: rest => printed rest

/-- What is written to a path last. -/
def written (path : String) : List Effect → Option (List UInt8)
  | [] => none
  | .write other content :: rest =>
    written path rest <|> if path = other then some content else none
  | _ :: rest => written path rest

theorem printed_append (xs ys : List Effect) : printed (xs ++ ys) = printed xs ++ printed ys := by
  induction xs with
  | nil => simp [printed]
  | cons e xs ih => cases e <;> simp [printed, ih, String.append_assoc]

theorem written_append (path : String) (xs ys : List Effect) :
    written path (xs ++ ys) = (written path ys <|> written path xs) := by
  induction xs with
  | nil => simp [written]
  | cons e xs ih => cases e <;> simp [written, ih, Option.or_assoc]

/-- Nothing is written to a path that no effect writes to. -/
theorem written_eq_none {path : String} {effects : List Effect}
    (h : ∀ content, .write path content ∉ effects) : written path effects = none := by
  induction effects with
  | nil => rfl
  | cons e rest ih =>
    have hrest := ih fun content hmem => h content (List.mem_cons_of_mem _ hmem)
    cases e with
    | write other content =>
      have hne : path ≠ other := by
        rintro rfl
        exact h content List.mem_cons_self
      simp [written, hrest, hne]
    | _ => exact hrest

end Effect

namespace World

variable {w : World} {limit : LogLevel} {paths : List String} {effects : List Effect}

/-- **What effects do to a world** in which they are carried out, and in which the given
paths have places of their own. -/
structure Performed (w : World) (paths : List String) (effects : List Effect) (w' : World) :
    Prop where
  separates : w'.disk.Separates paths
  printed : w'.printed = w.printed ++ Effect.printed effects
  files : ∀ path ∈ paths,
    w'.disk.read path = (Effect.written path effects).elim (w.disk.read path) .ok

/-- One effect is carried out. -/
theorem perform_ok (hw : w.disk.Separates paths) {e : Effect}
    (he : ∀ path content, e = .write path content → path ∈ paths) :
    ∃ w', w.perform limit e = .ok w' ∧ w.Performed paths [e] w' := by
  cases e with
  | note n =>
    refine ⟨_, rfl, ?_⟩
    split <;> exact ⟨hw, by simp [Effect.printed], fun _ _ => rfl⟩
  | print text => exact ⟨_, rfl, hw, by simp [Effect.printed], fun _ _ => rfl⟩
  | write path content =>
    obtain ⟨disk, hwrite, hseparates, hread⟩ := hw.write (he path content rfl) content
    refine ⟨{ w with disk }, by rw [perform, hwrite], hseparates, by simp [Effect.printed], ?_⟩
    intro other hother
    rw [hread other hother]
    by_cases heq : other = path <;> simp [Effect.written, heq]

/-- **Effects are carried out to the end** if what they write to has places of its own. -/
theorem performAll_ok (hw : w.disk.Separates paths)
    (heffects : ∀ path content, .write path content ∈ effects → path ∈ paths) :
    ∃ w', w.performAll limit effects = (w', none) ∧ w.Performed paths effects w' := by
  induction effects generalizing w with
  | nil => exact ⟨w, rfl, hw, by simp [Effect.printed], fun _ _ => rfl⟩
  | cons e rest ih =>
    obtain ⟨w₁, hfirst, h₁⟩ : ∃ w', w.perform limit e = .ok w' ∧ w.Performed paths [e] w' :=
      perform_ok hw fun path content he => heffects path content (he ▸ List.mem_cons_self)
    obtain ⟨w₂, hrest, h₂⟩ := ih h₁.separates fun path content hmem =>
      heffects path content (List.mem_cons_of_mem _ hmem)
    refine ⟨w₂, by rw [performAll, hfirst]; exact hrest, h₂.separates, ?_, fun path hpath => ?_⟩
    · rw [h₂.printed, h₁.printed, String.append_assoc, ← Effect.printed_append]
      rfl
    · have hwritten := Effect.written_append path [e] rest
      rw [List.singleton_append] at hwritten
      rw [h₂.files path hpath, h₁.files path hpath, hwritten]
      cases Effect.written path rest <;> rfl

/-- **A session on a disk** on which what it writes to has places of its own. -/
theorem session_ok {o : Options} {disk : Disk} {content : Except FileCause (List UInt8)}
    {outcome : Except Error Unit} (hcontent : disk.read o.input = content)
    (hrun : Session.Does (Session.run o content) effects outcome) (hdisk : disk.Separates paths)
    (heffects : ∀ path content, .write path content ∈ effects → path ∈ paths) :
    (session o disk).2 = Session.failure? outcome ∧
      Performed { disk } paths effects (session o disk).1 := by
  obtain ⟨w', hperform, h⟩ : ∃ w', performAll o.logLevel { disk } effects = (w', none) ∧
      Performed { disk } paths effects w' :=
    performAll_ok hdisk heffects
  unfold session
  rw [hcontent, Session.effects_eq hrun]
  simp only [hperform]
  cases outcome with
  | ok _ => exact ⟨rfl, h⟩
  | error e => exact ⟨rfl, h.separates, h.printed, h.files⟩

end World

/-! ## Going on from a saved program -/

/-- **`o'` goes on from the program that `o` saves.** Both ask for the same stage, the
same pool and the same files for results. -/
structure Options.ResumedBy (o o' : Options) (path : String) : Prop where
  source : o.fromSaved = false
  save : o.saveTo = some path
  saved : o'.fromSaved = true
  keep : o'.saveTo = none
  emit : o'.emit = o.emit
  registers : o'.registers = o.registers
  high : o'.high = o.high
  output : o'.output = o.output

namespace Session

variable {α β : Type} {o o' : Options} {p : Program} {path : String} {bytes : List UInt8}
  {source : String} {added : List Effect} {outcome : Except Error Unit}

/-- The step succeeds and adds nothing but notes. -/
def Remarks (x : Session α) (a : α) : Prop :=
  ∃ notes : List Note, Does x (notes.map .note) (.ok a)

theorem remarks_pure (a : α) : Remarks (pure a) a :=
  ⟨[], does_pure a⟩

theorem remarks_note (level : LogLevel) (text : String) : Remarks (note level text) () :=
  ⟨[⟨level, text⟩], does_effect _⟩

theorem remarks_stage {x : Compile α} {a : α} (h : x.value = .ok a) : Remarks (stage x) a := by
  obtain ⟨notes, hdoes⟩ := does_stage x
  rw [h] at hdoes
  exact ⟨notes, hdoes⟩

theorem Remarks.bind {x : Session α} {f : α → Session β} {a : α} {b : β} (hx : Remarks x a)
    (hf : Remarks (f a) b) : Remarks (x >>= f) b := by
  obtain ⟨notes, hx⟩ := hx
  obtain ⟨notes', hf⟩ := hf
  refine ⟨notes ++ notes', ?_⟩
  rw [List.map_append]
  exact hx.bind hf

theorem remarks_sourceText (o : Options)
    (htext : String.fromUTF8? ⟨bytes.toArray⟩ = some source) :
    Remarks (sourceText o (.ok bytes)) source := by
  unfold sourceText
  split
  · refine (remarks_note _ _).bind ((remarks_pure bytes).bind ?_)
    simp only [htext]
    exact (remarks_note _ _).bind (remarks_pure source)
  · refine (remarks_pure bytes).bind ?_
    simp only [htext]
    exact (remarks_note _ _).bind (remarks_pure source)

theorem remarks_savedProgram (hemit : o.emit ≠ .tokens) (hsaved : Program.ofBytes bytes = .ok p) :
    Remarks (savedProgram o (.ok bytes)) p := by
  unfold savedProgram
  rw [if_neg hemit]
  refine (remarks_pure bytes).bind ?_
  simp only [hsaved]
  exact (remarks_note _ _).bind (remarks_pure p)

/-- A session on a source text saves its program and goes on with it. -/
theorem does_run_source (h : o.ResumedBy o' path) (hemit : o.emit ≠ .tokens)
    (htext : String.fromUTF8? ⟨bytes.toArray⟩ = some source)
    (hfront : (frontEnd (settings o) source).value = .ok p)
    (hdoes : Does (emit o p) added outcome) :
    ∃ notes notes' : List Note, Does (run o (.ok bytes))
      (notes.map .note ++ (.write path p.write :: (notes'.map .note ++ added))) outcome := by
  obtain ⟨notes, hsource⟩ := remarks_sourceText o htext
  obtain ⟨notes', hstage⟩ := remarks_stage hfront
  obtain ⟨notes'', hnote⟩ : Remarks
      (note .info s!"wrote {p.write.length} byte IR artifact to {path}") () := remarks_note _ _
  -- saving is the only effect besides notes
  have hsave : Does (save o p) (.write path p.write :: notes''.map .note) (.ok ()) := by
    unfold save
    simp only [h.save]
    exact (does_effect _).bind hnote
  unfold run
  rw [h.source, if_neg nofun]
  refine ⟨notes ++ notes', notes'', ?_⟩
  rw [List.map_append, List.append_assoc]
  refine hsource.bind ?_
  rw [if_neg hemit]
  exact hstage.bind (hsave.bind hdoes)

/-- A session on a saved program goes on with it. -/
theorem does_run_saved (h : o.ResumedBy o' path) (hemit : o.emit ≠ .tokens)
    (hsaved : Program.ofBytes bytes = .ok p) (hdoes : Does (emit o p) added outcome) :
    ∃ notes : List Note, Does (run o' (.ok bytes)) (notes.map .note ++ added) outcome := by
  obtain ⟨notes, hprogram⟩ := remarks_savedProgram (o := o') (by rwa [h.emit]) hsaved
  rw [← emit_congr h.emit h.registers h.high h.output] at hdoes
  unfold run
  rw [if_pos h.saved]
  refine ⟨notes, hprogram.bind ?_⟩
  unfold save
  simp only [h.keep]
  exact (does_pure _).bind hdoes

end Session

namespace Effect

/-- Notes print nothing. -/
@[simp] theorem printed_notes (notes : List Note) : printed (notes.map .note) = "" := by
  induction notes with
  | nil => rfl
  | cons n notes ih => exact ih

/-- Notes write nothing. -/
@[simp] theorem written_notes (path : String) (notes : List Note) :
    written path (notes.map .note) = none :=
  written_eq_none (by simp)

end Effect

/-- A program is loaded as it was saved. -/
theorem Program.ofBytes_of_write (p : Program) (h : p.SizesFit) : ofBytes p.write = .ok p := by
  have hwhole := (Program.delimits h).whole []
  rw [List.append_nil] at hwhole
  rw [ofBytes, hwhole]
  rfl

namespace World

open Session

variable {o o' : Options} {path source : String} {disk disk' : Disk} {bytes : List UInt8}
  {p : Program} {added : List Effect} {outcome : Except Error Unit}

/-- **A session that saves a program.** The program is at its path, and beside it there
is what has been done with the program. -/
theorem session_source (h : o.ResumedBy o' path) (hemit : o.emit ≠ .tokens)
    (hinput : disk.read o.input = .ok bytes)
    (htext : String.fromUTF8? ⟨bytes.toArray⟩ = some source)
    (hfront : (frontEnd (settings o) source).value = .ok p)
    (hdisk : disk.Separates (path :: o.results)) (hdoes : Does (emit o p) added outcome)
    (hadded : ∀ file content, .write file content ∈ added → file ∈ o.results) :
    (session o disk).2 = failure? outcome ∧ (session o disk).1.printed = Effect.printed added ∧
      (session o disk).1.disk.Separates (path :: o.results) ∧
      (session o disk).1.disk.read path = .ok p.write ∧
      ∀ result ∈ o.results, (session o disk).1.disk.read result =
        (Effect.written result added).elim (disk.read result) .ok := by
  obtain ⟨notes, notes', hrun⟩ := does_run_source h hemit htext hfront hdoes
  obtain ⟨hfailure, hperformed⟩ := session_ok hinput hrun hdisk (by
    intro file content hmem
    simp only [List.mem_append, List.mem_map, List.mem_cons, reduceCtorEq, and_false, exists_false,
      false_or, Effect.write.injEq] at hmem
    rcases hmem with ⟨rfl, -⟩ | hmem
    · exact List.mem_cons_self
    · exact List.mem_cons_of_mem _ (hadded file content hmem))
  -- the program is not overwritten: results have places of their own
  have hnew : path ∉ o.results := fun hmem =>
    (List.nodup_cons.1 hdisk.distinct).1 (List.mem_map_of_mem hmem)
  refine ⟨hfailure, ?_, hperformed.separates, ?_, fun result hresult => ?_⟩
  · rw [hperformed.printed]
    simp [Effect.printed_append, Effect.printed]
  · rw [hperformed.files path List.mem_cons_self]
    have hnone : Effect.written path added = none :=
      Effect.written_eq_none fun content hmem => hnew (hadded path content hmem)
    simp [Effect.written_append, Effect.written, hnone]
  · rw [hperformed.files result (List.mem_cons_of_mem _ hresult)]
    have hne : result ≠ path := fun heq => hnew (heq ▸ hresult)
    simp [Effect.written_append, Effect.written, hne]

/-- **A session that goes on from a saved program** does with it what is done with it. -/
theorem session_saved (h : o.ResumedBy o' path) (hemit : o.emit ≠ .tokens)
    (hinput : disk.read o'.input = .ok bytes) (hsaved : Program.ofBytes bytes = .ok p)
    (hdisk : disk.Separates o.results) (hdoes : Does (emit o p) added outcome)
    (hadded : ∀ file content, .write file content ∈ added → file ∈ o.results) :
    (session o' disk).2 = failure? outcome ∧ (session o' disk).1.printed = Effect.printed added ∧
      ∀ result ∈ o.results, (session o' disk).1.disk.read result =
        (Effect.written result added).elim (disk.read result) .ok := by
  obtain ⟨notes, hrun⟩ := does_run_saved h hemit hsaved hdoes
  obtain ⟨hfailure, hperformed⟩ := session_ok hinput hrun hdisk (by
    intro file content hmem
    simp only [List.mem_append, List.mem_map, reduceCtorEq, and_false, exists_false,
      false_or] at hmem
    exact hadded file content hmem)
  refine ⟨hfailure, ?_, fun result hresult => ?_⟩
  · rw [hperformed.printed]
    simp [Effect.printed_append]
  · rw [hperformed.files result hresult]
    simp [Effect.written_append]

/-- **A saved program stands for its source text.** If a session saves the program of a
source text that the front end accepts, a second session that begins with the saved
program fails as the first one failed, prints what it printed, and leaves in the files
for results what it left there. Each file has a place of its own, and the sizes of texts
and lists in the program are words of the machine that runs the compiler. -/
theorem session_resumed (h : o.ResumedBy o' path) (hemit : o.emit ≠ .tokens)
    (hinput : disk.read o.input = .ok bytes)
    (htext : String.fromUTF8? ⟨bytes.toArray⟩ = some source)
    (hfront : (frontEnd (settings o) source).value = .ok p) (hsizes : p.SizesFit)
    (hdisk : disk.Separates (path :: o.results)) (hdisk' : disk'.Separates o.results)
    (hsaved : disk'.read o'.input = (session o disk).1.disk.read path) :
    (session o' disk').2 = (session o disk).2 ∧
      (session o' disk').1.printed = (session o disk).1.printed ∧
      ∃ written : String → Option (List UInt8), ∀ result ∈ o.results,
        (session o disk).1.disk.read result = (written result).elim (disk.read result) .ok ∧
        (session o' disk').1.disk.read result =
          (written result).elim (disk'.read result) .ok := by
  obtain ⟨added, outcome, hdoes, hadded⟩ := writesTo_emit o p
  obtain ⟨hfailure, hprinted, -, hread, hfiles⟩ :=
    session_source h hemit hinput htext hfront hdisk hdoes hadded
  obtain ⟨hfailure', hprinted', hfiles'⟩ :=
    session_saved h hemit (hsaved.trans hread) (p.ofBytes_of_write hsizes) hdisk' hdoes hadded
  refine ⟨hfailure'.trans hfailure.symm, hprinted'.trans hprinted.symm, fun result =>
    Effect.written result added, fun result hresult => ?_⟩
  exact ⟨hfiles result hresult, hfiles' result hresult⟩

/-- A text with a word at file scope, in which the result of a function is stored. -/
def storingText : String :=
  "int g = 2; int f(int a) { return a * g; } int main() { g = f(3); return g; }"

/-- A disk with a source file in the working directory. -/
def sourceDisk : Disk where
  files := [⟨["work", "a.c"], storingText.toUTF8.toList⟩]
  here := ["work"]

/-- A session that saves the program besides compiling it, with register assembly. -/
def savingOptions : Options :=
  { input := "a.c", saveTo := some "/work/a.ir", high := some "a.high", output := some "../out" }

/-- A session that compiles the saved program. -/
def resumingOptions : Options :=
  { input := "/work/a.ir", fromSaved := true, high := some "a.high", output := some "../out" }

theorem session_resumed_storingText :
    savingOptions.ResumedBy resumingOptions "/work/a.ir" ∧
      (session resumingOptions (session savingOptions sourceDisk).1.disk).2 =
        (session savingOptions sourceDisk).2 ∧
      (session resumingOptions (session savingOptions sourceDisk).1.disk).1.printed =
        (session savingOptions sourceDisk).1.printed ∧
      ∃ written : String → Option (List UInt8), ∀ result ∈ ["a.high", "../out"],
        (session savingOptions sourceDisk).1.disk.read result =
          (written result).elim (sourceDisk.read result) .ok ∧
        (session resumingOptions (session savingOptions sourceDisk).1.disk).1.disk.read result =
          (written result).elim ((session savingOptions sourceDisk).1.disk.read result) .ok := by
  have hresumed : savingOptions.ResumedBy resumingOptions "/work/a.ir" :=
    ⟨rfl, rfl, rfl, rfl, rfl, rfl, rfl, rfl⟩
  have hemit : savingOptions.emit ≠ .tokens := by decide
  have hinput : sourceDisk.read "a.c" = .ok storingText.toUTF8.toList := by decide +kernel
  have htext : String.fromUTF8? ⟨storingText.toUTF8.toList.toArray⟩ = some storingText := by
    decide +kernel
  have hdisk : sourceDisk.Separates ["/work/a.ir", "a.high", "../out"] := by
    refine ⟨?_, by decide +kernel⟩
    simp only [List.forall_mem_cons, List.not_mem_nil, false_imp_iff, implies_true, and_true]
    exact ⟨⟨["work", "a.ir"], by decide +kernel⟩, ⟨["work", "a.high"], by decide +kernel⟩,
      ⟨["out"], by decide +kernel⟩⟩
  -- evaluated is only that a program comes out whose sizes fit; the program itself stays abstract
  have hrun : (frontEnd (settings savingOptions) storingText).value.toOption.any
      (fun p => p.SizesFit) = true := by decide +kernel
  cases hfront : (frontEnd (settings savingOptions) storingText).value with
  | error e =>
    rw [hfront] at hrun
    cases hrun
  | ok p =>
    rw [hfront] at hrun
    obtain ⟨added, outcome, hdoes, hadded⟩ := writesTo_emit savingOptions p
    obtain ⟨-, -, hdisk', -⟩ :=
      session_source hresumed hemit hinput htext hfront hdisk hdoes hadded
    exact ⟨hresumed, session_resumed hresumed hemit hinput htext hfront (of_decide_eq_true hrun)
      hdisk (hdisk'.of_sublist (List.sublist_cons_self _ _)) rfl⟩

end World

end WordC
