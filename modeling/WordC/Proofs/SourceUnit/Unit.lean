import Mathlib
import WordC.Token.Scan
import WordC.Proofs.Declarations
import WordC.Proofs.SourceUnit.Items
import WordC.Proofs.SourceUnit.Locality
/-!
# What reading a source unit yields

Each function that is defined has sound statements over the variables it can
name: those at file scope, its parameters and its locals (`Function.ReadAs`).
Names are declared once at file scope, functions as well as variables, and each
of them is an identifier of the text (`Program.ReadFrom`).
-/

namespace WordC

/-- The name is an identifier among the tokens. -/
def HasIdent (tokens : List PlacedToken) (name : String) : Prop :=
  ∃ t ∈ tokens, t.token = .ident name

theorem hasIdent_iff {tokens : List PlacedToken} {name : String} :
    HasIdent tokens name ↔ .ident name ∈ tokens.map PlacedToken.token :=
  List.mem_map.symm

/-- A file-scope variable as functions see it. -/
def Global.variable (g : Global) : Variable :=
  ⟨g.name, g.type, .global g.name, none⟩

/-- The parameters of the function are placed above its frame, the last one lowest. -/
def Function.Placed (f : Function) : Prop :=
  ∃ list, f.parameters = Read.parameterVariables list.length list

/-- **A function as reading yields it.** `file` are the variables at file scope,
`stmts` its statements and `locals` what is declared in them. -/
structure Function.ReadAs (nodes : Nat) (file : List Variable) (f : Function) (stmts : List Stmt)
    (locals : List Variable) : Prop where
  body : f.body = some (bodyLinear stmts)
  sound : blockSound
    (Code.IsExpression (fun v => v ∈ file ∨ v ∈ f.parameters ∨ v ∈ locals) nodes) false stmts
  allocated : Allocated 0 f.frameSize.toNat locals

namespace Function.ReadAs

variable {nodes : Nat} {file locals : List Variable} {f : Function} {stmts : List Stmt}

/-- The expressions of the function are those of its statements. -/
theorem expressions (h : f.ReadAs nodes file stmts locals) :
    f.expressions = blockExpressions stmts := by
  rw [Function.expressions, h.body, Option.getD_some]
  exact runs_bodyLinear (h.sound.mono fun _ hcode => hcode.plain)

theorem isExpression (h : f.ReadAs nodes file stmts locals) {c : Code} (hc : c ∈ f.expressions) :
    c.IsExpression (fun v => v ∈ file ∨ v ∈ f.parameters ∨ v ∈ locals) nodes := by
  rw [h.expressions] at hc
  exact h.sound.forall_expressions c hc

/-- How large a tree can be, the expressions themselves tell. -/
theorem bounded (h : f.ReadAs nodes file stmts locals) {limit : Nat}
    (hshort : ∀ c ∈ f.expressions, c.nodes ≤ limit) : f.ReadAs limit file stmts locals where
  body := h.body
  sound := h.sound.of_expressions fun c hc => by
    rw [← h.expressions] at hc
    have hexpression := h.isExpression hc
    exact (hexpression.restrict fun v => hexpression.known_of_mem).mono (fun _ => id) (hshort c hc)
  allocated := h.allocated

end Function.ReadAs

/-- The variable is a parameter of the function, or stands in its body. -/
def Function.Mentions (f : Function) (v : Variable) : Prop :=
  v ∈ f.parameters ∨ .operand (.var v) ∈ f.body.getD []

/-- The variables of the function and what it calls have names with a property. -/
structure Function.NamedBy (named : String → Prop) (f : Function) : Prop where
  mentions : ∀ v, f.Mentions v → named v.name
  calls : ∀ c, .operand (.result c) ∈ f.body.getD [] → named c.name

/-- What a body mentions has a name with the property if all that is known has. -/
theorem Function.namedBy_of_reading {named : String → Prop} {known : Known} {nodes : Nat}
    {f : Function} {stmts : List Stmt} (hbody : f.body = some (bodyLinear stmts))
    (hsound : blockSound (Code.IsReading known nodes) false stmts)
    (hparameters : ∀ v ∈ f.parameters, named v.name) (hvar : ∀ v, known.var v → named v.name)
    (hname : ∀ name, known.name name → named name) : f.NamedBy named := by
  have hplain : blockSound Code.Plain false stmts :=
    hsound.mono fun _ hcode => hcode.isExpression.plain
  constructor
  · rintro v (hv | hv)
    · exact hparameters v hv
    · rw [hbody] at hv
      obtain ⟨code, hcode, hmem⟩ := (mem_bodyLinear hplain rfl).1 hv
      exact hvar v ((hsound.forall_expressions code hcode).isExpression.known_of_mem hmem)
  · intro c hc
    rw [hbody] at hc
    obtain ⟨code, hcode, hmem⟩ := (mem_bodyLinear hplain rfl).1 hc
    exact hname c.name ((hsound.forall_expressions code hcode).calls c hmem)

/-- **A program as reading yields it** from tokens. -/
structure Program.ReadFrom (tokens : List PlacedToken) (p : Program) : Prop where
  functions : ∀ f ∈ p.functions, ∀ linear, f.body = some linear →
    ∃ stmts locals, f.ReadAs (tokens.length + 1) (p.globals.map Global.variable) stmts locals
  placed : ∀ f ∈ p.functions, f.Placed
  globalNames : (p.globals.map Global.name).Nodup
  functionNames : (p.functions.map Function.name).Nodup
  named : ∀ f ∈ p.functions, HasIdent tokens f.name
  globalsNamed : ∀ g ∈ p.globals, HasIdent tokens g.name
  namedBy : ∀ f ∈ p.functions, f.NamedBy (HasIdent tokens)

/-- A function with an expression was read with a body. -/
theorem Program.ReadFrom.exists_readAs {tokens : List PlacedToken} {p : Program}
    (h : p.ReadFrom tokens) {f : Function} (hf : f ∈ p.functions) {c : Code}
    (hc : c ∈ f.expressions) : ∃ stmts locals,
      f.ReadAs (tokens.length + 1) (p.globals.map Global.variable) stmts locals := by
  cases hbody : f.body with
  | none =>
    rw [Function.expressions, hbody] at hc
    cases hc
  | some linear => exact h.functions f hf linear hbody

/-- No expression has more nodes than the text has tokens, but for its end. -/
theorem Program.ReadFrom.nodes_le {tokens : List PlacedToken} {p : Program} (h : p.ReadFrom tokens)
    {f : Function} (hf : f ∈ p.functions) {c : Code} (hc : c ∈ f.expressions) :
    c.nodes ≤ tokens.length + 1 := by
  obtain ⟨stmts, locals, hread⟩ := h.exists_readAs hf hc
  exact (hread.isExpression hc).nodes_le

namespace Written

/-! ## Names -/

theorem ident_mem_namedTokens (base : BaseType) (stars : Nat) (name : String) :
    .ident name ∈ namedTokens base stars name := by
  simp [namedTokens]

theorem Parameters.named (ps : Parameters) : ∀ p ∈ ps.read, .ident p.name ∈ ps.tokens := by
  induction ps with
  | none => nofun
  | last p => exact List.forall_mem_singleton.2 (ident_mem_namedTokens _ _ _)
  | more p rest ih =>
    refine List.forall_mem_cons.2 ⟨?_, fun q hq => ?_⟩
    · exact List.mem_append_left _ (ident_mem_namedTokens _ _ _)
    · exact List.mem_append_right _ (List.mem_cons_of_mem _ (ih q hq))

theorem map_name_parameterVariables (count : Nat) (list : List Read.Parameter) :
    (Read.parameterVariables count list).map Variable.name = list.map Read.Parameter.name := by
  induction list generalizing count with
  | nil => rfl
  | cons p list ih => rw [Read.parameterVariables, List.map_cons, ih, List.map_cons]

theorem ParameterList.named (ps : ParameterList) : ∀ v ∈ ps.placed, .ident v.name ∈ ps.tokens := by
  intro v hv
  have hname : v.name ∈ ps.read.map Read.Parameter.name := by
    rw [← map_name_parameterVariables]
    exact List.mem_map_of_mem hv
  obtain ⟨p, hp, heq⟩ := List.mem_map.1 hname
  rw [← heq]
  cases ps with
  | void => cases hp
  | list ps => exact List.mem_cons_of_mem _ (List.mem_append_left _ (ps.named p hp))

/-- What is named before the body of a function. -/
theorem Item.head_of_function {i : Item} {f : Function} (h : i.read.function? = some f) :
    .ident f.name ∈ i.headTokens ∧ f.Placed ∧ ∀ v ∈ f.parameters, .ident v.name ∈ i.headTokens := by
  cases i with
  | global => cases h
  | prototype base stars name ps | definition base stars name ps body frameSize =>
    cases h
    refine ⟨List.mem_append_left _ (List.mem_append_left _ ?_), ⟨ps.read, rfl⟩, fun v hv => ?_⟩
    · exact ident_mem_namedTokens _ _ _
    · exact List.mem_append_left _ (List.mem_append_right _ (ps.named v hv))

/-! ## Places of items -/

section Places

variable {Γ : Scopes} {items : List Item} {place : Scopes × Item}

@[simp] theorem Item.declares_inside (Γ : Scopes) (i : Item) : (i.inside Γ).declares = [] := by
  cases i <;> rfl

/-- What is declared at file scope are the variables of the items. -/
theorem declares_unitTrace (Γ : Scopes) (items : List Item) :
    (unitTrace Γ items).declares = (items.filterMap (·.read.global?)).map Global.variable := by
  induction items generalizing Γ with
  | nil => rfl
  | cons i rest ih =>
    simp only [unitTrace, Item.trace, Trace.declares_append, Item.declares_inside, ih]
    cases i <;> rfl

theorem exists_place {i : Item} (h : i ∈ items) (Γ : Scopes) :
    ∃ Δ, (Δ, i) ∈ unitPlaces Γ items := by
  induction items generalizing Γ with
  | nil => cases h
  | cons j rest ih =>
    rcases List.mem_cons.1 h with rfl | h
    · exact ⟨Γ, List.mem_cons_self⟩
    · obtain ⟨Δ, hΔ⟩ := ih h (Γ.extend j.declares)
      exact ⟨Δ, List.mem_cons_of_mem _ hΔ⟩

theorem mem_of_place (h : place ∈ unitPlaces Γ items) : place.2 ∈ items := by
  induction items generalizing Γ with
  | nil => cases h
  | cons i rest ih =>
    rcases List.mem_cons.1 h with rfl | h
    · exact List.mem_cons_self
    · exact List.mem_cons_of_mem _ (ih h)

/-- The sites of a unit are those of its items. -/
theorem mem_sites_unitTrace {site : Site} :
    site ∈ (unitTrace Γ items).sites ↔
      ∃ place ∈ unitPlaces Γ items, site ∈ (place.2.inside place.1).sites := by
  induction items generalizing Γ with
  | nil => simp [unitTrace, unitPlaces]
  | cons i rest ih => simp [unitTrace, unitPlaces, Item.trace, ih]

/-- An item stands among the tokens of the unit. -/
theorem tokens_sublist_of_place (h : place ∈ unitPlaces Γ items) :
    (place.2.inside place.1).tokens.Sublist (unitTrace Γ items).tokens := by
  induction items generalizing Γ with
  | nil => cases h
  | cons i rest ih =>
    have htokens : (unitTrace Γ (i :: rest)).tokens =
        (i.inside Γ).tokens ++ (unitTrace (Γ.extend i.declares) rest).tokens := by
      simp [unitTrace, Item.trace]
    rw [htokens]
    rcases List.mem_cons.1 h with rfl | h
    · exact List.sublist_append_left _ _
    · exact (ih h).trans (List.sublist_append_right _ _)

/-- Between items only the file scope is open, with what the items before declare. -/
theorem scopes_of_place (h : place ∈ unitPlaces Γ items) (hΓ : Γ.inner = []) :
    place.1.inner = [] ∧ place.1.file ⊆ Γ.file ++ (unitTrace Γ items).declares := by
  induction items generalizing Γ with
  | nil => cases h
  | cons i rest ih =>
    have hextend : Γ.extend i.declares = { Γ with file := Γ.file ++ i.declares } := by
      rw [Scopes.extend, hΓ]
    rcases List.mem_cons.1 h with rfl | h
    · exact ⟨hΓ, List.subset_append_left _ _⟩
    · obtain ⟨hinner, hfile⟩ := ih h (by rw [hextend]; exact hΓ)
      refine ⟨hinner, ?_⟩
      rw [hextend] at hfile
      simpa [unitTrace, Item.trace, hextend] using hfile

end Places

end Written

namespace SourceUnit.WrittenAs

open Written

variable {tokens : List PlacedToken} {u : SourceUnit} {items : List Written.Item}

/-- **The functions of a program** are declared by its items, once for each name, and all
definitions are among them. -/
theorem declared (h : WrittenAs tokens u items) :
    (u.program.functions.map Function.name).Nodup ∧
      (∀ f ∈ u.program.functions, ∃ i ∈ items, i.read.function? = some f) ∧
      ∀ i ∈ items, ∀ f, i.read.function? = some f → f.isDefined = true →
        f ∈ u.program.functions := by
  obtain ⟨d, hrun, hfunctions⟩ := h.functions
  obtain ⟨hinStep, hmem, hdefined⟩ := Declarations.InStep.empty.forM_declare_ok hrun
  rw [hfunctions]
  refine ⟨hinStep.distinct, fun f hf => ?_, fun i hi f hread => hdefined f (.inr ?_)⟩
  · exact List.mem_filterMap.1 ((hmem f hf).resolve_left nofun)
  · exact List.mem_filterMap.2 ⟨i, hi, hread⟩

/-- The functions of a program are declared by its items. -/
theorem exists_item (h : WrittenAs tokens u items) {f : Function} (hf : f ∈ u.program.functions) :
    ∃ i ∈ items, i.read.function? = some f :=
  h.declared.2.1 f hf

/-- What a program defines has a place in the text. -/
theorem exists_definition (h : WrittenAs tokens u items) {f : Function} {linear : List Element}
    (hf : f ∈ u.program.functions) (hbody : f.body = some linear) :
    ∃ Γ base stars name ps body frameSize,
      (Γ, .definition base stars name ps body frameSize) ∈ unitPlaces {} items ∧
      (Written.Item.definition base stars name ps body frameSize).read = .definition f := by
  obtain ⟨i, hi, hread⟩ := h.exists_item hf
  obtain ⟨Γ, hplace⟩ := exists_place hi {}
  cases i with
  | global => cases hread
  | prototype =>
    cases hread
    cases hbody
  | definition base stars name ps body frameSize =>
    cases hread
    exact ⟨Γ, base, stars, name, ps, body, frameSize, hplace, rfl⟩

/-- What is defined in the text is defined in the program. -/
theorem mem_functions (h : WrittenAs tokens u items) {Γ : Scopes} {i : Written.Item} {f : Function}
    (hplace : (Γ, i) ∈ unitPlaces {} items) (hread : i.read = .definition f) :
    f ∈ u.program.functions := by
  obtain ⟨-, -, hdefined⟩ := h.declared
  cases i with
  | definition base stars name ps body frameSize =>
    cases hread
    exact hdefined _ (mem_of_place hplace) _ rfl rfl
  | _ => cases hread

theorem hasIdent (h : WrittenAs tokens u items) {name : String}
    (hname : .ident name ∈ (unitTrace {} items).tokens) : HasIdent tokens name := by
  obtain ⟨rest, htext, -⟩ := h.text
  rw [hasIdent_iff, htext]
  exact List.mem_append_left _ hname

/-- What is named in an item is named in the text. -/
theorem hasIdent_of_place (h : WrittenAs tokens u items) {place : Scopes × Written.Item}
    (hplace : place ∈ unitPlaces {} items) {name : String}
    (hname : .ident name ∈ (place.2.inside place.1).tokens) : HasIdent tokens name :=
  h.hasIdent ((tokens_sublist_of_place hplace).subset hname)

theorem declares_eq (h : WrittenAs tokens u items) :
    (unitTrace {} items).declares = u.program.globals.map Global.variable := by
  rw [declares_unitTrace, h.globals]

/-- What is declared between items is at file scope. -/
theorem mem_globals_of_place (h : WrittenAs tokens u items) {place : Scopes × Written.Item}
    (hplace : place ∈ unitPlaces {} items) {v : Variable} (hv : place.1.Declares v) :
    v ∈ u.program.globals.map Global.variable := by
  obtain ⟨hinner, hfile⟩ := scopes_of_place hplace rfl
  rw [← h.declares_eq]
  rcases hv with hv | ⟨scope, hscope, -⟩
  · exact hfile hv
  · rw [hinner] at hscope
    cases hscope

/-- **The body of a definition is read** over the variables at file scope, its
parameters and its locals. -/
theorem isReading_body (h : WrittenAs tokens u items) {Γ : Scopes} {base : BaseType} {stars : Nat}
    {name : String} {ps : ParameterList} {body : List Statement} {frameSize : UInt64}
    (hplace : (Γ, .definition base stars name ps body frameSize) ∈ unitPlaces {} items) :
    blockSound (Code.IsReading ⟨fun v => v ∈ u.program.globals.map Global.variable ∨
      v ∈ ps.placed ∨ v ∈ (blockTrace (Γ.enter.extend ps.placed) body).locals, HasIdent tokens⟩
      (tokens.length + 1)) false (blockStmts body) := by
  have hinside := tokens_sublist_of_place hplace
  have htokens : (blockTrace (Γ.enter.extend ps.placed) body).tokens.Sublist
      (tokens.map PlacedToken.token) := by
    obtain ⟨rest, htext, -⟩ := h.text
    rw [htext]
    exact ((List.sublist_append_right _ _).trans hinside).trans (List.sublist_append_left _ _)
  refine isReading_block (h.fits _ hplace).1 (fun site hsite => h.resolved site ?_) (fun v hv => ?_)
    (fun v hv => .inr (.inr hv)) (fun name hname => hasIdent_iff.2 (htokens.subset hname)) ?_
  · exact mem_sites_unitTrace.2 ⟨_, hplace, hsite⟩
  · rw [Scopes.declares_extend, Scopes.declares_enter] at hv
    exact hv.imp (h.mem_globals_of_place hplace) .inl
  · have hlength := htokens.length_le
    rw [List.length_map] at hlength
    exact Nat.lt_succ_of_le hlength

/-- What stands in the body of a definition stands in its expressions. The constant that
a missing condition is does not count. -/
theorem mem_body_iff (h : WrittenAs tokens u items) {Γ : Scopes} {base : BaseType} {stars : Nat}
    {name : String} {ps : ParameterList} {body : List Statement} {frameSize : UInt64}
    (hplace : (Γ, .definition base stars name ps body frameSize) ∈ unitPlaces {} items)
    {x : Element} (hx : x.inExpression = true) (hone : x ∉ Code.one) :
    x ∈ bodyLinear (blockStmts body) ↔
      ∃ site ∈ (blockTrace (Γ.enter.extend ps.placed) body).sites, x ∈ site.code := by
  have hplain : blockSound Code.Plain false (blockStmts body) :=
    (h.isReading_body hplace).mono fun _ hcode => hcode.isExpression.plain
  rw [mem_bodyLinear hplain hx]
  constructor
  · rintro ⟨code, hcode, hmem⟩
    rcases mem_codes_of_mem_blockExpressions (h.fits _ hplace).1 (Γ.enter.extend ps.placed) hcode with
      rfl | hcode
    · exact absurd hmem hone
    · obtain ⟨site, hsite, rfl⟩ := List.mem_map.1 hcode
      exact ⟨site, hsite, hmem⟩
  · rintro ⟨site, hsite, hmem⟩
    exact ⟨site.code, (codes_blockTrace_sublist _ body).subset (List.mem_map_of_mem hsite), hmem⟩

/-- **What stands in the bodies of a program** stands in the expressions of its text. -/
theorem exists_body_iff (h : WrittenAs tokens u items) {x : Element} (hx : x.inExpression = true)
    (hone : x ∉ Code.one) :
    (∃ f ∈ u.program.functions, x ∈ f.body.getD []) ↔
      ∃ site ∈ (unitTrace {} items).sites, x ∈ site.code := by
  constructor
  · rintro ⟨f, hf, hmem⟩
    cases hbody : f.body with
    | none =>
      rw [hbody] at hmem
      cases hmem
    | some linear =>
      obtain ⟨Γ, base, stars, name, ps, body, frameSize, hplace, hread⟩ :=
        h.exists_definition hf hbody
      cases hread
      obtain ⟨site, hsite, hmem⟩ := (h.mem_body_iff hplace hx hone).1 hmem
      exact ⟨site, mem_sites_unitTrace.2 ⟨_, hplace, hsite⟩, hmem⟩
  · rintro ⟨site, hsite, hmem⟩
    obtain ⟨⟨Γ, i⟩, hplace, hsite⟩ := mem_sites_unitTrace.1 hsite
    cases i with
    | definition base stars name ps body frameSize =>
      exact ⟨_, h.mem_functions hplace rfl, (h.mem_body_iff hplace hx hone).2 ⟨site, hsite, hmem⟩⟩
    -- only a definition has sites
    | _ => cases hsite

theorem hasIdent_of_head (h : WrittenAs tokens u items) {i : Written.Item} (hi : i ∈ items)
    {name : String} (hname : .ident name ∈ i.headTokens) : HasIdent tokens name := by
  obtain ⟨Γ, hplace⟩ := exists_place hi {}
  refine h.hasIdent_of_place hplace ?_
  cases i with
  | definition => exact List.mem_append_left _ hname
  | _ => exact hname

theorem globalsNamed (h : WrittenAs tokens u items) {g : Global} (hg : g ∈ u.program.globals) :
    HasIdent tokens g.name := by
  rw [h.globals] at hg
  obtain ⟨i, hi, hread⟩ := List.mem_filterMap.1 hg
  cases i with
  | global base stars name value =>
    cases hread
    refine h.hasIdent_of_head hi (List.mem_append_left _ (List.mem_append_left _ ?_))
    exact ident_mem_namedTokens _ _ _
  | _ => cases hread

theorem namedBy (h : WrittenAs tokens u items) {f : Function} (hf : f ∈ u.program.functions) :
    f.NamedBy (HasIdent tokens) := by
  obtain ⟨i, hi, hread⟩ := h.exists_item hf
  obtain ⟨-, -, hparameters⟩ := Item.head_of_function hread
  have hparameters := fun v hv => h.hasIdent_of_head hi (hparameters v hv)
  cases hbody : f.body with
  | none => exact ⟨fun v hv => hv.elim (hparameters v) (by simp [hbody]), by simp [hbody]⟩
  | some linear =>
    obtain ⟨Γ, base, stars, name, ps, body, frameSize, hplace, hread⟩ :=
      h.exists_definition hf hbody
    cases hread
    refine Function.namedBy_of_reading rfl (h.isReading_body hplace) hparameters ?_ fun _ => id
    rintro v (hv | hv | hv)
    · obtain ⟨g, hg, rfl⟩ := List.mem_map.1 hv
      exact h.globalsNamed hg
    · exact hparameters v hv
    · refine h.hasIdent_of_place hplace (List.mem_append_right _ ?_)
      exact (local_blockTrace _ body).named v hv

/-- **What reading yields**, from how the unit is written. -/
theorem readFrom (h : WrittenAs tokens u items) : u.program.ReadFrom tokens where
  functions f hf linear hlinear := by
    obtain ⟨Γ, base, stars, name, ps, body, frameSize, hplace, hread⟩ :=
      h.exists_definition hf hlinear
    cases hread
    refine ⟨blockStmts body, _, rfl, ?_, (h.fits _ hplace).2⟩
    exact (h.isReading_body hplace).mono fun _ hcode => hcode.isExpression
  placed f hf := by
    obtain ⟨i, -, hread⟩ := h.exists_item hf
    exact (Item.head_of_function hread).2.1
  globalNames := by
    have hnodup := h.file
    rwa [h.declares_eq, List.map_map] at hnodup
  functionNames := h.declared.1
  named f hf := by
    obtain ⟨i, hi, hread⟩ := h.exists_item hf
    exact h.hasIdent_of_head hi (Item.head_of_function hread).1
  globalsNamed _ hg := h.globalsNamed hg
  namedBy _ hf := h.namedBy hf

end SourceUnit.WrittenAs

namespace SourceUnit

/-- **What reading yields.** -/
theorem parse_readFrom {tokens : List PlacedToken} {u : SourceUnit} (h : parse tokens = .ok u) :
    u.program.ReadFrom tokens := by
  obtain ⟨items, hitems⟩ := parse_writtenAs h
  exact hitems.readFrom

/-- A unit with a word at file scope and a function that has a loop with a step,
a branch, a jump out of the loop, and a call of itself. -/
def sampleTokens : List PlacedToken :=
  ([.type .int, .ident "g", .symbol .semicolon,
    .type .int, .ident "f", .symbol .parenOpen, .type .int, .ident "a", .symbol .parenClose,
    .symbol .braceOpen,
    .reserved .forWord, .symbol .parenOpen, .symbol .semicolon, .ident "a", .symbol .semicolon,
    .ident "a", .symbol .assign, .ident "a", .symbol .minus, .integer 1, .symbol .parenClose,
    .reserved .ifWord, .symbol .parenOpen, .ident "g", .symbol .parenClose,
    .reserved .breakWord, .symbol .semicolon,
    .reserved .elseWord, .ident "g", .symbol .assign, .ident "g", .symbol .plus, .symbol .tilde,
    .ident "f", .symbol .parenOpen, .ident "a", .symbol .minus, .integer 1, .symbol .parenClose,
    .symbol .semicolon,
    .reserved .returnWord, .symbol .minus, .ident "g", .symbol .semicolon,
    .symbol .braceClose] : List Token).map (⟨·, .start⟩)

theorem parse_sampleTokens : ∃ u, parse sampleTokens = .ok u ∧
    ∃ f ∈ u.program.functions, f.isDefined = true ∧ f.frameSize = 0 := by
  have hread : (match parse sampleTokens with
      | .ok u => u.program.functions.any fun f => f.isDefined && f.frameSize = 0
      | .error _ => false) = true := by decide +kernel
  cases hparse : parse sampleTokens with
  | error e =>
    rw [hparse] at hread
    cases hread
  | ok u =>
    rw [hparse] at hread
    obtain ⟨f, hf, hdefined⟩ := List.any_eq_true.1 hread
    simp only [Bool.and_eq_true, decide_eq_true_eq] at hdefined
    exact ⟨u, rfl, f, hf, hdefined⟩

/-- Whether a text is read, and as such a unit. -/
def reads (text : String) (p : SourceUnit → Bool) : Bool :=
  match scan text with
  | .error _ => false
  | .ok tokens => match parse tokens with
    | .error _ => false
    | .ok u => p u

theorem exists_of_reads {text : String} {p : SourceUnit → Bool} (h : reads text p = true) :
    ∃ tokens u, scan text = .ok tokens ∧ parse tokens = .ok u ∧ p u = true := by
  unfold reads at h
  split at h
  · cases h
  · next tokens hscan =>
    split at h
    · cases h
    · next u hparse => exact ⟨tokens, u, hscan, hparse, h⟩

end SourceUnit

end WordC
