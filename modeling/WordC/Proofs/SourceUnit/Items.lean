import Mathlib
import WordC.SourceUnit.Read
import WordC.Proofs.Log
import WordC.Proofs.SourceUnit.Body
/-!
# Source units are read as trees

Each item that is read is a tree, and the state has passed along its trace. From
the items in a row comes what reading a source unit means (`SourceUnit.WrittenAs`):
the text is that of a list of items, each expression in it is resolved, and the
program is what the items make known one after the other.
-/

namespace WordC

/-- **What is checked of an item.** The statements of a body fit the return type, and
its locals are laid out in its frame. -/
def Written.Item.Fits (Γ : Scopes) : Written.Item → Prop
  | .definition base stars _ ps body frameSize =>
    blockFits (!(typeOf base stars).isVoid) false body ∧
      Allocated 0 frameSize.toNat (blockTrace (Γ.enter.extend ps.placed) body).locals
  | _ => True

namespace Read

open Written

variable {s s' s₁ s₂ : ReadState}

/-! ## Parameters -/

/-- A type and a name. -/
theorem takes_named {place : Place} {base type : DataType} {name : String} {p : Position}
    (hbase : baseType s = .ok (base, s₁)) (htype : pointers base s₁ = .ok (type, s₂))
    (hname : expectName place s₂ = .ok ((name, p), s')) :
    ∃ base stars, type = typeOf base stars ∧
      Takes s s' (.ofTokens (namedTokens base stars name)) := by
  obtain ⟨base, rfl, hword⟩ := takes_baseType hbase
  obtain ⟨stars, rfl, hstars⟩ := takes_pointers htype
  exact ⟨base, stars, rfl, (hword.trans hstars).trans (takes_expectName hname)⟩

/-- There are no parameters before a closing bracket. -/
theorem parameters_of_parenClose {limit : Nat} {list : List Read.Parameter}
    (h : parameters limit s = .ok (list, s'))
    (hclose : s.text.head? = some (.symbol .parenClose)) : list = [] ∧ s' = s := by
  cases limit with
  | zero => cases h
  | succ limit =>
    obtain ⟨seen, s₁, hseen, h⟩ := bind_eq_ok.1 h
    obtain ⟨hs, hiff⟩ := sees_ok hseen
    cases hs
    obtain rfl : seen = true := hiff.2 hclose
    cases h
    exact ⟨rfl, rfl⟩

theorem takes_parameters {limit : Nat} {list : List Read.Parameter}
    (h : parameters limit s = .ok (list, s')) :
    ∃ ps : Parameters, list = ps.read ∧ Takes s s' (.ofTokens ps.tokens) := by
  induction limit generalizing s list with
  | zero => cases h
  | succ limit ih =>
    obtain ⟨seen, s₁, hseen, h⟩ := bind_eq_ok.1 h
    obtain ⟨hs, -⟩ := sees_ok hseen
    cases hs
    cases seen with
    | true =>
      cases h
      exact ⟨.none, rfl, takes_nothing _⟩
    | false =>
      rw [if_neg nofun] at h
      obtain ⟨base, s₁, hbase, h⟩ := bind_eq_ok.1 h
      obtain ⟨type, s₂, htype, h⟩ := bind_eq_ok.1 h
      obtain ⟨-, h⟩ := unless_eq_ok h nofun
      obtain ⟨⟨name, p⟩, s₃, hname, h⟩ := bind_eq_ok.1 h
      obtain ⟨base, stars, rfl, hnamed⟩ := takes_named hbase htype hname
      obtain ⟨last, s₄, hlast, h⟩ := bind_eq_ok.1 h
      obtain ⟨hs, hclose⟩ := sees_ok hlast
      cases hs
      cases last with
      | true =>
        obtain ⟨rest, s₄, hrest, h⟩ := bind_eq_ok.1 h
        cases h
        -- behind the last parameter the list is asked for once more, and is empty
        obtain ⟨rfl, rfl⟩ := parameters_of_parenClose hrest (hclose.1 rfl)
        exact ⟨.last ⟨base, stars, name, p⟩, rfl, hnamed⟩
      | false =>
        obtain ⟨_, s₄, hcomma, h⟩ := bind_eq_ok.1 h
        obtain ⟨rest, s₅, hrest, h⟩ := bind_eq_ok.1 h
        cases h
        obtain ⟨ps, rfl, hps⟩ := ih hrest
        refine ⟨.more ⟨base, stars, name, p⟩ ps, rfl, ?_⟩
        rw [Parameters.tokens, List.append_cons]
        exact (hnamed.trans (takes_expect hcomma)).trans hps

theorem takes_parameterList {list : List Read.Parameter}
    (h : parameterList s = .ok (list, s')) :
    ∃ ps : ParameterList, list = ps.read ∧ Takes s s' (.ofTokens ps.tokens) := by
  obtain ⟨_, s₁, hopen, h⟩ := bind_eq_ok.1 h
  obtain ⟨t, s₂, ht, h⟩ := bind_eq_ok.1 h
  have hhead := head?_of_peek ht
  cases peek_ok ht
  obtain ⟨t', s₂, ht', h⟩ := bind_eq_ok.1 h
  obtain ⟨hs, hsecond⟩ := peekSecond_ok ht'
  cases hs
  split at h
  -- `(void)`: the word is skipped and the list behind it is empty
  · next hvoid =>
    rw [Bool.and_eq_true, decide_eq_true_eq, decide_eq_true_eq] at hvoid
    rw [hvoid.2] at hsecond
    rw [hvoid.1] at hhead
    obtain ⟨_, s₂, hadvance, h⟩ := bind_eq_ok.1 h
    obtain ⟨_, _, hs, h⟩ := bind_eq_ok.1 h
    cases hs
    obtain ⟨list', s₃, hlist, h⟩ := bind_eq_ok.1 h
    obtain ⟨_, s₄, hclose, h⟩ := bind_eq_ok.1 h
    cases h
    have hvoid := takes_advance hadvance (hhead nofun)
    have hnext : s₂.text.head? = some (.symbol .parenClose) := by
      rw [hvoid.text] at hsecond
      cases htext : s₂.text with
      | nil =>
        rw [htext] at hsecond
        cases hsecond
      | cons u us =>
        rw [htext] at hsecond
        exact congrArg some hsecond.symm
    obtain ⟨rfl, rfl⟩ := parameters_of_parenClose hlist hnext
    exact ⟨.void, rfl, ((takes_expect hopen).trans hvoid).trans (takes_expect hclose)⟩
  · obtain ⟨_, _, hs, h⟩ := bind_eq_ok.1 h
    cases hs
    obtain ⟨list', s₃, hlist, h⟩ := bind_eq_ok.1 h
    obtain ⟨_, s₄, hclose, h⟩ := bind_eq_ok.1 h
    cases h
    obtain ⟨ps, rfl, hps⟩ := takes_parameters hlist
    exact ⟨.list ps, rfl, ((takes_expect hopen).trans hps).trans (takes_expect hclose)⟩

/-- Declaring variables one after the other. -/
theorem keeps_declareVariables {list : List (Read.Parameter × Variable)} {u : Unit}
    (h : (list.forM fun (p, v) => declareVariable p.position v : Read Unit) s = .ok (u, s')) :
    Keeps s s' { declares := list.map Prod.snd } := by
  induction list generalizing s with
  | nil =>
    cases h
    exact (takes_nothing _).toKeeps
  | cons pv list ih =>
    obtain ⟨_, s₁, hdeclare, h⟩ := bind_eq_ok.1 h
    exact (keeps_declareVariable hdeclare).trans (ih h)

theorem length_parameterVariables (count : Nat) (list : List Read.Parameter) :
    (parameterVariables count list).length = list.length := by
  induction list generalizing count with
  | nil => rfl
  | cons p list ih => rw [parameterVariables, List.length_cons, ih, List.length_cons]

/-! ## Items -/

/-- The body of a function: its parameters and its locals share one scope, and its
frame begins with no words. -/
theorem keeps_functionBody {type : DataType} {ps : ParameterList} {stmts : List Stmt}
    (h : functionBody type ps.read ps.placed s = .ok (stmts, s')) :
    ∃ body, stmts = blockStmts body ∧ blockFits (!type.isVoid) false body ∧
      Allocated 0 s'.frameSize (blockTrace (s.scopes.enter.extend ps.placed) body).locals ∧
      Keeps s s' (.ofTokens [.symbol .braceOpen] ++ ({ declares := ps.placed } ++
        blockTrace (s.scopes.enter.extend ps.placed) body).enclosed) := by
  obtain ⟨_, s₁, hopen, h⟩ := bind_eq_ok.1 h
  have hbrace := takes_expect hopen
  obtain ⟨_, s₂, henter, h⟩ := bind_eq_ok.1 h
  obtain rfl := enterScope_ok henter
  obtain ⟨_, s₃, hdeclare, h⟩ := bind_eq_ok.1 h
  have hparameters := keeps_declareVariables hdeclare
  have hlength : ps.read.length = ps.placed.length := (length_parameterVariables _ _).symm
  rw [List.map_snd_zip hlength.ge] at hparameters
  have hscopes : s₃.scopes = s.scopes.enter.extend ps.placed := by
    rw [hparameters.scopes, hbrace.scopes_eq rfl]
  obtain ⟨_, s₄, hframe, h⟩ := bind_eq_ok.1 h
  cases hframe
  obtain ⟨_, _, hs, h⟩ := bind_eq_ok.1 h
  cases hs
  obtain ⟨inner, s₅, hinner, h⟩ := bind_eq_ok.1 h
  obtain ⟨_, s₆, hexit, h⟩ := bind_eq_ok.1 h
  cases h
  obtain ⟨body, rfl, hfits, hbody⟩ := (bodyRules _).statements _ _ stmts s₅ hinner
  rw [hscopes] at hbody
  -- where the frame begins does not matter to what is passed
  have hinside : Keeps s₃ s₅ (blockTrace (s.scopes.enter.extend ps.placed) body) :=
    ⟨⟨hbody.text, hbody.scopes, hbody.calls, hbody.resolved, hbody.distinct⟩, hbody.globals,
      hbody.declarations⟩
  refine ⟨body, rfl, hfits, ?_, ?_⟩
  · rw [exitScope_ok hexit]
    exact hbody.allocated
  · rw [exitScope_ok hexit]
    exact hbrace.toKeeps.trans (hparameters.trans hinside).enclosed

/-- The rest of a function behind its name. -/
theorem keeps_functionItem {base : BaseType} {stars : Nat} {name : String} {it : Item}
    (h : functionItem (typeOf base stars) name s = .ok (it, s')) :
    ∃ i : Written.Item, it = i.read ∧ i.Fits s.scopes ∧
      ∃ t, Keeps s s' t ∧ i.inside s.scopes = .ofTokens (namedTokens base stars name) ++ t := by
  obtain ⟨list, s₁, hlist, h⟩ := bind_eq_ok.1 h
  obtain ⟨ps, rfl, hps⟩ := takes_parameterList hlist
  obtain ⟨seen, s₂, hseen, h⟩ := bind_eq_ok.1 h
  obtain ⟨hs, hend⟩ := sees_ok hseen
  cases hs
  cases seen with
  | true =>
    obtain ⟨_, s₂, hadvance, h⟩ := bind_eq_ok.1 h
    cases h
    have hsemicolon := takes_advance hadvance (hend.1 rfl)
    refine ⟨.prototype base stars name ps, rfl, trivial, _, (hps.trans hsemicolon).toKeeps, ?_⟩
    exact congrArg Trace.ofTokens (List.append_assoc _ _ _)
  | false =>
    rw [if_neg nofun] at h
    obtain ⟨stmts, s₂, hbody, h⟩ := bind_eq_ok.1 h
    obtain ⟨_, _, hs, h⟩ := bind_eq_ok.1 h
    cases hs
    cases h
    obtain ⟨body, rfl, hfits, hallocated, hkeeps⟩ := keeps_functionBody hbody
    rw [hps.scopes_eq rfl] at hallocated hkeeps
    -- a variable that would take the frame past 64 bits is refused
    have hsize : s'.frameSize < UInt64.size := hallocated.high_lt (by norm_num)
    refine ⟨.definition base stars name ps body (.ofNat s'.frameSize), rfl, ⟨hfits, ?_⟩, _,
      hps.toKeeps.trans hkeeps, ?_⟩
    · rwa [UInt64.toNat_ofNat_of_lt' hsize]
    · simp only [Written.Item.inside, Written.Item.headTokens, Trace.ofTokens_append,
        Trace.append_assoc]

/-- The literal of an initial value, behind its sign. -/
theorem takes_literal {negative : Bool} {n : Int64} (h : (do
      let value ← match ← peek with
        | .integer n => pure n
        | .truth b => pure (Constant.bool b).value
        | .char c => pure (Constant.char c).value
        | _ => fail .globalInitializer
      advance
      return if negative then -value else value : Read Int64) s = .ok (n, s')) :
    ∃ literal : Literal, n = (⟨negative, literal⟩ : Initial).value ∧
      Takes s s' (.ofTokens [literal.token]) := by
  obtain ⟨t, s₁, ht, h⟩ := bind_eq_ok.1 h
  have hhead := head?_of_peek ht
  cases peek_ok ht
  cases t with
  | integer m =>
    cases h
    exact ⟨.integer m, rfl, takes_advance rfl (hhead nofun)⟩
  | truth b =>
    cases h
    exact ⟨.truth b, rfl, takes_advance rfl (hhead nofun)⟩
  | char c =>
    cases h
    exact ⟨.char c, rfl, takes_advance rfl (hhead nofun)⟩
  | _ => cases h

theorem takes_initialValue {n : Int64} (h : initialValue s = .ok (n, s')) :
    ∃ v : Initial, n = v.value ∧ Takes s s' (.ofTokens v.tokens) := by
  obtain ⟨negative, s₁, hseen, h⟩ := bind_eq_ok.1 h
  obtain ⟨hs, hminus⟩ := sees_ok hseen
  cases hs
  cases negative with
  | true =>
    obtain ⟨_, s₂, hadvance, h⟩ := bind_eq_ok.1 h
    obtain ⟨literal, rfl, hliteral⟩ := takes_literal h
    exact ⟨⟨true, literal⟩, rfl, (takes_advance hadvance (hminus.1 rfl)).trans hliteral⟩
  | false =>
    obtain ⟨literal, rfl, hliteral⟩ := takes_literal h
    exact ⟨⟨false, literal⟩, rfl, hliteral⟩

/-- The rest of a file-scope variable behind its name. -/
theorem keeps_globalItem {base : BaseType} {stars : Nat} {name : String} {p : Position} {it : Item}
    (h : globalItem (typeOf base stars) name p s = .ok (it, s')) :
    ∃ i : Written.Item, it = i.read ∧ i.Fits s.scopes ∧
      ∃ t, Keeps s s' t ∧ i.inside s.scopes = .ofTokens (namedTokens base stars name) ++ t := by
  obtain ⟨-, h⟩ := unless_eq_ok h nofun
  obtain ⟨seen, s₁, hseen, h⟩ := bind_eq_ok.1 h
  obtain ⟨hs, -⟩ := sees_ok hseen
  cases hs
  obtain ⟨-, h⟩ := unless_eq_ok h nofun
  obtain ⟨seen, s₁, hseen, h⟩ := bind_eq_ok.1 h
  obtain ⟨hs, hassign⟩ := sees_ok hseen
  cases hs
  cases seen with
  | true =>
    obtain ⟨_, s₁, hadvance, h⟩ := bind_eq_ok.1 h
    obtain ⟨value, s₂, hvalue, h⟩ := bind_eq_ok.1 h
    obtain ⟨_, s₃, hend, h⟩ := bind_eq_ok.1 h
    cases h
    obtain ⟨v, rfl, hv⟩ := takes_initialValue hvalue
    have htakes := ((takes_advance hadvance (hassign.1 rfl)).trans hv).trans (takes_expect hend)
    refine ⟨.global base stars name (some v), rfl, trivial, _, htakes.toKeeps, ?_⟩
    exact congrArg Trace.ofTokens (List.append_assoc _ _ _)
  | false =>
    obtain ⟨value, s₁, hvalue, h⟩ := bind_eq_ok.1 h
    cases hvalue
    obtain ⟨_, s₂, hend, h⟩ := bind_eq_ok.1 h
    cases h
    refine ⟨.global base stars name none, rfl, trivial, _, (takes_expect hend).toKeeps, ?_⟩
    exact congrArg Trace.ofTokens (List.append_assoc _ _ _)

/-- **The next item is a tree.** -/
theorem keeps_item {it : Item} {p : Position} (h : item s = .ok ((it, p), s')) :
    ∃ i : Written.Item, it = i.read ∧ i.Fits s.scopes ∧ Keeps s s' (i.inside s.scopes) := by
  obtain ⟨base, s₁, hbase, h⟩ := bind_eq_ok.1 h
  obtain ⟨type, s₂, htype, h⟩ := bind_eq_ok.1 h
  obtain ⟨⟨name, p'⟩, s₃, hname, h⟩ := bind_eq_ok.1 h
  obtain ⟨base, stars, rfl, hnamed⟩ := takes_named hbase htype hname
  obtain ⟨seen, s₄, hseen, h⟩ := bind_eq_ok.1 h
  obtain ⟨hs, -⟩ := sees_ok hseen
  cases hs
  have hrest : ∃ i : Written.Item, it = i.read ∧ i.Fits s₃.scopes ∧ ∃ t, Keeps s₃ s' t ∧
      i.inside s₃.scopes = .ofTokens (namedTokens base stars name) ++ t := by
    -- a bracket behind the name tells a function from a variable
    cases seen with
    | true =>
      obtain ⟨it', s₄, hit, h⟩ := bind_eq_ok.1 h
      cases h
      exact keeps_functionItem hit
    | false =>
      obtain ⟨it', s₄, hit, h⟩ := bind_eq_ok.1 h
      cases h
      exact keeps_globalItem hit
  rw [hnamed.scopes_eq rfl] at hrest
  obtain ⟨i, hread, hfits, t, ht, hinside⟩ := hrest
  exact ⟨i, hread, hfits, hinside ▸ hnamed.toKeeps.trans ht⟩

end Read

/-! ## Units -/

/-- The variable that an item adds at file scope. -/
def Item.global? : Item → Option Global
  | .global g => some g
  | _ => none

/-- The function that an item declares or defines. -/
def Item.function? : Item → Option Function
  | .global _ => none
  | .prototype f => some f
  | .definition f => some f

namespace Read

open Written

variable {s s' s₁ s₂ : ReadState} {items : List Written.Item}

/-- **Reading items in a row.** Each is made known to those behind it. -/
structure Crosses (s s' : ReadState) (items : List Written.Item) : Prop extends
    Passes s s' (unitTrace s.scopes items) where
  fits : ∀ place ∈ unitPlaces s.scopes items, place.2.Fits place.1
  globals : s'.globals = s.globals ++ items.filterMap (·.read.global?)
  functions : (items.filterMap (·.read.function?)).forM Declarations.declare s.declarations =
    .ok ⟨⟩ s'.declarations

theorem Crosses.nil (s : ReadState) : Crosses s s [] :=
  ⟨(takes_nothing s).toPasses, nofun, (List.append_nil _).symm, rfl⟩

theorem declareFunction_ok {p : Position} {f : Function} {u : Unit}
    (h : declareFunction p f s = .ok (u, s')) :
    ∃ d, Declarations.declare f s.declarations = .ok ⟨⟩ d ∧ s' = { s with declarations := d } := by
  obtain ⟨_, s₁, hget, h⟩ := bind_eq_ok.1 h
  cases hget
  cases hdeclare : Declarations.declare f s.declarations with
  | error e =>
    simp only [hdeclare] at h
    cases h
  | ok _ d =>
    simp only [hdeclare] at h
    cases h
    exact ⟨d, rfl, rfl⟩

/-- What an item makes known. -/
theorem declareItem_ok {p : Position} {i : Written.Item} {u : Unit}
    (h : declareItem p i.read s = .ok (u, s')) :
    Passes s s' { declares := i.declares } ∧
      s'.globals = s.globals ++ i.read.global?.toList ∧
      i.read.function?.toList.forM Declarations.declare s.declarations =
        .ok ⟨⟩ s'.declarations := by
  cases i with
  | global base stars name value =>
    obtain ⟨_, s₁, hdeclare, h⟩ := bind_eq_ok.1 h
    cases h
    have hkeeps := keeps_declareVariable hdeclare
    refine ⟨?_, congrArg (· ++ _) hkeeps.globals, ?_⟩
    · exact ⟨hkeeps.text, hkeeps.scopes, hkeeps.calls, nofun, hkeeps.distinct⟩
    · exact congrArg (EStateM.Result.ok PUnit.unit) hkeeps.declarations.symm
  | prototype | definition =>
    obtain ⟨d, hd, rfl⟩ := declareFunction_ok h
    refine ⟨?_, (List.append_nil _).symm, ?_⟩
    · exact ⟨rfl, (Scopes.extend_nil _).symm, (List.append_nil _).symm, nofun,
        fun hs => ⟨hs, nofun, nofun⟩⟩
    · exact bind_ok hd

/-- One item more. -/
theorem Crosses.cons {i : Written.Item} {p : Position} {u : Unit} (hfits : i.Fits s.scopes)
    (hitem : Keeps s s₁ (i.inside s.scopes)) (hdeclare : declareItem p i.read s₁ = .ok (u, s₂))
    (h : Crosses s₂ s' items) : Crosses s s' (i :: items) := by
  obtain ⟨hpasses, hglobals, hfunctions⟩ := declareItem_ok hdeclare
  have hinside : (i.inside s.scopes).declares = [] := by
    cases i <;> rfl
  have hscopes : s₂.scopes = s.scopes.extend i.declares := by
    rw [hpasses.scopes, hitem.scopes_eq hinside]
  have hfilter {β : Type} (f : Written.Item → Option β) :
      (i :: items).filterMap f = (f i).toList ++ items.filterMap f := by
    cases hi : f i <;> simp [hi]
  obtain ⟨hrest, hfits', hglobals', hfunctions'⟩ := h
  rw [hscopes] at hrest hfits'
  refine ⟨(hitem.toPasses.trans hpasses).trans hrest, ?_, ?_, ?_⟩
  · exact List.forall_mem_cons.2 ⟨hfits, hfits'⟩
  · rw [hglobals', hglobals, hitem.globals, hfilter, List.append_assoc]
  · rw [hfilter, ← hitem.declarations]
    exact (congrFun List.forM_append _).trans ((bind_ok hfunctions).trans hfunctions')

end Read

theorem Logged.ofExcept_eq_ok {ε α : Type} {x : Except ε α} {notes notes' : Array Note} {a : α}
    (h : Logged.ofExcept x notes = .ok a notes') : x = .ok a := by
  cases x with
  | ok b =>
    cases h
    rfl
  | error e => cases h

namespace SourceUnit

/-- Items are read up to the end of the text. -/
theorem readItems_ok {limit : Nat} {s s' : ReadState} {notes notes' : Array Note}
    (h : readItems limit s notes = .ok s' notes') :
    (∃ items, Read.Crosses s s' items) ∧ s'.text.headD .eof = .eof := by
  induction limit generalizing s notes with
  | zero => cases h
  | succ limit ih =>
    rw [readItems] at h
    obtain ⟨⟨t, s₁⟩, notes₁, hpeek, h⟩ := bind_eq_ok.1 h
    cases t with
    | eof =>
      cases h
      exact ⟨⟨[], .nil _⟩, (Read.peek_eq (Logged.ofExcept_eq_ok hpeek)).symm⟩
    | _ =>
      obtain ⟨⟨⟨it, p⟩, s₂⟩, notes₂, hitem, h⟩ := bind_eq_ok.1 h
      obtain ⟨i, rfl, hfits, hkeeps⟩ := Read.keeps_item (Logged.ofExcept_eq_ok hitem)
      -- the note on an item is made before it is declared, if there is one
      cases hnote : i.read.note?
      all_goals simp only [hnote] at h
      on_goal 2 => obtain ⟨_, notes₃, -, h⟩ := bind_eq_ok.1 h
      all_goals
        obtain ⟨⟨u, s₃⟩, notes₃, hdeclare, h⟩ := bind_eq_ok.1 h
        obtain ⟨⟨items, hitems⟩, hend⟩ := ih h
        exact ⟨⟨i :: items, .cons hfits hkeeps (Logged.ofExcept_eq_ok hdeclare) hitems⟩, hend⟩

/-- **How a source unit is written.** -/
structure WrittenAs (tokens : List PlacedToken) (u : SourceUnit) (items : List Written.Item) :
    Prop where
  /-- The items are the text, up to its end. -/
  text : ∃ rest, tokens.map PlacedToken.token = (Written.unitTrace {} items).tokens ++ rest ∧
    rest.headD .eof = .eof
  /-- Each item passes its checks, over the file scope before it. -/
  fits : ∀ place ∈ Written.unitPlaces {} items, place.2.Fits place.1
  /-- Each expression is resolved in the scopes that are open before it. -/
  resolved : ∀ site ∈ (Written.unitTrace {} items).sites, site.Resolved
  distinct : ∀ site ∈ (Written.unitTrace {} items).sites, site.scopes.Distinct
  /-- No scope has two variables of one name when it is closed. -/
  scopes : ∀ scope ∈ (Written.unitTrace {} items).scopes, (scope.map Variable.name).Nodup
  file : ((Written.unitTrace {} items).declares.map Variable.name).Nodup
  calls : u.calls.map CallSite.called =
    (Written.unitTrace {} items).sites.flatMap (·.code.calls)
  globals : u.program.globals = items.filterMap (·.read.global?)
  functions : ∃ d, (items.filterMap (·.read.function?)).forM Declarations.declare {} = .ok ⟨⟩ d ∧
    u.program.functions = d.functions

/-- **What is read is written as items.** -/
theorem parse_writtenAs {tokens : List PlacedToken} {u : SourceUnit} (h : parse tokens = .ok u) :
    ∃ items, WrittenAs tokens u items := by
  unfold parse Logged.value at h
  split at h
  · next hrun =>
    cases h
    obtain ⟨s, notes, hitems, h⟩ := bind_eq_ok.1 hrun
    cases h
    obtain ⟨⟨items, hcrosses⟩, hend⟩ := readItems_ok hitems
    obtain ⟨hfile, hsites, hscopes⟩ :=
      hcrosses.distinct (List.forall_mem_singleton.2 List.nodup_nil)
    refine ⟨items, ⟨s.text, hcrosses.text, hend⟩, hcrosses.fits, hcrosses.resolved, hsites,
      hscopes, ?_, hcrosses.calls, hcrosses.globals, ⟨_, hcrosses.functions, rfl⟩⟩
    have hnodup := hfile.current
    rwa [hcrosses.scopes] at hnodup
  · cases h

end SourceUnit

end WordC
