import Mathlib
import WordC.Proofs.Token.Partition
import WordC.Proofs.SourceUnit.Unit
/-!
# Storage of the variables of a function

Reading lays locals out one below the other under the frame pointer, and
parameters one below the other above it. The lowering takes equality of variables
for its only test of aliasing, so it relies on what is proved here: different
variables take different words (`SourceUnit.parse_separates`).
-/

namespace WordC

/-! ## Offsets

An offset is first an integer, of which the storage of a variable keeps the lowest
64 bits. -/

/-- The variable takes `v.words` words from offset `a` on. -/
structure Variable.Spans (v : Variable) (a : Int) : Prop where
  storage : v.storage = .frame (Int64.ofInt a)
  pos : 0 < v.words

theorem ofNat_eq_ofInt (k : Nat) : Int64.ofNat k = Int64.ofInt k :=
  (Int64.ofInt_eq_ofNat).symm

/-- Offsets that are not all around apart differ in their lowest 64 bits. -/
theorem ofInt_injective {a b : Int} (hab : a - b < 2 ^ 64) (hba : b - a < 2 ^ 64)
    (h : Int64.ofInt a = Int64.ofInt b) : a = b := by
  have hint := congrArg Int64.toInt h
  rw [Int64.toInt_ofInt, Int64.toInt_ofInt, Int.bmod_def, Int.bmod_def] at hint
  simp only [Int64.size] at hint
  split at hint <;> split at hint <;> omega

/-! ## Locals -/

namespace Allocated

variable {low high : Nat} {vs : List Variable} {v w : Variable}

theorem le (h : Allocated low high vs) : low ≤ high := by
  induction h with
  | nil => exact le_rfl
  | cons _ _ _ _ ih => omega

/-- Where a local is. -/
theorem spans (h : Allocated low high vs) (hv : v ∈ vs) :
    ∃ a : Int, v.Spans a ∧ -high ≤ a ∧ a + v.words ≤ -low := by
  induction h with
  | nil => cases hv
  | @cons low high u vs hpos _ hstorage hrest ih =>
    have hle := hrest.le
    rcases List.mem_cons.1 hv with rfl | hv
    · refine ⟨-(low + v.words : Nat), ⟨?_, hpos⟩, by omega, by omega⟩
      rw [hstorage, Int64.ofInt_neg, ofNat_eq_ofInt]
    · obtain ⟨a, ha, hlow, hhigh⟩ := ih hv
      exact ⟨a, ha, hlow, by omega⟩

/-- **Of two locals, one is below the other.** -/
theorem apart (h : Allocated low high vs) (hv : v ∈ vs) (hw : w ∈ vs) (hne : v ≠ w) :
    ∃ a b : Int, v.Spans a ∧ w.Spans b ∧ (a + v.words ≤ b ∨ b + w.words ≤ a) ∧
      (-high ≤ a ∧ a + v.words ≤ -low) ∧ (-high ≤ b ∧ b + w.words ≤ -low) := by
  induction h with
  | nil => cases hv
  | @cons low high u vs hpos hlt hstorage hrest ih =>
    -- the first one lies above all the others
    have hfirst : ∀ x ∈ vs, ∃ a b : Int, u.Spans a ∧ x.Spans b ∧ b + x.words ≤ a ∧
        (-high ≤ a ∧ a + u.words ≤ -low) ∧ (-high ≤ b ∧ b + x.words ≤ -low) := by
      intro x hx
      have hle := hrest.le
      obtain ⟨b, hb, hhigh, hlow⟩ := hrest.spans hx
      refine ⟨-(low + u.words : Nat), b, ⟨?_, hpos⟩, hb, by omega, by omega, by omega⟩
      rw [hstorage, Int64.ofInt_neg, ofNat_eq_ofInt]
    rcases List.mem_cons.1 hv with rfl | hv'
    · rcases List.mem_cons.1 hw with rfl | hw'
      · exact absurd rfl hne
      · obtain ⟨a, b, ha, hb, hab, hin⟩ := hfirst w hw'
        exact ⟨a, b, ha, hb, .inr hab, hin⟩
    · rcases List.mem_cons.1 hw with rfl | hw'
      · obtain ⟨a, b, ha, hb, hab, hin, hin'⟩ := hfirst v hv'
        exact ⟨b, a, hb, ha, .inl hab, hin', hin⟩
      · obtain ⟨a, b, ha, hb, hab, hin, hin'⟩ := ih hv' hw'
        exact ⟨a, b, ha, hb, hab, by omega, by omega⟩

end Allocated

/-! ## Parameters -/

theorem Read.getElem_parameterVariables {count : Nat} {list : List Parameter}
    (hcount : list.length ≤ count) (i : Nat) (hi : i < (parameterVariables count list).length) :
    (parameterVariables count list)[i].storage = .frame (Int64.ofNat (count - i + 1)) ∧
      (parameterVariables count list)[i].words = 1 := by
  induction list generalizing count i with
  | nil => cases hi
  | cons p list ih =>
    rw [List.length_cons] at hcount
    cases i with
    | zero => exact ⟨rfl, rfl⟩
    | succ i =>
      have hfewer : list.length ≤ count - 1 := by omega
      have hrest := ih hfewer i (Nat.lt_of_succ_lt_succ hi)
      rw [show count - 1 - i = count - (i + 1) by omega] at hrest
      exact hrest

/-- Where a parameter is. -/
theorem Function.Placed.spans {f : Function} (h : f.Placed) (i : Nat)
    (hi : i < f.parameters.length) :
    f.parameters[i].Spans (f.parameters.length - i + 1) ∧ f.parameters[i].words = 1 := by
  obtain ⟨name, returnType, parameters, body, frameSize⟩ := f
  obtain ⟨list, rfl⟩ := h
  have hlength := Read.length_parameterVariables list.length list
  obtain ⟨hstorage, hwords⟩ := Read.getElem_parameterVariables le_rfl i hi
  refine ⟨⟨hstorage.trans ?_, hwords ▸ Nat.one_pos⟩, hwords⟩
  have hoffset : ((list.length - i + 1 : Nat) : Int) = list.length - i + 1 := by
    change i < (Read.parameterVariables list.length list).length at hi
    omega
  rw [ofNat_eq_ofInt, hoffset, hlength]

/-! ## What a function mentions -/

/-- **The variables of a function**: `file` are those at file scope, and `locals` those
declared in it. -/
structure Function.LaidOut (file : List Variable) (f : Function) (locals : List Variable) :
    Prop where
  placed : f.Placed
  allocated : ∃ high ≤ f.frameSize.toNat, Allocated 0 high locals
  mentions : ∀ v, f.Mentions v → v ∈ file ∨ v ∈ f.parameters ∨ v ∈ locals

theorem Program.ReadFrom.laidOut {tokens : List PlacedToken} {p : Program}
    (h : p.ReadFrom tokens) {f : Function} (hf : f ∈ p.functions) :
    ∃ locals, f.LaidOut (p.globals.map Global.variable) locals := by
  cases hbody : f.body with
  | none =>
    refine ⟨[], h.placed f hf, ⟨0, Nat.zero_le _, .nil⟩, fun v hv => ?_⟩
    rcases hv with hv | hv
    · exact .inr (.inl hv)
    · rw [hbody] at hv
      cases hv
  | some linear =>
    obtain ⟨stmts, locals, hread⟩ := h.functions f hf linear hbody
    refine ⟨locals, h.placed f hf, ⟨_, le_rfl, hread.allocated⟩, fun v hv => ?_⟩
    rcases hv with hv | hv
    · exact .inr (.inl hv)
    · have hplain : blockSound Code.Plain false stmts :=
        hread.sound.mono fun _ hcode => hcode.plain
      rw [hread.body] at hv
      obtain ⟨c, hc, hmem⟩ := (mem_bodyLinear hplain rfl).1 hv
      exact (hread.sound.forall_expressions c hc).known_of_mem hmem

namespace Function.LaidOut

variable {globals : List Global} {f : Function} {locals : List Variable} {v w : Variable}

theorem spans_parameter (h : f.LaidOut (globals.map Global.variable) locals)
    (hv : v ∈ f.parameters) :
    ∃ a : Int, v.Spans a ∧ 2 ≤ a ∧ a + v.words ≤ f.parameters.length + 2 := by
  obtain ⟨i, hi, rfl⟩ := List.mem_iff_getElem.1 hv
  obtain ⟨hspans, hwords⟩ := h.placed.spans i hi
  exact ⟨_, hspans, by omega, by omega⟩

theorem spans_local (h : f.LaidOut (globals.map Global.variable) locals) (hv : v ∈ locals) :
    ∃ a : Int, v.Spans a ∧ -f.frameSize.toNat ≤ a ∧ a + v.words ≤ 0 := by
  obtain ⟨high, hhigh, hallocated⟩ := h.allocated
  obtain ⟨a, ha, hlow, hend⟩ := hallocated.spans hv
  exact ⟨a, ha, by omega, by omega⟩

/-- A variable of the frame is a parameter or a local. -/
theorem mem_of_frame (h : f.LaidOut (globals.map Global.variable) locals) (hv : f.Mentions v)
    {o : Int64} (ho : v.storage = .frame o) : v ∈ f.parameters ∨ v ∈ locals := by
  rcases h.mentions v hv with hfile | hframe
  · obtain ⟨g, -, rfl⟩ := List.mem_map.1 hfile
    cases ho
  · exact hframe

/-- **Different variables of a frame take different words.** -/
theorem apart (h : f.LaidOut (globals.map Global.variable) locals) (hne : v ≠ w)
    (hv : v ∈ f.parameters ∨ v ∈ locals) (hw : w ∈ f.parameters ∨ w ∈ locals) :
    ∃ a b : Int, v.Spans a ∧ w.Spans b ∧ (a + v.words ≤ b ∨ b + w.words ≤ a) ∧
      (-f.frameSize.toNat ≤ a ∧ a ≤ f.parameters.length + 1) ∧
      (-f.frameSize.toNat ≤ b ∧ b ≤ f.parameters.length + 1) := by
  rcases hv with hv | hv
  · rcases hw with hw | hw
    · obtain ⟨i, hi, rfl⟩ := List.mem_iff_getElem.1 hv
      obtain ⟨j, hj, rfl⟩ := List.mem_iff_getElem.1 hw
      have hij : i ≠ j := by
        rintro rfl
        exact hne rfl
      obtain ⟨hspans, hwords⟩ := h.placed.spans i hi
      obtain ⟨hspans', hwords'⟩ := h.placed.spans j hj
      exact ⟨_, _, hspans, hspans', by omega, by omega, by omega⟩
    -- a parameter lies above the frame pointer and a local below it
    · obtain ⟨a, ha, hlow, hhigh⟩ := h.spans_parameter hv
      obtain ⟨b, hb, hlow', hhigh'⟩ := h.spans_local hw
      have hpos := ha.pos
      exact ⟨a, b, ha, hb, .inr (by omega), by omega, by omega⟩
  · rcases hw with hw | hw
    · obtain ⟨a, ha, hlow, hhigh⟩ := h.spans_local hv
      obtain ⟨b, hb, hlow', hhigh'⟩ := h.spans_parameter hw
      have hpos := hb.pos
      exact ⟨a, b, ha, hb, .inl (by omega), by omega, by omega⟩
    · obtain ⟨high, hhigh, hallocated⟩ := h.allocated
      obtain ⟨a, b, ha, hb, hab, hin, hin'⟩ := hallocated.apart hv hw hne
      exact ⟨a, b, ha, hb, hab, by omega, by omega⟩

/-- A variable that is addressed by a name is one at file scope, and the name is its
own. -/
theorem mem_of_global (h : f.LaidOut (globals.map Global.variable) locals) (hv : f.Mentions v)
    {label : String} (hlabel : v.storage = .global label) :
    label = v.name ∧ ∃ g ∈ globals, v = g.variable := by
  rcases h.mentions v hv with hfile | hv | hv
  · obtain ⟨g, hg, rfl⟩ := List.mem_map.1 hfile
    cases hlabel
    exact ⟨rfl, g, hg, rfl⟩
  · obtain ⟨a, ha, -⟩ := h.spans_parameter hv
    cases hlabel.symm.trans ha.storage
  · obtain ⟨a, ha, -⟩ := h.spans_local hv
    cases hlabel.symm.trans ha.storage

/-- **Different variables have different storage**, if the frame and the parameters
fit into the space of addresses. -/
theorem storage_injective (h : f.LaidOut (globals.map Global.variable) locals)
    (hnames : (globals.map Global.name).Nodup)
    (hfit : f.frameSize.toNat + f.parameters.length + 1 < 2 ^ 64) (hv : f.Mentions v)
    (hw : f.Mentions w) (heq : v.storage = w.storage) : v = w := by
  by_contra hne
  cases hs : v.storage with
  | frame o =>
    obtain ⟨a, b, ha, hb, hab, hin, hin'⟩ := h.apart hne (h.mem_of_frame hv hs)
      (h.mem_of_frame hw (heq.symm.trans hs))
    have hpos := ha.pos
    have hpos' := hb.pos
    have hsame : Int64.ofInt a = Int64.ofInt b :=
      Storage.frame.inj (ha.storage.symm.trans (heq.trans hb.storage))
    have := ofInt_injective (by omega) (by omega) hsame
    omega
  | global label =>
    obtain ⟨-, g, hg, rfl⟩ := h.mem_of_global hv hs
    obtain ⟨-, g', hg', rfl⟩ := h.mem_of_global hw (heq.symm.trans hs)
    have hname : g.name = g'.name := Storage.global.inj heq
    exact hne (by rw [List.inj_on_of_nodup_map hnames hg hg' hname])

end Function.LaidOut

theorem Variable.Spans.toInt {v : Variable} {a : Int} (h : v.Spans a) {o : Int64}
    (ho : v.storage = .frame o) (hlow : -2 ^ 63 ≤ a) (hhigh : a < 2 ^ 63) : o.toInt = a := by
  have ho' : o = Int64.ofInt a := Storage.frame.inj (ho.symm.trans h.storage)
  rw [ho', Int64.toInt_ofInt]
  exact Int.bmod_eq_of_le (by simpa [Int64.size] using hlow) (by simpa [Int64.size] using hhigh)

/-- **The storage of the variables of a function.** A variable of the frame takes
`v.words` words from its offset on. -/
structure Function.Separates (globals : List Global) (f : Function) : Prop where
  /-- Different variables take different words. -/
  disjoint : ∀ v w, f.Mentions v → f.Mentions w → v ≠ w → ∀ o p, v.storage = .frame o →
    w.storage = .frame p → o.toInt + v.words ≤ p.toInt ∨ p.toInt + w.words ≤ o.toInt
  /-- Locals are within the frame. -/
  inside : ∀ v, f.Mentions v → v ∉ f.parameters → ∀ o, v.storage = .frame o →
    -f.frameSize.toNat ≤ o.toInt ∧ o.toInt + v.words ≤ 0
  /-- Parameters are above the saved frame pointer and the return address. -/
  above : ∀ i (hi : i < f.parameters.length), f.parameters[i].words = 1 ∧
    ∃ o, f.parameters[i].storage = .frame o ∧ o.toInt = f.parameters.length - i + 1
  /-- A word at file scope is addressed by its own name. -/
  file : ∀ v, f.Mentions v → ∀ label, v.storage = .global label →
    label = v.name ∧ ∃ g ∈ globals, v = g.variable

theorem Function.LaidOut.separates {globals : List Global} {f : Function} {locals : List Variable}
    (h : f.LaidOut (globals.map Global.variable) locals) (hframe : f.frameSize.toNat < 2 ^ 63)
    (hparameters : f.parameters.length + 1 < 2 ^ 63) : f.Separates globals where
  disjoint v w hv hw hne o p ho hp := by
    obtain ⟨a, b, ha, hb, hab, hin, hin'⟩ :=
      h.apart hne (h.mem_of_frame hv ho) (h.mem_of_frame hw hp)
    rw [ha.toInt ho (by omega) (by omega), hb.toInt hp (by omega) (by omega)]
    exact hab
  inside v hv hlocal o ho := by
    obtain ⟨a, ha, hlow, hhigh⟩ := h.spans_local ((h.mem_of_frame hv ho).resolve_left hlocal)
    have hpos := ha.pos
    rw [ha.toInt ho (by omega) (by omega)]
    exact ⟨hlow, hhigh⟩
  above i hi := by
    obtain ⟨hspans, hwords⟩ := h.placed.spans i hi
    exact ⟨hwords, _, hspans.storage, hspans.toInt hspans.storage (by omega) (by omega)⟩
  file v hv label hlabel := h.mem_of_global hv hlabel

namespace SourceUnit

/-- **Reading gives every variable its own words**, in a frame of fewer than `2 ^ 63`
words and with parameters whose offsets can be told. -/
theorem parse_separates {tokens : List PlacedToken} {u : SourceUnit} (h : parse tokens = .ok u)
    {f : Function} (hf : f ∈ u.program.functions) (hframe : f.frameSize.toNat < 2 ^ 63)
    (hparameters : f.parameters.length + 1 < 2 ^ 63) : f.Separates u.program.globals := by
  obtain ⟨locals, hlaid⟩ := (parse_readFrom h).laidOut hf
  exact hlaid.separates hframe hparameters

/-- Two parameters, an array, and a local that hides one of the parameters. -/
def shadowingText : String :=
  "int g; int f(int a, int b) { int x[3]; { int a; a = b; g = a + x[1]; } return a; }"

theorem parse_separates_shadowingText : ∃ tokens u, scan shadowingText = .ok tokens ∧
    parse tokens = .ok u ∧ ∃ f ∈ u.program.functions, f.frameSize.toNat = 4 ∧
      f.parameters.length = 2 ∧ f.Separates u.program.globals := by
  have hreads : reads shadowingText (fun u => u.program.functions.any fun f =>
      f.frameSize.toNat = 4 && f.parameters.length = 2) = true := by decide +kernel
  obtain ⟨tokens, u, hscan, hparse, hfunctions⟩ := exists_of_reads hreads
  obtain ⟨f, hf, hsizes⟩ := List.any_eq_true.1 hfunctions
  simp only [Bool.and_eq_true, decide_eq_true_eq] at hsizes
  obtain ⟨hframe, hparameters⟩ := hsizes
  exact ⟨tokens, u, hscan, hparse, f, hf, hframe, hparameters,
    parse_separates hparse hf (by omega) (by omega)⟩

end SourceUnit

end WordC
