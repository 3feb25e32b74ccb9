import Mathlib
import WordC.Proofs.Expression.WellFormed
/-!
# The names in an expression

Each identifier of an expression is a variable, if one of its name is in scope,
and otherwise the name of a call, with an opening bracket behind it
(`Derives.calls`). The linear form mentions each of them once, in another order
(`Derives.perm_mentions`).
-/

namespace WordC

/-- The identifiers among tokens, in order. -/
def identifiers (ts : List Token) : List String :=
  ts.filterMap fun
    | .ident name => some name
    | _ => none

/-- The variables and the calls of a linear form, by their names. -/
def Code.mentions (code : Code) : List (String × Option Variable) :=
  code.filterMap fun
    | .operand (.var v) => some (v.name, some v)
    | .operand (.result c) => some (c.name, none)
    | _ => none

theorem mem_identifiers {ts : List Token} {name : String} :
    name ∈ identifiers ts ↔ .ident name ∈ ts := by
  unfold identifiers
  rw [List.mem_filterMap]
  constructor
  · rintro ⟨t, ht, hname⟩
    cases t with
    | ident text =>
      cases hname
      exact ht
    | _ => cases hname
  · intro h
    exact ⟨_, h, rfl⟩

@[simp] theorem identifiers_append (ts us : List Token) :
    identifiers (ts ++ us) = identifiers ts ++ identifiers us :=
  List.filterMap_append

@[simp] theorem Code.mentions_append (code code' : Code) :
    (code ++ code' : Code).mentions = code.mentions ++ code'.mentions :=
  List.filterMap_append

@[simp] theorem Code.mentions_nil : Code.mentions [] = [] := rfl

@[simp] theorem Code.mentions_operator (op : Operator) (rest : Code) :
    Code.mentions (.operator op :: rest) = rest.mentions := rfl

@[simp] theorem Code.mentions_parameter (slot : UInt64) (rest : Code) :
    Code.mentions (.operand (.parameter slot) :: rest) = rest.mentions := rfl

mutual

/-- The variables and the calls of a tree, by their names and in the order of the text. -/
def Expr.mentions : Expr → List (String × Option Variable)
  | .var v => [(v.name, some v)]
  | .constant _ => []
  | .unary _ a => a.mentions
  | .binary _ a b => a.mentions ++ b.mentions
  | .call name args => (name, none) :: argumentsMentions args
  | .assign target value => target.mentions ++ value.mentions

def argumentsMentions : List Expr → List (String × Option Variable)
  | [] => []
  | a :: rest => a.mentions ++ argumentsMentions rest

end

/-! ## From tokens to trees -/

/-- Left of `=` the same is mentioned. -/
theorem Expr.mentions_of_place {a target : Expr} (h : a.place? = some target) :
    target.mentions = a.mentions := by
  cases a with
  | var v =>
    simp only [place?] at h
    split at h
    · cases h
    · cases h
      rfl
  | constant | call | assign => cases h
  | unary op a | binary op a b =>
    obtain ⟨form, -, rfl⟩ := Option.map_eq_some_iff.1 h
    rfl

theorem Scopes.name_of_find? {Γ : Scopes} {name : String} {v : Variable}
    (h : Γ.find? name = some v) : v.name = name := by
  obtain ⟨scope, -, hfound⟩ := List.exists_of_findSome?_eq_some h
  simpa using List.find?_some hfound

/-- An operator is no identifier. -/
theorem identifiers_cons_of_operator {t : Token} {op : Operator} (h : Operator.ofToken? t = some op)
    (ts : List Token) : identifiers (t :: ts) = identifiers ts := by
  cases t with
  | ident => cases h
  | _ => rfl

mutual

/-- **A tree mentions the identifiers of its tokens**, each with the variable that is in
scope. -/
theorem Derives.mentions_eq {Γ : Scopes} {p : Nat} {ts : List Token} {e : Expr} :
    Derives Γ p ts e → e.mentions = (identifiers ts).map fun name => (name, Γ.find? name)
  | .var h => by
    simp [Expr.mentions, identifiers, h, Scopes.name_of_find? h]
  | .integer | .truth | .char => rfl
  | .group h => by
    simpa [identifiers] using h.mentions_eq
  | .callEmpty h => by
    simp [Expr.mentions, argumentsMentions, identifiers, h]
  | .call hname h => by
    simpa [Expr.mentions, identifiers, hname] using h.mentions_eq
  | .index ha hb => by
    simp [Expr.mentions, ha.mentions_eq, hb.mentions_eq, identifiers]
  | .unary ht _ h => by
    rw [identifiers_cons_of_operator ht]
    exact h.mentions_eq
  | .binary ht _ ha hb => by
    rw [identifiers_append, identifiers_cons_of_operator ht, List.map_append, Expr.mentions,
      ha.mentions_eq, hb.mentions_eq]
  | .assign ha hplace hb => by
    -- the target mentions what the left side does, in the same order
    have hassign : Operator.ofToken? (.symbol .assign) = some .assign := rfl
    rw [identifiers_append, identifiers_cons_of_operator hassign, List.map_append, Expr.mentions,
      Expr.mentions_of_place hplace, ha.mentions_eq, hb.mentions_eq]
  | .loosen h => h.mentions_eq

theorem DerivesArguments.mentions_eq {Γ : Scopes} {ts : List Token} {args : List Expr} :
    DerivesArguments Γ ts args →
      argumentsMentions args = (identifiers ts).map fun name => (name, Γ.find? name)
  | .one h => by
    simpa [argumentsMentions] using h.mentions_eq
  | .more h hs => by
    simp [argumentsMentions, h.mentions_eq, hs.mentions_eq, identifiers]

end

/-! ## From trees to linear forms -/

namespace Expr

/-- What stands for the value of a tree is its variable, if the tree is one. -/
def leafMentions (e : Expr) : List (String × Option Variable) :=
  Code.mentions [.operand (e.operand 0)]

@[simp] theorem mentions_operand (k : Nat) (e : Expr) (rest : Code) :
    Code.mentions (.operand (e.operand k) :: rest) = e.leafMentions ++ rest.mentions := by
  cases e <;> rfl

theorem leafMentions_eq_nil {e : Expr} (h : e.isLeaf = false) : e.leafMentions = [] := by
  cases e with
  | var | constant => cases h
  | _ => rfl

/-- The code of two values, the second behind the first, with an operator. -/
theorem perm_mentions_pair {a b : Expr} {k n : Nat} {op : Operator}
    (ha : ((a.linearAt k).mentions ++ a.leafMentions).Perm a.mentions)
    (hb : ((b.linearAt n).mentions ++ b.leafMentions).Perm b.mentions) :
    (Code.mentions (a.linearAt k ++ b.linearAt n ++
      [.operand (a.operand k), .operand (b.operand n), .operator op])).Perm
        (a.mentions ++ b.mentions) := by
  have heq : Code.mentions (a.linearAt k ++ b.linearAt n ++
      [.operand (a.operand k), .operand (b.operand n), .operator op]) =
      (a.linearAt k).mentions ++
        ((b.linearAt n).mentions ++ (a.leafMentions ++ b.leafMentions)) := by
    simp
  rw [heq]
  refine List.Perm.trans ?_ (ha.append hb)
  rw [List.append_assoc]
  exact (List.perm_append_comm_assoc _ _ _).append_left _

end Expr

mutual

/-- **A linear form mentions what its tree mentions**, in another order: a variable is
named where it is used, behind the code of the values beside it. -/
theorem Expr.perm_mentions (k : Nat) (e : Expr) :
    ((e.linearAt k).mentions ++ e.leafMentions).Perm e.mentions :=
  match e with
  | .var _ => List.Perm.refl _
  | .constant _ => List.Perm.refl _
  | .unary op a => by
    rw [Expr.leafMentions_eq_nil rfl, List.append_nil, Expr.linearAt]
    simpa [Expr.mentions] using a.perm_mentions k
  | .binary op a b => by
    rw [Expr.leafMentions_eq_nil rfl, List.append_nil]
    exact Expr.perm_mentions_pair (a.perm_mentions k) (b.perm_mentions _)
  | .call name args => by
    rw [Expr.leafMentions_eq_nil rfl, List.append_nil, Expr.linearAt, Code.mentions_append]
    exact (List.perm_append_singleton _ _).trans ((perm_argumentsMentions k 0 args).cons _)
  | .assign target value => by
    rw [Expr.leafMentions_eq_nil rfl, List.append_nil]
    exact Expr.perm_mentions_pair (target.perm_mentions k) (value.perm_mentions _)

theorem perm_argumentsMentions (k slot : Nat) (args : List Expr) :
    (argumentsLinear k slot args).mentions.Perm (argumentsMentions args) :=
  match args with
  | [] => List.Perm.refl _
  | a :: rest => by
    have heq : (argumentsLinear k slot (a :: rest)).mentions =
        (a.linearAt k).mentions ++ a.leafMentions ++
          (argumentsLinear k (slot + 1) rest).mentions := by
      simp [argumentsLinear]
    rw [heq]
    exact (a.perm_mentions k).append (perm_argumentsMentions k (slot + 1) rest)

end

/-- **The linear form of an expression mentions the identifiers of its tokens**, each with
the variable that is in scope. -/
theorem Derives.perm_mentions {Γ : Scopes} {p : Nat} {ts : List Token} {e : Expr}
    (h : Derives Γ p ts e) :
    e.linear.mentions.Perm ((identifiers ts).map fun name => (name, Γ.find? name)) := by
  rw [← h.mentions_eq]
  refine List.Perm.trans (List.Perm.of_eq ?_) (e.perm_mentions 0)
  rw [Expr.linear, Code.mentions_append]
  cases hleaf : e.isLeaf with
  | true => rfl
  | false => simp [Expr.leafMentions_eq_nil hleaf]

/-! ## Names without a variable -/

/-- Each identifier among the tokens that no variable has stands before an opening
bracket. -/
def Scopes.Calls (Γ : Scopes) (ts : List Token) : Prop :=
  ∀ name after, .ident name :: after <:+ ts → Γ.find? name = none →
    after.head? = some (.symbol .parenOpen)

namespace Scopes.Calls

variable {Γ : Scopes} {ts us : List Token}

theorem append (h : Γ.Calls ts) (h' : Γ.Calls us) : Γ.Calls (ts ++ us) := by
  rintro name after ⟨before, heq⟩ hname
  rcases List.append_eq_append_iff.1 heq with ⟨middle, rfl, hmiddle⟩ | ⟨middle, rfl, hmiddle⟩
  · cases middle with
    | nil => exact h' name after ⟨[], hmiddle⟩ hname
    | cons t middle =>
      rw [List.cons_append] at hmiddle
      obtain ⟨rfl, rfl⟩ := List.cons.inj hmiddle
      rw [List.head?_append, h name middle ⟨before, rfl⟩ hname]
      rfl
  · exact h' name after ⟨middle, hmiddle.symm⟩ hname

/-- A token that is no identifier. -/
theorem cons {t : Token} (ht : identifiers [t] = []) (h : Γ.Calls ts) : Γ.Calls (t :: ts) := by
  intro name after hsuffix hname
  rcases List.suffix_cons_iff.1 hsuffix with heq | hsuffix
  · cases heq
    cases ht
  · exact h name after hsuffix hname

theorem nil : Γ.Calls [] :=
  fun _ _ hsuffix => absurd (List.suffix_nil.1 hsuffix) nofun

/-- The name of a call. -/
theorem name {name : String} (h : Γ.Calls ts) :
    Γ.Calls (.ident name :: .symbol .parenOpen :: ts) := by
  intro name' after hsuffix hname
  rcases List.suffix_cons_iff.1 hsuffix with heq | hsuffix
  · cases heq
    rfl
  · exact (h.cons rfl) name' after hsuffix hname

end Scopes.Calls

theorem identifiers_of_operator {t : Token} {op : Operator} (h : Operator.ofToken? t = some op) :
    identifiers [t] = [] :=
  identifiers_cons_of_operator h []

mutual

/-- **A name that no variable has is the name of a call.** -/
theorem Derives.calls {Γ : Scopes} {p : Nat} {ts : List Token} {e : Expr} :
    Derives Γ p ts e → Γ.Calls ts
  | .var h => by
    intro name after hsuffix hname
    rcases List.suffix_cons_iff.1 hsuffix with heq | hsuffix
    · cases heq
      rw [h] at hname
      cases hname
    · exact absurd (List.suffix_nil.1 hsuffix) nofun
  | .integer | .truth | .char => .cons rfl .nil
  | .group h => .cons rfl (h.calls.append (.cons rfl .nil))
  | .callEmpty _ => .name (.cons rfl .nil)
  | .call _ h => .name (h.calls.append (.cons rfl .nil))
  | .index ha hb => by
    rw [List.append_assoc]
    exact ha.calls.append (.cons rfl (hb.calls.append (.cons rfl .nil)))
  | .unary ht _ h => h.calls.cons (identifiers_of_operator ht)
  | .binary ht _ ha hb => ha.calls.append (hb.calls.cons (identifiers_of_operator ht))
  | .assign ha _ hb => ha.calls.append (hb.calls.cons rfl)
  | .loosen h => h.calls

theorem DerivesArguments.calls {Γ : Scopes} {ts : List Token} {args : List Expr} :
    DerivesArguments Γ ts args → Γ.Calls ts
  | .one h => h.calls
  | .more h hs => h.calls.append (hs.calls.cons rfl)

end

end WordC
