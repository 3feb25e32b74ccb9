import Mathlib
import WordC.Statement
/-!
# Executing statements

What control comes by on its way through statements, when each expression is one
step and the conditions come to given outcomes. `Stmt.execute` says it by the
structure of the statements alone: there are no labels and no jumps in it.
-/

namespace WordC

/-- How control comes out of statements. -/
inductive Exit where
  /-- It goes on behind them. -/
  | through
  /-- It goes on behind the innermost loop. -/
  | left
  /-- It leaves the function. -/
  | returned
  /-- It stands at a condition whose outcome is not known. -/
  | waiting
  deriving DecidableEq, Repr

/-- **A passage of control** through statements, with the outcomes of the
conditions on the way. -/
structure Passage (outcomes : List Bool) where
  /-- The expressions that are evaluated, in order. -/
  visits : List Code
  exit : Exit
  /-- The outcomes that no condition has taken. -/
  rest : List Bool
  length_rest_le : rest.length ≤ outcomes.length

namespace Passage

variable {outcomes : List Bool}

/-- A passage by no condition. -/
def straight (visits : List Code) (exit : Exit) (outcomes : List Bool) : Passage outcomes :=
  ⟨visits, exit, outcomes, le_rfl⟩

/-- The passage, after expressions on the way to it. -/
def behind {given : List Bool} (p : Passage outcomes) (visits : List Code)
    (h : outcomes.length ≤ given.length) : Passage given :=
  ⟨visits ++ p.visits, p.exit, p.rest, p.length_rest_le.trans h⟩

/-- The passage, and the next one where control comes through. -/
def andThen (p : Passage outcomes) (next : ∀ outcomes, Passage outcomes) : Passage outcomes :=
  if p.exit = .through then (next p.rest).behind p.visits p.length_rest_le else p

/-- The condition takes an outcome, which decides on the passage behind it. -/
def choose (condition : Code) (next : Bool → ∀ outcomes, Passage outcomes) :
    ∀ outcomes, Passage outcomes
  | [] => ⟨[condition], .waiting, [], le_rfl⟩
  | b :: outcomes => (next b outcomes).behind [condition] (Nat.le_succ _)

/-- **The rounds of a loop.** The step belongs to a round that control comes
through, and not to one that leaves the loop. -/
def rounds (condition : Code) (round : ∀ outcomes, Passage outcomes) (step : List Code) :
    ∀ outcomes, Passage outcomes
  | [] => ⟨[condition], .waiting, [], le_rfl⟩
  | false :: outcomes => ⟨[condition], .through, outcomes, Nat.le_succ _⟩
  | true :: outcomes =>
    have hle : (round outcomes).rest.length ≤ (true :: outcomes).length :=
      (round outcomes).length_rest_le.trans (Nat.le_succ _)
    match (round outcomes).exit with
    | .through =>
      (rounds condition round step (round outcomes).rest).behind
        (condition :: ((round outcomes).visits ++ step)) hle
    | .left => ⟨condition :: (round outcomes).visits, .through, (round outcomes).rest, hle⟩
    | exit => ⟨condition :: (round outcomes).visits, exit, (round outcomes).rest, hle⟩
  termination_by outcomes => outcomes.length
  decreasing_by exact Nat.lt_succ_of_le (round outcomes).length_rest_le

end Passage

open Passage

mutual

/-- **The structured execution of a statement.** -/
def Stmt.execute : Stmt → ∀ outcomes, Passage outcomes
  | .eval c => straight [c] .through
  | .ret value => straight value.toList .returned
  | .leave => straight [] .left
  | .block body => blockExecute body
  | .branch condition body other =>
    choose condition fun b => if b then blockExecute body else other.execute
  | .loop condition body => rounds condition (blockExecute body) []
  | .count first condition step body => fun outcomes =>
    (rounds condition (blockExecute body) step.toList outcomes).behind first.toList le_rfl

/-- The structured execution of what follows a branch that is not taken. -/
def Alternative.execute : Alternative → ∀ outcomes, Passage outcomes
  | .none => straight [] .through
  | .elseIf condition body other =>
    choose condition fun b => if b then blockExecute body else other.execute
  | .otherwise body => blockExecute body

/-- The structured execution of statements in a row. -/
def blockExecute : List Stmt → ∀ outcomes, Passage outcomes
  | [] => straight [] .through
  | s :: rest => fun outcomes => (s.execute outcomes).andThen (blockExecute rest)

end

end WordC
