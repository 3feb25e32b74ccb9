import WordC.Token.Scan
import WordC.SourceUnit.Check
import WordC.Linear.Balance
import WordC.Lowering.Error
import WordC.Machine.Expansion
import WordC.Artifact.Varint
/-!
# Failures of a compilation

Any failure between reading a source and writing assembly.
-/

namespace WordC

/-- Why a file cannot be used. -/
inductive FileCause where
  | missing
  | notADirectory
  | isADirectory
  /-- The content is not UTF-8. -/
  | notText
  /-- Any other cause, in the words of the system. -/
  | other (text : String)
  deriving DecidableEq, Repr

/-- The wording of a cause. -/
def FileCause.message : FileCause → String
  | missing => "No such file or directory (os error 2)"
  | notADirectory => "Not a directory (os error 20)"
  | isADirectory => "Is a directory (os error 21)"
  | notText => "stream did not contain valid UTF-8"
  | other text => text

/-- Why a compilation fails. -/
inductive Error where
  | file (path : String) (cause : FileCause)
  | scan (e : ScanError)
  | grammar (e : SyntaxError)
  | check (e : CheckError)
  | balance (e : BalanceError)
  | lowering (e : LoweringError)
  | expansion (e : ExpansionError)
  | artifact (e : ArtifactError)

namespace Error

/-- The wording of a failure. -/
def message : Error → String
  | file path cause => path ++ ": " ++ cause.message
  | scan e => e.message
  | grammar e => e.message
  | check e => e.message
  | balance e => "internal error: " ++ e.message
  | lowering e => "internal error: " ++ e.message
  | expansion e => e.message
  | artifact e => e.message

/-- The failure stops the program at once, without a message of its own. -/
def isAbort : Error → Bool
  | grammar ⟨_, .frameOverflow⟩ | grammar ⟨_, .declaration (.misplaced _)⟩ => true
  | lowering .stackUnderflow | lowering .valueHeldTwice => true
  | expansion ⟨_, .returnOverflow⟩ => true
  | _ => false

end Error

end WordC
