import WordC.Token.Lexeme
/-!
# Splitting a source text into tokens

`scan` drops the trivia before each lexeme and places every token at the
position of its first character. The list ends with an `eof` token at the end
of the text.
-/

namespace WordC

/-- A source text that cannot be split, and where. -/
abbrev ScanError := Located LexicalError

/-- Line, column and wording. -/
def ScanError.message (e : ScanError) : String :=
  e.position.text ++ ": " ++ e.cause.message

/-- The tokens of `cs`, whose first character stands at `p`. -/
def scanFrom (p : Position) (cs : List Char) : Except ScanError (List PlacedToken) :=
  match triviaLength cs with
  | .error f => .error ⟨p.after (cs.take f.offset), f.error⟩
  | .ok skipped =>
    let p := p.after (cs.take skipped)
    match _h : cs.drop skipped with
    | [] => .ok [⟨.eof, p⟩]
    | c :: rest =>
      match Lexeme.read c rest with
      | .error f => .error ⟨p.after ((c :: rest).take f.offset), f.error⟩
      | .ok lexeme =>
        match scanFrom (p.after ((c :: rest).take lexeme.length))
            ((c :: rest).drop lexeme.length) with
        | .ok tokens => .ok (⟨lexeme.token, p⟩ :: tokens)
        | .error e => .error e
termination_by cs.length
decreasing_by
  have hlen := congrArg List.length _h
  have hpos := lexeme.length_pos
  simp only [List.length_drop, List.length_cons] at hlen ⊢
  omega

/-- The tokens of a source text. -/
def scan (source : String) : Except ScanError (List PlacedToken) :=
  scanFrom .start source.toList

end WordC
