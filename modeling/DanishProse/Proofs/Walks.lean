/-
  The reading of a document as a walk along its tokens.

  A reader has its end built in: it recurses on the tokens that are left, and its
  type says that it leaves no more than it was given.  A walk has only a position
  in the whole list, comments included, and loops that run for as long as they
  see something to do.  No definition here gives a reason to stop: each is the
  least fixed point of its equation, and a walk that goes on for ever has no
  outcome (`none`).

  * `Cursor` is where a walk stands, with its reports so far, the positions that
    it has left and a log of what it has done;
  * `advance` takes a token, `consume` and `consumeText` take it and report one
    that was not wanted, `takeText` takes a keyword only if it is there;
  * the forms of the grammar follow, each as one walk, up to `document`.

  Pronouns are resolved where a block ends, in the sentences of that block: the
  blocks inside have resolved theirs by then.
-/
import DanishProse.Proofs.Unrolled

namespace DanishProse

/-- All tokens of a text, comments included. -/
abbrev Tokens :=
  List Token

namespace Tokens

/-- The token at a position; past the last one stands the end of input. -/
def tokenAt (tokens : Tokens) (position : Nat) : Token :=
  tokens.getD position ⟨.endOfInput, "", lastLocation tokens⟩

/-- What there is to read from a position on.  Comments are not read. -/
def leftFrom (tokens : Tokens) (position : Nat) : List Token :=
  (tokens.drop position).filter (·.kind ≠ .comment)

end Tokens

/-! ## Cursors -/

/-- What a walk keeps a log of. -/
inductive Stretch where
  /-- One turn of the loop over definitions. -/
  | turn
  /-- One sentence. -/
  | sentence
  /-- From where a clause list begins to where a list in brackets inside begins. -/
  | nesting
deriving DecidableEq

/-- A piece of a walk: from one position to another. -/
structure Event where
  stretch : Stretch
  start : Nat
  finish : Nat
deriving DecidableEq

/-- There is less to read where the piece finishes than where it starts. -/
def Event.Progresses (tokens : Tokens) (e : Event) : Prop :=
  (tokens.leftFrom e.finish).length < (tokens.leftFrom e.start).length

/-- Where a walk stands. -/
structure Cursor where
  position : Nat
  reports : List Report
  /-- The positions that were left, in order. -/
  passed : List Nat
  log : List Event

namespace Cursor

/-- The beginning, when there were reports before. -/
def start (reports : List Report) : Cursor :=
  ⟨0, reports, [], []⟩

/-- All positions up to the one where the cursor stands. -/
def path (c : Cursor) : List Nat :=
  c.passed ++ [c.position]

/-- The cursor one position further. -/
def moved (c : Cursor) : Cursor :=
  { c with position := c.position + 1, passed := c.passed ++ [c.position] }

/-- The cursor with a piece in its log that finishes here. -/
def logged (c : Cursor) (stretch : Stretch) (start : Nat) : Cursor :=
  { c with log := c.log ++ [⟨stretch, start, c.position⟩] }

/-- What is left to read. -/
def left (tokens : Tokens) (c : Cursor) : List Token :=
  tokens.leftFrom c.position

end Cursor

/-- A walk: its outcome from each cursor, if it comes to an end. -/
abbrev Walk :=
  StateT Cursor Option

namespace Walk

/-! ## Single tokens -/

/-- Where the cursor stands. -/
def position : Walk Nat := do
  return (← get).position

/-- Nothing has been reported. -/
def clean : Walk Bool := do
  return (← get).reports.isEmpty

/-- One position further. -/
def move : Walk Unit :=
  modify Cursor.moved

/-- Makes a report unless all is well. -/
def expect (well : Bool) (r : Report) : Walk Unit :=
  modify fun c => { c with reports := c.reports ++ if well then [] else [r] }

/-- Logs a piece of the walk that ends here. -/
def record (stretch : Stretch) (start : Nat) : Walk Unit :=
  modify fun c => c.logged stretch start

end Walk

namespace Tokens

/-- The next token. -/
def peek (tokens : Tokens) : Walk Token := do
  return tokens.tokenAt (← get).position

/-- Goes past comments. -/
def skipComments (tokens : Tokens) : Walk Unit := do
  let t ← tokens.peek
  if t.kind = .comment then
    Walk.move
    tokens |>.skipComments
  else
    return ()
partial_fixpoint

/-- Takes the next token and the comments after it. -/
def advance (tokens : Tokens) : Walk Token := do
  let t ← tokens.peek
  let p ← Walk.position
  let _ ← if p < tokens.length then Walk.move else pure ()
  tokens.skipComments
  return t

/-- Takes a token that should be of a kind. -/
def consume (tokens : Tokens) (kind : TokenKind) : Walk Token := do
  let t ← tokens.advance
  Walk.expect (t.kind = kind) ⟨.unexpectedToken kind.name t.kind.name, t.location⟩
  return t

/-- Takes a token that should read as a keyword. -/
def consumeText (tokens : Tokens) (keyword : String) : Walk Token := do
  let t ← tokens.advance
  let given := if t.kind = .word then t.text else t.kind.name
  Walk.expect (t.reads keyword) ⟨.unexpectedToken keyword given, t.location⟩
  return t

/-- Takes a keyword if it is there, and says whether it was. -/
def takeText (tokens : Tokens) (keyword : String) : Walk Bool := do
  let t ← tokens.peek
  if t.reads keyword then
    let _ ← tokens.advance
    return true
  else
    return false

/-! ## Clauses -/

mutual

/-- The parts of a clause, for as long as there are any.  The list around them
    begins at `entry`. -/
def clauseParts (tokens : Tokens) (entry : Nat) : Walk (List Part) := do
  let t ← tokens.peek
  match t.kind with
  | .word =>
    let t ← tokens.advance
    let more ← tokens |>.clauseParts entry
    return .word t.text :: more
  | .literal v =>
    let _ ← tokens.advance
    let more ← tokens |>.clauseParts entry
    return .literal v :: more
  | .parenOpen =>
    let _ ← tokens.advance
    Walk.record .nesting entry
    let inner ← tokens |>.clauseList
    let _ ← tokens.consume .parenClose
    let more ← tokens |>.clauseParts entry
    return .list inner :: more
  | _ => return []
partial_fixpoint

/-- One clause. -/
def clause (tokens : Tokens) (entry : Nat) : Walk Clause := do
  let t ← tokens.peek
  let parts ← tokens |>.clauseParts entry
  Walk.expect (!parts.isEmpty) ⟨.expectedClause, t.location⟩
  return .mk t.location parts
partial_fixpoint

/-- The clauses after the first one, for as long as there is a comma. -/
def otherClauses (tokens : Tokens) (entry : Nat) : Walk (List Clause) := do
  let t ← tokens.peek
  if t.kind = .comma then
    let _ ← tokens.advance
    let _ ← tokens.takeText "og"
    let next ← tokens |>.clause entry
    let more ← tokens |>.otherClauses entry
    return next :: more
  else
    return []
partial_fixpoint

/-- A clause list. -/
def clauseList (tokens : Tokens) : Walk (List Clause) := do
  let entry ← Walk.position
  let first ← tokens |>.clause entry
  let others ← tokens |>.otherClauses entry
  return first :: others
partial_fixpoint

end

/-! ## Sentences -/

end Tokens

/-- A sentence with the pronouns in its own clauses resolved, not those in the
    sentences inside. -/
def Sentence.resolved : Sentence → Sentence
  | .declare name typeName l => .declare name typeName l
  | .express cs => .express (resolveClauses cs)
  | .giveBack cs => .giveBack (resolveClauses cs)
  | .when cs body => .when (resolveClauses cs) body
  | .whenElse cs body otherwise => .whenElse (resolveClauses cs) body otherwise
  | .loop cs body => .loop (resolveClauses cs) body

namespace Tokens

/-- A declaration after its first word. -/
def declaration (tokens : Tokens) : Walk Sentence := do
  let name ← tokens.consume .word
  let _ ← tokens.consumeText "være"
  let _ ← tokens.takeText "en"
  let _ ← tokens.takeText "et"
  let typeName ← tokens.consume .word
  let _ ← tokens.consume .dot
  return .declare name.text typeName.text name.location

mutual

/-- One sentence. -/
def sentence (tokens : Tokens) : Walk Sentence := do
  let t ← tokens.peek
  if t.reads "lad" then
    let _ ← tokens.advance
    tokens.declaration
  else if t.reads "hvis" then
    let _ ← tokens.advance
    let condition ← tokens.clauseList
    let _ ← tokens.consume .dot
    let body ← tokens |>.block
    let other ← tokens |>.otherwise
    return .whenOr condition body other
  else if t.reads "imens" ∨ t.reads "imedens" then
    let _ ← tokens.advance
    let condition ← tokens.clauseList
    let _ ← tokens.consume .dot
    let body ← tokens |>.block
    return .loop condition body
  else if t.reads "tilbagegiv" then
    let _ ← tokens.advance
    let cs ← tokens.clauseList
    let _ ← tokens.consume .dot
    return .giveBack cs
  else
    let cs ← tokens.clauseList
    let _ ← tokens.consume .dot
    return .express cs
partial_fixpoint

/-- The block after `ellers`, if there is one. -/
def otherwise (tokens : Tokens) : Walk (Option (List Sentence)) := do
  let found ← tokens.takeText "ellers"
  if found then
    let _ ← tokens.consume .dot
    let other ← tokens |>.block
    return some other
  else
    return none
partial_fixpoint

/-- Sentences up to `farvel` or the end of input. -/
def sentences (tokens : Tokens) : Walk (List Sentence) := do
  let t ← tokens.peek
  if t.kind = .endOfInput ∨ t.reads "farvel" then
    return []
  else
    let entry ← Walk.position
    let s ← tokens |>.sentence
    Walk.record .sentence entry
    let more ← tokens |>.sentences
    return s :: more
partial_fixpoint

/-- A block. -/
def block (tokens : Tokens) : Walk (List Sentence) := do
  let _ ← tokens.consumeText "goddag"
  let _ ← tokens.consume .dot
  let body ← tokens |>.sentences
  let _ ← tokens.consumeText "farvel"
  let _ ← tokens.consume .dot
  return body.map Sentence.resolved
partial_fixpoint

end

/-! ## Definitions -/

/-- A parameter after its opening bracket. -/
def parameter (tokens : Tokens) : Walk PatternPart := do
  let name ← tokens.consume .word
  let _ ← tokens.consumeText "som"
  let typeName ← tokens.consume .word
  let _ ← tokens.consume .parenClose
  return .parameter name.text typeName.text

/-- A pattern up to `tilbagegiver`, or up to a token that cannot belong to it. -/
def patternParts (tokens : Tokens) : Walk (List PatternPart) := do
  let t ← tokens.peek
  if t.kind = .endOfInput ∨ t.reads "tilbagegiver" then
    return []
  else if t.kind = .word then
    let t ← tokens.advance
    let more ← tokens |>.patternParts
    return .word t.text :: more
  else if t.kind = .parenOpen then
    let _ ← tokens.advance
    let p ← tokens.parameter
    let more ← tokens |>.patternParts
    return p :: more
  else
    return []
partial_fixpoint

/-- A definition after its first two words. -/
def definition (tokens : Tokens) : Walk Definition := do
  let t ← tokens.peek
  let parts ← tokens.patternParts
  let _ ← tokens.consumeText "tilbagegiver"
  let returnName ← tokens.consume .word
  let _ ← tokens.consume .dot
  let body ← tokens.block
  return ⟨⟨parts⟩, returnName.text, body, t.location⟩

/-- One turn: `offentlig`, and a definition if `funktion` follows. -/
def turn (tokens : Tokens) : Walk (List Definition) := do
  let _ ← tokens.consumeText "offentlig"
  let found ← tokens.takeText "funktion"
  if found then
    let d ← tokens.definition
    return [d]
  else
    return []

/-- Turns up to the end of input or the first report. -/
def definitions (tokens : Tokens) : Walk (List Definition) := do
  let t ← tokens.peek
  let clean ← Walk.clean
  if t.kind ≠ .endOfInput ∧ clean then
    let entry ← Walk.position
    let ds ← tokens.turn
    Walk.record .turn entry
    let more ← tokens |>.definitions
    return ds ++ more
  else
    return []
partial_fixpoint

/-- A document from its first token on. -/
def document (tokens : Tokens) : Walk Document := do
  tokens.skipComments
  let ds ← tokens.definitions
  return ⟨ds⟩

end Tokens

end DanishProse
