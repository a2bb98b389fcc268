/-
  Clauses looked up among locals and functions.

  * A word of a clause that names a local is an argument, as are values and
    bracketed lists; any other word belongs to the pattern of the call;
  * a clause that is one argument and nothing else is that argument.  Any other
    clause calls the first function whose pattern fits (`Function.accepts`);
  * a call to the assignment becomes an assignment if its target is a local;
  * an argument that could not be resolved has been reported already, so the
    clause around it is unresolved in silence.

  The work is done in `Checked`: a value, with the reports on the way to it.
-/
import DanishProse.Report.Problem
import DanishProse.Text.Lowercase
import DanishProse.Typed.Builtin

namespace DanishProse

/-! ## Values with reports -/

/-- A value and the reports on the way to it, first ones first. -/
structure Checked (α : Type) where
  value : α
  reports : List Report

namespace Checked

/-- A value on which there is nothing to report. -/
def pure {α : Type} (a : α) : Checked α :=
  ⟨a, []⟩

/-- Goes on from a value; its reports come first. -/
def andThen {α β : Type} (c : Checked α) (f : α → Checked β) : Checked β :=
  let d := f c.value
  ⟨d.value, c.reports ++ d.reports⟩

instance : Monad Checked where
  pure := pure
  bind := andThen

/-- Reports a problem. -/
def report (problem : Problem) (location : Location) : Checked Unit :=
  ⟨(), [⟨problem, location⟩]⟩

@[simp] theorem value_pure {α : Type} (a : α) : (Pure.pure a : Checked α).value = a := rfl

@[simp] theorem reports_pure {α : Type} (a : α) : (Pure.pure a : Checked α).reports = [] := rfl

@[simp] theorem value_bind {α β : Type} (c : Checked α) (f : α → Checked β) :
    (c >>= f).value = (f c.value).value := rfl

@[simp] theorem reports_bind {α β : Type} (c : Checked α) (f : α → Checked β) :
    (c >>= f).reports = c.reports ++ (f c.value).reports := rfl

end Checked

/-! ## Locals and functions -/

/-- The type with a name. -/
def Ty.named? (name : String) : Option Ty :=
  Ty.all.find? fun ty => Text.sameWord ty.name name

/-- The type that a name stands for. -/
def lookupType (name : String) (location : Location) : Checked Ty :=
  match Ty.named? name with
  | some ty => return ty
  | none => do
    Checked.report (.unresolvedType name) location
    return .none

/-- The local that a word names.  Of two with the same name it is the first. -/
def lookupLocal (locals : List Local) (word : String) : Option Local :=
  locals.find? fun l => Text.sameWord l.name word

/-- What a clause wants at one position of a pattern. -/
inductive Wanted where
  | word (text : String)
  | value (type : Ty)

/-- What is wanted, in messages: a word, or a type in angle brackets. -/
def Wanted.text : Wanted → String
  | word text => text
  | value ty => s!"<{ty.name}>"

/-- One position of a pattern fits. -/
def PatternPart.fits : PatternPart → Wanted → Bool
  | .parameter _ typeName, .value ty =>
    Text.sameWord typeName Ty.any.name || Text.sameWord typeName ty.name
  | .word name, .word text => Text.sameWord name text
  | _, _ => false

/-- Every position of a pattern fits. -/
def fitAll : List PatternPart → List Wanted → Bool
  | [], [] => true
  | p :: ps, w :: ws => p.fits w && fitAll ps ws
  | _, _ => false

/-- A function can be called by a clause that wants this. -/
def Function.accepts (f : Function) (wanted : List Wanted) : Bool :=
  fitAll f.pattern.parts wanted

/-- The first function whose pattern fits, with its index. -/
def lookupFunction (fs : List Function) (wanted : List Wanted) : Option (Function × Nat) :=
  fs.zipIdx.find? fun entry => entry.1.accepts wanted

/-! ## Clauses -/

/-- A position of a clause that has been looked up. -/
inductive Term where
  | word (text : String)
  | argument (value : Expression)

/-- What a position wants of a pattern: its word, or the type of its value. -/
def Term.wanted : Term → Wanted
  | word text => .word text
  | argument value => .value value.type

/-- The value that a position passes. -/
def Term.argument? : Term → Option Expression
  | word _ => none
  | argument value => some value

/-- The assignment of a value to a target. -/
def assign (value target : Expression) (location : Location) : Checked Expression :=
  match target with
  | .read slot ty => do
    if value.type ≠ ty ∧ value.type ≠ .none ∧ ty ≠ .none then
      Checked.report (.typeMismatch ty.name value.type.name) location
    return .assign slot value
  | _ => do
    Checked.report .invalidAssignmentTarget location
    return .unresolved [value, target]

/-- The call to the first function that fits. -/
def callFirst (fs : List Function) (wanted : List Wanted) (arguments : List Expression)
    (location : Location) : Checked Expression :=
  match lookupFunction fs wanted with
  | none => do
    Checked.report (.unresolvedFunction (Text.joined " " (wanted.map Wanted.text))) location
    return .unresolved arguments
  | some (f, index) =>
    match f.role, arguments with
    | .assignment, [value, target] => assign value target location
    | _, arguments => return .call index arguments f.returnType

/-- The value of a clause whose positions have been looked up. -/
def resolveTerms (fs : List Function) (terms : List Term) (location : Location) :
    Checked Expression :=
  let arguments := terms.filterMap Term.argument?
  match terms with
  | [] => return .unresolved []
  | [.argument value] => return value
  | _ =>
    if arguments.any fun e => e.type = .none then return .unresolved arguments
    else callFirst fs (terms.map Term.wanted) arguments location

/-- A list of one clause has its value, a longer one the value of the last. -/
def sequenceOf : List Expression → Expression
  | [e] => e
  | es => .sequence es ((es.getLast?.map Expression.type).getD .none)

mutual

/-- One position of a clause. -/
def Part.lookup (fs : List Function) (locals : List Local) : Part → Checked Term
  | .word text =>
    match lookupLocal locals text with
    | some l => return .argument (.read l.slot l.type)
    | none => return .word text
  | .literal v => return .argument (.literal v)
  | .list cs => do
    let es ← lookupEach fs locals cs
    return .argument (sequenceOf es)

/-- The positions of a clause. -/
def lookupParts (fs : List Function) (locals : List Local) : List Part → Checked (List Term)
  | [] => return []
  | p :: ps => do
    let t ← p.lookup fs locals
    let ts ← lookupParts fs locals ps
    return t :: ts

/-- The value of a clause. -/
def Clause.lookup (fs : List Function) (locals : List Local) : Clause → Checked Expression
  | .mk location ps => do
    let ts ← lookupParts fs locals ps
    resolveTerms fs ts location

/-- The values of the clauses of a list. -/
def lookupEach (fs : List Function) (locals : List Local) : List Clause → Checked (List Expression)
  | [] => return []
  | c :: cs => do
    let e ← c.lookup fs locals
    let es ← lookupEach fs locals cs
    return e :: es

end

/-- The value of a clause list. -/
def lookupClauses (fs : List Function) (locals : List Local) (cs : List Clause) :
    Checked Expression := do
  let es ← lookupEach fs locals cs
  return sequenceOf es

end DanishProse
