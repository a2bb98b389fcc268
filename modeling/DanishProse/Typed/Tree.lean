/-
  Programs whose words have been looked up.

  * `Ty` are the three types of values, with a wildcard for parameters and a
    mark for what could not be resolved;
  * an `Expression` leaves a value, and `Expression.type` is its type;
  * an `Action` is one step of a body, which is what is left of a sentence;
  * a `Function` is built in or has a body, and a `Tree` is the list of all
    functions, those built in first.  Calls refer to functions by their index.

  `Tree.text` lists the functions that have bodies, every value with its type.
-/
import DanishProse.Bytecode.OpCode
import DanishProse.Prose.Document

namespace DanishProse

/-! ## Types -/

/-- The types of values, and two marks. -/
inductive Ty where
  | integer
  | float
  | boolean
  /-- Takes values of every type. -/
  | any
  /-- The type of what could not be resolved. -/
  | none
deriving DecidableEq, Inhabited

namespace Ty

/-- All types, in the order in which names are compared with theirs. -/
def all : List Ty := [integer, float, boolean, any, none]

/-- The name of a type. -/
def name : Ty → String
  | integer => "heltal"
  | float => "flyder"
  | boolean => "påstand"
  | any => "$any"
  | none => "$none"

/-- How many bytes a value counts for.  Only the unresolved leaves no value. -/
def size : Ty → Nat
  | integer | float => 8
  | boolean | any => 1
  | none => 0

end Ty

/-- The type of a literal. -/
def Literal.type : Literal → Ty
  | integer _ => .integer
  | float _ => .float
  | boolean _ => .boolean

/-! ## Expressions and actions -/

/-- What leaves a value when it is carried out. -/
inductive Expression where
  | call (function : Nat) (arguments : List Expression) (type : Ty)
  | literal (value : Literal)
  /-- The value of a local. -/
  | read (slot : Nat) (type : Ty)
  /-- All values but the last are dropped. -/
  | sequence (items : List Expression) (type : Ty)
  | assign (slot : Nat) (value : Expression)
  /-- Stands where a clause could not be resolved. -/
  | unresolved (arguments : List Expression)

/-- An assignment counts as an integer, whatever it stores. -/
def Expression.type : Expression → Ty
  | call _ _ ty => ty
  | literal v => v.type
  | read _ ty => ty
  | sequence _ ty => ty
  | assign _ _ => .integer
  | unresolved _ => .none

/-- One step of a body. -/
inductive Action where
  | evaluate (e : Expression)
  | giveBack (e : Expression)
  | when (condition : Expression) (body : List Action)
  | whenElse (condition : Expression) (body otherwise : List Action)
  | loop (condition : Expression) (body : List Action)

/-! ## Functions -/

/-- A parameter or a declared variable, with its slot in the frame. -/
structure Local where
  name : String
  slot : Nat
  type : Ty
  isParameter : Bool
deriving DecidableEq

/-- How a function does its work. -/
inductive FunctionRole where
  | intrinsic (op : OpCode)
  | assignment
  | native (f : Native)
  | user (symbol : Nat) (locals : List Local) (body : List Action)

/-- A function.  Its types are unresolved until its signature has been looked
    up. -/
structure Function where
  pattern : Pattern
  returnName : String
  returnType : Ty := .none
  parameterTypes : List Ty := []
  role : FunctionRole
  /-- Where it is defined; functions that are built in are nowhere. -/
  location : Location := .start

/-- The function has a body. -/
def Function.isUser (f : Function) : Bool :=
  match f.role with
  | .user _ _ _ => true
  | _ => false

/-- The functions of a program, those built in first. -/
structure Tree where
  functions : List Function

/-- The functions that have a body. -/
def Tree.userFunctions (t : Tree) : List Function :=
  t.functions.filter Function.isUser

/-! ## Listing -/

/-- The form of calls to the function with an index. -/
def patternTextAt (fs : List Function) (index : Nat) : String :=
  (fs[index]?.map fun f => f.pattern.text).getD ""

mutual

/-- A value with its type; the functions are those that calls refer to. -/
def Expression.text (fs : List Function) : Expression → String
  | .literal v => s!"{v.text}:{v.type.name}"
  | .read slot ty => s!"#{slot}:{ty.name}"
  | .call f args ty => s!"({patternTextAt fs f}{spacedText fs args}):{ty.name}"
  | .sequence items ty => s!"[{commaText fs items}]:{ty.name}"
  | .assign slot e => s!"(#{slot} = {e.text fs})"
  | .unresolved _ => s!"<unresolved>:{Ty.none.name}"

/-- Values, each with a space before it. -/
def spacedText (fs : List Function) : List Expression → String
  | [] => ""
  | e :: es => " " ++ e.text fs ++ spacedText fs es

/-- Values with a comma between neighbours. -/
def commaText (fs : List Function) : List Expression → String
  | [] => ""
  | [e] => e.text fs
  | e :: d :: es => e.text fs ++ ", " ++ commaText fs (d :: es)

end

/-- The indentation at a depth. -/
def indentation (depth : Nat) : String :=
  String.ofList (List.replicate (2 * depth) ' ')

mutual

/-- An action on lines of its own. -/
def Action.text (fs : List Function) (depth : Nat) : Action → String
  | .evaluate e => indentation depth ++ e.text fs ++ "\n"
  | .giveBack e => indentation depth ++ "return " ++ e.text fs ++ "\n"
  | .when c body => indentation depth ++ "if " ++ c.text fs ++ "\n" ++ actionsText fs (depth + 1) body
  | .whenElse c body otherwise =>
    indentation depth ++ "if " ++ c.text fs ++ "\n" ++ actionsText fs (depth + 1) body ++
      indentation depth ++ "else\n" ++ actionsText fs (depth + 1) otherwise
  | .loop c body =>
    indentation depth ++ "while " ++ c.text fs ++ "\n" ++ actionsText fs (depth + 1) body

/-- Actions on lines of their own. -/
def actionsText (fs : List Function) (depth : Nat) : List Action → String
  | [] => ""
  | a :: as => a.text fs depth ++ actionsText fs depth as

end

/-- A local on a line of its own. -/
def Local.text (l : Local) : String :=
  let mark := if l.isParameter then " (parameter)" else ""
  s!"  #{l.slot} {l.name}: {l.type.name}{mark}\n"

/-- A function with its locals and its body, if it has one. -/
def Function.text (fs : List Function) (f : Function) : String :=
  match f.role with
  | .user symbol locals body =>
    s!"@{Text.hexadecimal symbol} {f.pattern.text} -> {f.returnType.name}\n" ++
      String.join (locals.map Local.text) ++ actionsText fs 1 body
  | _ => ""

/-- The functions that have a body, one after the other. -/
def Tree.text (t : Tree) : String :=
  String.join (t.functions.map (Function.text t.functions))

end DanishProse
