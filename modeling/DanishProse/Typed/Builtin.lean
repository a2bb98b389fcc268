/-
  The functions that every program has.

  Their order matters: a call goes to the first function whose pattern fits.
-/
import DanishProse.Typed.Tree

namespace DanishProse

/-- A function that is built in. -/
def Function.builtin (short : String) (result : Ty) (role : FunctionRole) : Function :=
  { pattern := .ofShort short, returnName := result.name, role := role }

/-- Arithmetic, comparison, logic and conversion. -/
def intrinsics : List Function := [
  .builtin "læg A:heltal sammen med B:heltal" .integer (.intrinsic .add),
  .builtin "læg A:flyder sammen med B:flyder" .float (.intrinsic .fadd),
  .builtin "træk A:heltal fra B:heltal" .integer (.intrinsic .sub),
  .builtin "træk A:flyder fra B:flyder" .float (.intrinsic .fsub),
  .builtin "gang A:heltal med B:heltal" .integer (.intrinsic .imul),
  .builtin "gang A:flyder med B:flyder" .float (.intrinsic .fmul),
  .builtin "del A:heltal med B:heltal" .integer (.intrinsic .idiv),
  .builtin "del A:flyder med B:flyder" .float (.intrinsic .fdiv),
  .builtin "A:heltal er mindre end B:heltal" .boolean (.intrinsic .lt),
  .builtin "A:flyder er mindre end B:flyder" .boolean (.intrinsic .flt),
  .builtin "A:heltal er større end B:heltal" .boolean (.intrinsic .gt),
  .builtin "A:flyder er større end B:flyder" .boolean (.intrinsic .fgt),
  .builtin "A:heltal er lig med B:heltal" .boolean (.intrinsic .eq),
  .builtin "A:flyder er lig med B:flyder" .boolean (.intrinsic .feq),
  .builtin "enten A:påstand eller B:påstand" .boolean (.intrinsic .or),
  .builtin "både A:påstand og B:påstand" .boolean (.intrinsic .and),
  .builtin "ikke A:påstand" .boolean (.intrinsic .not),
  .builtin "støb A:flyder som heltal" .integer (.intrinsic .f2i),
  .builtin "støb A:heltal som flyder" .float (.intrinsic .i2f)]

/-- Assignment takes a value and a target of any type; that the types agree is
    looked at when a call to it is found. -/
def assignment : Function :=
  .builtin "gem src:$any i dst:$any" .integer .assignment

/-- Output.  Nothing useful comes back, but an integer does. -/
def printers : List Function := [
  .builtin "print A:heltal" .integer (.native .printInteger),
  .builtin "print A:flyder" .integer (.native .printFloat),
  .builtin "print A:påstand" .integer (.native .printBoolean)]

/-- All functions that are built in. -/
def builtins : List Function :=
  intrinsics ++ assignment :: printers

end DanishProse
