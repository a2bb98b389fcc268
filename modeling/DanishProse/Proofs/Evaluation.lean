/-
  What a tree means, without a machine.

  * `Expression.eval`, `Action.exec` and `Function.invoke` follow the tree.  An
    environment holds the locals of one call and all that has been printed;
    arguments are evaluated from left to right, a sequence gives its last value,
    an assignment gives what it stores, and a call has locals of its own;
  * operations on integers work on signed numbers and wrap to 64 bits
    (`OpCode.value?`), which is what the machine does (`Cell.signedDiv_eq_quotient`
    and its like);
  * loops and calls are followed to a depth.  What is not done within it is
    `Outcome.unfinished`; going deeper changes nothing else
    (`Function.invoke_mono`), so a tree has one result at most
    (`Tree.Evaluates.unique`).
-/
import Mathlib.Algebra.Group.Int.Defs
import Mathlib.Tactic.Common
import DanishProse.Bytecode.Generation
import DanishProse.Machine.Run
import DanishProse.Proofs.Typing

namespace DanishProse

/-! ## Outcomes -/

/-- What comes of an evaluation. -/
inductive Outcome (α : Type) where
  | done (a : α)
  /-- A division had no result; this has been printed until then. -/
  | failed (e : Cell.DivisionError) (printed : List String)
  /-- The depth did not suffice. -/
  | unfinished
  /-- The tree makes no sense here. -/
  | stuck

namespace Outcome

/-- Goes on from a value. -/
def andThen {α β : Type} (r : Outcome α) (f : α → Outcome β) : Outcome β :=
  match r with
  | done a => f a
  | failed e printed => failed e printed
  | unfinished => unfinished
  | stuck => stuck

instance : Monad Outcome where
  pure := done
  bind := andThen

end Outcome

/-! ## Operations -/

namespace Cell

/-- The signed number that a cell stands for. -/
def signed (c : Cell) : Int :=
  c.toInt64.toInt

/-- The cell of a signed number; what does not fit in 64 bits is cut off. -/
def wrap (i : Int) : Cell :=
  (Int64.ofInt i).toUInt64

/-- The quotient of signed numbers, rounded toward zero, if it is a number of 64 bits. -/
def quotient (a b : Cell) : Except DivisionError Cell :=
  if b.signed = 0 then .error .byZero
  else if a.signed.tdiv b.signed < 2 ^ 63 then .ok (wrap (a.signed.tdiv b.signed))
  else .error .overflow

end Cell

/-- What an operation gives for its operands, the first one first. -/
def OpCode.value? : OpCode → List Cell → Option (Except Cell.DivisionError Cell)
  | .add, [a, b] => some (.ok (Cell.wrap (Cell.signed a + Cell.signed b)))
  | .sub, [a, b] => some (.ok (Cell.wrap (Cell.signed a - Cell.signed b)))
  | .imul, [a, b] => some (.ok (Cell.wrap (Cell.signed a * Cell.signed b)))
  | .idiv, [a, b] => some (Cell.quotient a b)
  | .umul, [a, b] => some (.ok (.ofNat (a.toNat * b.toNat)))
  | .udiv, [a, b] => some (if b.toNat = 0 then .error .byZero else .ok (.ofNat (a.toNat / b.toNat)))
  | .fadd, [a, b] => some (.ok (Cell.floatOp (· + ·) a b))
  | .fsub, [a, b] => some (.ok (Cell.floatOp (· - ·) a b))
  | .fmul, [a, b] => some (.ok (Cell.floatOp (· * ·) a b))
  | .fdiv, [a, b] => some (.ok (Cell.floatOp (· / ·) a b))
  | .and, [a, b] => some (.ok (Cell.ofBool (Cell.isTrue a && Cell.isTrue b)))
  | .or, [a, b] => some (.ok (Cell.ofBool (Cell.isTrue a || Cell.isTrue b)))
  | .not, [a] => some (.ok (Cell.ofBool (!Cell.isTrue a)))
  | .eq, [a, b] => some (.ok (Cell.ofBool (Cell.signed a = Cell.signed b)))
  | .lt, [a, b] => some (.ok (Cell.ofBool (Cell.signed a < Cell.signed b)))
  | .gt, [a, b] => some (.ok (Cell.ofBool (Cell.signed b < Cell.signed a)))
  | .feq, [a, b] => some (.ok (Cell.ofBool (Cell.floatEqual a b)))
  | .flt, [a, b] => some (.ok (Cell.ofBool (Cell.floatLess a b)))
  | .fgt, [a, b] => some (.ok (Cell.ofBool (Cell.floatLess b a)))
  | .i2f, [a] => some (.ok (Cell.floatOfSigned a))
  | .f2i, [a] => some (.ok (Cell.signedOfFloat a))
  | _, _ => none

namespace Cell
variable (a b : Cell)

theorem wrap_signed : wrap a.signed = a := by
  simp [wrap, signed]

theorem wrap_add : wrap (a.signed + b.signed) = a + b := by
  simp [wrap, signed, ← UInt64.toInt64_add]

theorem wrap_sub : wrap (a.signed - b.signed) = a - b := by
  simp [wrap, signed, ← UInt64.toInt64_sub]

theorem wrap_mul : wrap (a.signed * b.signed) = signedMul a b := by
  simp [wrap, signed, signedMul]

theorem signed_inj : a.signed = b.signed ↔ a = b := by
  constructor
  · intro h
    rw [← wrap_signed a, h, wrap_signed]
  · rintro rfl
    rfl

theorem signedLess_eq : signedLess a b = decide (a.signed < b.signed) :=
  decide_eq_decide.2 Int64.lt_iff_toInt_lt

theorem beq_eq : (a == b) = decide (a.signed = b.signed) :=
  (decide_eq_decide.2 (signed_inj a b)).symm

theorem ofNat_mul : UInt64.ofNat (a.toNat * b.toNat) = a * b := by
  simp

theorem unsignedDiv_eq : unsignedDiv a b =
    if b.toNat = 0 then .error .byZero else .ok (.ofNat (a.toNat / b.toNat)) := by
  have hzero : b.toNat = 0 ↔ b = 0 := UInt64.toNat_inj (b := 0)
  simp only [unsignedDiv, hzero, ← UInt64.toNat_div, UInt64.ofNat_toNat]

/-- The machine has no quotient just where the quotient does not fit. -/
theorem signedDiv_eq_quotient : signedDiv a b = quotient a b := by
  have hzero : b.signed = 0 ↔ b = 0 := signed_inj b 0
  unfold signedDiv quotient
  by_cases hb : b = 0
  · rw [if_pos hb, if_pos (hzero.2 hb)]
  rw [if_neg hb, if_neg (fun h => hb (hzero.1 h))]
  by_cases hover : a.toInt64 = Int64.minValue ∧ b.toInt64 = -1
  · rw [if_pos hover, if_neg]
    simp only [signed, hover]
    decide
  · have hdiv : a.signed.tdiv b.signed = (a.toInt64 / b.toInt64).toInt := by
      rcases not_and_or.1 hover with h | h
      · exact (Int64.toInt_div_of_ne_left _ _ h).symm
      · exact (Int64.toInt_div_of_ne_right _ _ h).symm
    rw [if_neg hover, hdiv, if_pos (Int64.toInt_lt _), wrap, Int64.ofInt_toInt]

end Cell

/-! ## Environments -/

/-- The locals of a call, and what has been printed, the last piece first. -/
structure Env (k : Nat) where
  locals : Vector Cell k
  printed : List String

namespace Env
variable {k : Nat}

/-- The locals at the start of a call: its arguments, and zeros. -/
def entry (k : Nat) (arguments : List Cell) (printed : List String) : Env k :=
  ⟨Vector.ofFn fun i => arguments.getD i 0, printed⟩

/-- The value of a local. -/
def read (env : Env k) (slot : Nat) : Cell :=
  env.locals[slot]?.getD 0

/-- Gives a local a value. -/
def write (env : Env k) (slot : Nat) (v : Cell) : Env k :=
  { env with locals := env.locals.setIfInBounds slot v }

end Env

/-! ## Expressions -/

/-- What calls of functions with bodies come to: a function, its arguments, what
    has been printed before, and then a value with what has been printed. -/
abbrev Calls := Function → List Cell → List String → Outcome (Cell × List String)

/-- Does the work of a function. -/
def Function.apply (call : Calls) (f : Function) (arguments : List Cell) (printed : List String) :
    Outcome (Cell × List String) :=
  match f.role with
  | .intrinsic op =>
    match op.value? arguments with
    | some (.ok v) => .done (v, printed)
    | some (.error e) => .failed e printed
    | none => .stuck
  | .native g =>
    match arguments with
    | [v] => .done (0, "\n" :: g.print v :: printed)
    | _ => .stuck
  | .user _ _ _ => call f arguments printed
  | .assignment => .stuck

section
variable (fs : List Function) (call : Calls) {k : Nat}

mutual

/-- The value of an expression, and the environment after it. -/
def Expression.eval : Expression → Env k → Outcome (Cell × Env k)
  | .literal v, env => .done (v.cell, env)
  | .read slot _, env => .done (env.read slot, env)
  | .assign slot e, env => do
    let (v, env) ← e.eval env
    return (v, env.write slot v)
  | .call index arguments _, env => do
    let (values, env) ← argumentsEval arguments env
    match fs[index]? with
    | some f =>
      let (v, printed) ← f.apply call values env.printed
      return (v, { env with printed })
    | none => .stuck
  | .sequence items _, env => sequenceEval items env
  | .unresolved _, _ => .stuck

/-- The values of expressions, one after the other. -/
def argumentsEval : List Expression → Env k → Outcome (List Cell × Env k)
  | [], env => .done ([], env)
  | e :: es, env => do
    let (v, env) ← e.eval env
    let (vs, env) ← argumentsEval es env
    return (v :: vs, env)

/-- The last value of a sequence. -/
def sequenceEval : List Expression → Env k → Outcome (Cell × Env k)
  | [], _ => .stuck
  | [e], env => e.eval env
  | e :: d :: es, env => do
    let (_, env) ← e.eval env
    sequenceEval (d :: es) env

end

end

/-! ## Actions -/

/-- Where an action leads. -/
inductive Flow (k : Nat) where
  | next (env : Env k)
  /-- The function is left at once. -/
  | leave (v : Cell) (printed : List String)

/-- Goes round while a condition holds, at most `n` times. -/
def loopFor {k : Nat} (condition : Env k → Outcome (Cell × Env k)) (body : Env k → Outcome (Flow k)) :
    Nat → Env k → Outcome (Flow k)
  | 0, _ => .unfinished
  | n + 1, env => do
    let (v, env) ← condition env
    if v.isTrue then
      match ← body env with
      | .next env => loopFor condition body n env
      | .leave v printed => return .leave v printed
    else return .next env

section
variable (fs : List Function) (call : Calls) (n : Nat) {k : Nat}

mutual

/-- Where an action leads from an environment. -/
def Action.exec : Action → Env k → Outcome (Flow k)
  | .evaluate e, env => do
    let (_, env) ← e.eval fs call env
    return .next env
  | .giveBack e, env => do
    let (v, env) ← e.eval fs call env
    return .leave v env.printed
  | .when c body, env => do
    let (v, env) ← c.eval fs call env
    if v.isTrue then actionsExec body env else return .next env
  | .whenElse c body otherwise, env => do
    let (v, env) ← c.eval fs call env
    if v.isTrue then actionsExec body env else actionsExec otherwise env
  | .loop c body, env => loopFor (c.eval fs call) (fun env => actionsExec body env) n env

/-- Where actions lead, one after the other. -/
def actionsExec : List Action → Env k → Outcome (Flow k)
  | [], env => .done (.next env)
  | a :: as, env => do
    match ← a.exec env with
    | .next env => actionsExec as env
    | .leave v printed => return .leave v printed

end

end

/-! ## Functions -/

/-- What a function gives back at the end of its body: what it left with, or zero. -/
def Flow.value {k : Nat} : Flow k → Cell × List String
  | .next env => (0, env.printed)
  | .leave v printed => (v, printed)

/-- Calls a function with a body; calls and loops in it are followed to a depth. -/
def Function.invoke (fs : List Function) : Nat → Calls
  | 0, _, _, _ => .unfinished
  | n + 1, f, arguments, printed =>
    match f.role with
    | .user _ locals body => do
      let flow ← actionsExec fs (Function.invoke fs n) n body (.entry locals.length arguments printed)
      return flow.value
    | _ => .stuck

/-- The result of a run, when the first function has been called. -/
def Outcome.result? : Outcome (Cell × List String) → Option RunResult
  | .done (_, printed) => some ⟨String.join printed.reverse, none⟩
  | .failed e printed => some ⟨String.join printed.reverse, some e.fault⟩
  | _ => none

/-- Calls the first function with a body, without arguments. -/
def Tree.call (t : Tree) (n : Nat) : Outcome (Cell × List String) :=
  match t.userFunctions with
  | f :: _ => f.invoke t.functions n [] []
  | [] => .stuck

/-- The first function comes to an end with a result. -/
def Tree.Evaluates (t : Tree) (r : RunResult) : Prop :=
  ∃ n, (t.call n).result? = some r

/-! ## Going deeper -/

/-- An outcome is another one, unless it is unfinished. -/
def Outcome.Approximates {α : Type} (r s : Outcome α) : Prop :=
  r = .unfinished ∨ r = s

namespace Outcome.Approximates

theorem refl {α : Type} (r : Outcome α) : r.Approximates r := .inr rfl

theorem bind {α β : Type} {r s : Outcome α} {f g : α → Outcome β} (h : r.Approximates s)
    (hfg : ∀ a, (f a).Approximates (g a)) : (r >>= f).Approximates (s >>= g) := by
  rcases h with rfl | rfl
  · exact .inl rfl
  · cases r with
    | done a => exact hfg a
    | failed e printed => exact .inr rfl
    | unfinished => exact .inl rfl
    | stuck => exact .inr rfl

theorem ite {α : Type} {c : Prop} [Decidable c] {r s r' s' : Outcome α} (h : r.Approximates s)
    (h' : r'.Approximates s') : (if c then r else r').Approximates (if c then s else s') := by
  split_ifs
  · exact h
  · exact h'

theorem result? {r s : Outcome (Cell × List String)} (h : r.Approximates s) {out : RunResult}
    (hr : r.result? = some out) : s.result? = some out := by
  rcases h with rfl | rfl
  · cases hr
  · exact hr

end Outcome.Approximates

/-- Calls come to the same, as far as they are followed. -/
def Calls.Approximate (call deeper : Calls) : Prop :=
  ∀ f arguments printed, (call f arguments printed).Approximates (deeper f arguments printed)

section
variable {fs : List Function} {call deeper : Calls} {k : Nat}

theorem Function.apply_mono (h : call.Approximate deeper) (f : Function) (arguments : List Cell)
    (printed : List String) :
    (f.apply call arguments printed).Approximates (f.apply deeper arguments printed) := by
  unfold Function.apply
  split
  · exact .refl _
  · exact .refl _
  · exact h f arguments printed
  · exact .refl _

mutual

theorem Expression.eval_mono (h : call.Approximate deeper) : ∀ (e : Expression) (env : Env k),
    (e.eval fs call env).Approximates (e.eval fs deeper env)
  | .literal _, _ => .refl _
  | .read _ _, _ => .refl _
  | .assign _ e, env => (Expression.eval_mono h e env).bind fun _ => .refl _
  | .call index arguments _, env => by
    refine (argumentsEval_mono h arguments env).bind ?_
    rintro ⟨values, env⟩
    cases fs[index]? with
    | none => exact .refl _
    | some f => exact (Function.apply_mono h f values env.printed).bind fun _ => .refl _
  | .sequence items _, env => sequenceEval_mono h items env
  | .unresolved _, _ => .refl _

theorem argumentsEval_mono (h : call.Approximate deeper) : ∀ (es : List Expression) (env : Env k),
    (argumentsEval fs call es env).Approximates (argumentsEval fs deeper es env)
  | [], _ => .refl _
  | e :: es, env =>
    (Expression.eval_mono h e env).bind fun a => (argumentsEval_mono h es a.2).bind fun _ => .refl _

theorem sequenceEval_mono (h : call.Approximate deeper) : ∀ (es : List Expression) (env : Env k),
    (sequenceEval fs call es env).Approximates (sequenceEval fs deeper es env)
  | [], _ => .refl _
  | [e], env => Expression.eval_mono h e env
  | e :: d :: es, env =>
    (Expression.eval_mono h e env).bind fun a => sequenceEval_mono h (d :: es) a.2

end

theorem loopFor_mono {condition condition' : Env k → Outcome (Cell × Env k)}
    {body body' : Env k → Outcome (Flow k)}
    (hcondition : ∀ env, (condition env).Approximates (condition' env))
    (hbody : ∀ env, (body env).Approximates (body' env)) : ∀ {n m : Nat}, n ≤ m → ∀ env,
      (loopFor condition body n env).Approximates (loopFor condition' body' m env)
  | 0, _, _, _ => .inl rfl
  | n + 1, m + 1, hle, env => by
    refine (hcondition env).bind ?_
    rintro ⟨v, env⟩
    refine .ite ((hbody env).bind ?_) (.refl _)
    rintro (env | ⟨v, printed⟩)
    · exact loopFor_mono hcondition hbody (Nat.le_of_succ_le_succ hle) env
    · exact .refl _

mutual

theorem Action.exec_mono (h : call.Approximate deeper) {n m : Nat} (hle : n ≤ m) :
    ∀ (a : Action) (env : Env k), (a.exec fs call n env).Approximates (a.exec fs deeper m env)
  | .evaluate e, env => (e.eval_mono h env).bind fun _ => .refl _
  | .giveBack e, env => (e.eval_mono h env).bind fun _ => .refl _
  | .when c body, env => by
    refine (c.eval_mono h env).bind ?_
    rintro ⟨v, env⟩
    exact .ite (actionsExec_mono h hle body env) (.refl _)
  | .whenElse c body otherwise, env => by
    refine (c.eval_mono h env).bind ?_
    rintro ⟨v, env⟩
    exact .ite (actionsExec_mono h hle body env) (actionsExec_mono h hle otherwise env)
  | .loop c body, env =>
    loopFor_mono (c.eval_mono h) (actionsExec_mono h hle body) hle env

theorem actionsExec_mono (h : call.Approximate deeper) {n m : Nat} (hle : n ≤ m) :
    ∀ (as : List Action) (env : Env k),
      (actionsExec fs call n as env).Approximates (actionsExec fs deeper m as env)
  | [], _ => .refl _
  | a :: as, env => by
    refine (Action.exec_mono h hle a env).bind ?_
    rintro (env | ⟨v, printed⟩)
    · exact actionsExec_mono h hle as env
    · exact .refl _

end

end

/-- **Followed deeper, a call that was finished comes to the same.** -/
theorem Function.invoke_mono (fs : List Function) : ∀ {n m : Nat}, n ≤ m →
    Calls.Approximate (Function.invoke fs n) (Function.invoke fs m)
  | 0, _, _ => fun _ _ _ => .inl rfl
  | n + 1, m + 1, hle => by
    intro f arguments printed
    have hle' := Nat.le_of_succ_le_succ hle
    unfold Function.invoke
    cases f.role with
    | user symbol locals body =>
      exact (actionsExec_mono (Function.invoke_mono fs hle') hle' body _).bind fun _ => .refl _
    | intrinsic op => exact .refl _
    | assignment => exact .refl _
    | native g => exact .refl _

/-- **A tree has one result at most.** -/
theorem Tree.Evaluates.unique {t : Tree} {r s : RunResult} (hr : t.Evaluates r)
    (hs : t.Evaluates s) : r = s := by
  obtain ⟨n, hn⟩ := hr
  obtain ⟨m, hm⟩ := hs
  have hcall : ∀ {n m : Nat}, n ≤ m → (t.call n).Approximates (t.call m) := by
    intro n m hle
    unfold Tree.call
    cases t.userFunctions with
    | nil => exact .refl _
    | cons f fs => exact Function.invoke_mono t.functions hle f [] []
  rcases Nat.le_total n m with hle | hle
  · exact Option.some.inj (((hcall hle).result? hn).symm.trans hm)
  · exact Option.some.inj (hn.symm.trans ((hcall hle).result? hm))

end DanishProse
