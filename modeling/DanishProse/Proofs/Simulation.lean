/-
  The program of a tree does what the tree means.

  * `Expression.Followed`: wherever its code stands and whatever is on the stack,
    the machine follows the evaluation of an expression, and leaves its value on
    top.  A typed expression is followed if calls are (`HasType.followed`);
  * `Action.Followed` is the same for actions, which leave the stack as it was or
    come to a `ret` with a value on top (`Action.WellTyped.followed`);
  * `calls_followed`: calls are followed to any depth.  The induction is on the
    depth; a call opens a frame, and all that happens until its `ret` happens
    above the frames of the caller (`Function.body_followed`).
-/
import Mathlib.Data.List.Induction
import Mathlib.Tactic.Common
import DanishProse.Proofs.Activation

namespace DanishProse

/-! ## Calls -/

/-- Calls of functions with bodies are followed to a depth. -/
def Tree.CallsFollowed (t : Tree) (n : Nat) : Prop :=
  ∀ {j : Nat} {f : Function} {arguments : List Cell} {s : CallStack} {d ip : Nat} {cells : List Cell}
    {printed : List String}, t.userFunctions[j]? = some f →
      arguments.length = f.parameterTypes.length → d ≤ s.depth →
        Instruction.decode t.program.code ip = .ok (.withOperand .call (j + 1).toUInt64) →
          Follows t.program d n
            (fun a m => m = ⟨ip + (Instruction.withOperand .call (j + 1).toUInt64).size,
              .ofCells (a.1 :: cells), s, a.2⟩)
            ⟨ip, .ofCells (arguments.reverse ++ cells), s, printed⟩
            (f.invoke t.functions n arguments printed)

/-- An operation has a value or fails, if it has as many operands as it takes. -/
theorem OpCode.exists_value? {op : OpCode} {arguments : List Cell}
    (h : op.arity? = some arguments.length) : ∃ r, op.value? arguments = some r := by
  match arguments with
  | [] => cases op <;> simp [OpCode.arity?] at h
  | [a] => cases op <;> first | exact ⟨_, rfl⟩ | simp [OpCode.arity?] at h
  | [a, b] => cases op <;> first | exact ⟨_, rfl⟩ | simp [OpCode.arity?] at h
  | a :: b :: c :: cs => cases op <;> simp [OpCode.arity?] at h

section
variable {t : Tree} {n : Nat}

/-- The work of a function is followed, its arguments being on the stack. -/
theorem Tree.WellTyped.apply_followed (ht : t.WellTyped) (hcalls : t.CallsFollowed n)
    {f : Function} (hf : f ∈ t.functions) (hna : f.isAssignment = false) {arguments : List Cell}
    (hlen : arguments.length = f.parameterTypes.length) {A : Activation} {d ip k : Nat}
    {cells : List Cell} (env : Env k) (hd : d ≤ A.depth)
    (hcode : t.program.CodeAt ip f.role.invocation) :
    Follows t.program d n
      (fun a m => m = A.machine (ip + codeSize f.role.invocation) (a.1 :: cells)
        { env with printed := a.2 })
      (A.machine ip (arguments.reverse ++ cells) env)
      (f.apply (Function.invoke t.functions n) arguments env.printed) := by
  unfold Function.apply
  cases hrole : f.role with
  | intrinsic op =>
    rw [hrole] at hcode
    have harity := ht.arity_of_intrinsic hf hrole
    rw [← hlen] at harity
    obtain ⟨r, hr⟩ := OpCode.exists_value? harity
    simp only [hr]
    cases r with
    | ok v => exact follows_operation hd hr hcode.1 (.here rfl)
    | error e => exact follows_division hd hr hcode.1
  | assignment => simp [Function.isAssignment, hrole] at hna
  | native g =>
    rw [hrole] at hcode
    have harity : arguments.length = 1 := by
      simpa [Function.arityFits, hrole, hlen] using ht.arityFits hf
    obtain ⟨v, rfl⟩ := List.length_eq_one_iff.1 harity
    exact follows_print hd hcode.1 (.here rfl)
  | user symbol locals body =>
    obtain ⟨j, rfl, hj⟩ := ht.getElem?_of_symbol? hf (Function.symbol?_of_role hrole)
    rw [hrole] at hcode
    exact hcalls (s := A.frames env.locals) hj hlen hd hcode.1

end

/-! ## Expressions -/

/-- The machine follows an expression in calls with some locals. -/
def Expression.Followed (t : Tree) (n : Nat) (locals : List Local) (e : Expression) : Prop :=
  ∀ {A : Activation} {d ip : Nat} {cells : List Cell} (env : Env locals.length), d ≤ A.depth →
    t.program.CodeAt ip (e.code t.functions) →
      Follows t.program d n
        (fun a m => m = A.machine (ip + codeSize (e.code t.functions)) (a.1 :: cells) a.2)
        (A.machine ip cells env) (e.eval t.functions (Function.invoke t.functions n) env)

section
variable {t : Tree} {n : Nat} {locals : List Local}

/-- The values of followed expressions pile up. -/
theorem argumentsFollowed : ∀ {es : List Expression}, (∀ e ∈ es, e.Followed t n locals) →
    ∀ {A : Activation} {d ip : Nat} {cells : List Cell} (env : Env locals.length), d ≤ A.depth →
      t.program.CodeAt ip (argumentsCode t.functions es) →
        Follows t.program d n
          (fun a m => a.1.length = es.length ∧
            m = A.machine (ip + codeSize (argumentsCode t.functions es)) (a.1.reverse ++ cells) a.2)
          (A.machine ip cells env)
          (argumentsEval t.functions (Function.invoke t.functions n) es env)
  | [], _, A, d, ip, cells, env, hd, hcode => .here ⟨rfl, rfl⟩
  | e :: es, h, A, d, ip, cells, env, hd, hcode => by
    obtain ⟨he, hes⟩ := List.forall_mem_cons.1 h
    obtain ⟨hcode, hrest⟩ := (codeAt_append _ _ _).1 hcode
    refine (he env hd hcode).bind ?_
    rintro ⟨v, env⟩ _ rfl
    refine (argumentsFollowed hes env hd hrest).bind ?_
    rintro ⟨vs, env⟩ _ ⟨hlen, rfl⟩
    refine .here ⟨congrArg (· + 1) hlen, ?_⟩
    simp [argumentsCode, Nat.add_assoc]

/-- Of followed expressions in a sequence only the last value is left. -/
theorem sequenceFollowed : ∀ {es : List Expression}, (∀ e ∈ es, e.Followed t n locals) →
    (∀ e ∈ es, e.type.IsValue) → es ≠ [] →
      ∀ {A : Activation} {d ip : Nat} {cells : List Cell} (env : Env locals.length), d ≤ A.depth →
        t.program.CodeAt ip (sequenceCode t.functions es) →
          Follows t.program d n
            (fun a m => m = A.machine (ip + codeSize (sequenceCode t.functions es)) (a.1 :: cells) a.2)
            (A.machine ip cells env)
            (sequenceEval t.functions (Function.invoke t.functions n) es env)
  | [e], h, _, _, A, d, ip, cells, env, hd, hcode => h e (by simp) env hd hcode
  | e :: e' :: es, h, hv, _, A, d, ip, cells, env, hd, hcode => by
    obtain ⟨he, hes⟩ := List.forall_mem_cons.1 h
    obtain ⟨hve, hves⟩ := List.forall_mem_cons.1 hv
    obtain ⟨hcode, hrest⟩ := (codeAt_append _ _ _).1 hcode
    obtain ⟨hcode, hpop⟩ := (codeAt_append _ _ _).1 hcode
    rw [dropping, if_pos hve.size_pos] at hpop
    refine (he env hd hcode).bind ?_
    rintro ⟨v, env⟩ _ rfl
    rw [codeSize_append, ← Nat.add_assoc, dropping, if_pos hve.size_pos] at hrest
    refine follows_pop hd hpop.1 ((sequenceFollowed hes hves (List.cons_ne_nil _ _) env hd hrest).imp ?_)
    rintro a _ rfl
    rw [sequenceCode, codeSize_append, codeSize_append, dropping, if_pos hve.size_pos]
    simp [Nat.add_assoc]

/-- What it takes to follow a body with some locals. -/
structure Tree.Ready (t : Tree) (n : Nat) (locals : List Local) : Prop where
  wellTyped : t.WellTyped
  calls : t.CallsFollowed n
  isValue : ∀ l ∈ locals, l.type.IsValue
  small : locals.length < 2 ^ 29
  code : t.program.code.size < 2 ^ 64

mutual

/-- **The machine follows a typed expression.** -/
theorem HasType.followed (h : t.Ready n locals) : ∀ {e : Expression} {ty : Ty},
    HasType t.functions locals e ty → e.Followed t n locals
  | _, _, .literal v => by
    intro env hd hcode
    exact follows_ldi hd hcode.1 (.here rfl)
  | _, _, .read hslot => by
    intro env hd hcode
    exact follows_ldl hd (List.getElem?_eq_some_iff.1 hslot).1 h.small hcode.1 (.here rfl)
  | _, _, .assign hslot he => by
    intro env hd hcode
    obtain ⟨hcode, hrest⟩ := (codeAt_append _ _ _).1 hcode
    obtain ⟨hdup, hstl, -⟩ := hrest
    refine (HasType.followed h he env hd hcode).bind ?_
    rintro ⟨v, env⟩ _ rfl
    refine follows_dup hd hdup
      (follows_stl hd (List.getElem?_eq_some_iff.1 hslot).1 h.small hstl (.here ?_))
    simp [Expression.code, Nat.add_assoc]
  | _, _, .call hf hna hs => by
    intro env hd hcode
    rw [Expression.code, hf] at hcode
    obtain ⟨hcode, hrest⟩ := (codeAt_append _ _ _).1 hcode
    refine (argumentsFollowed (HasTypes.followed h hs) env hd hcode).bind ?_
    rintro ⟨vs, env⟩ _ ⟨hlen, rfl⟩
    simp only [hf]
    refine (h.wellTyped.apply_followed h.calls (List.mem_of_getElem? hf) hna
      (hlen.trans hs.length_eq) env hd hrest).bind ?_
    rintro ⟨v, printed⟩ _ rfl
    refine .here ?_
    simp [Expression.code, hf, Nat.add_assoc]
  | _, _, .sequence hlen hs _ => by
    intro env hd hcode
    have hvalues := hs.isValue (fun f hf => h.wellTyped.returnType_isValue hf) h.isValue
    rw [← hs.map_type] at hvalues
    refine sequenceFollowed (HasTypes.followed h hs) (by simpa using hvalues) ?_ env hd hcode
    rintro rfl
    simp at hlen

theorem HasTypes.followed (h : t.Ready n locals) : ∀ {es : List Expression} {tys : List Ty},
    HasTypes t.functions locals es tys → ∀ e ∈ es, e.Followed t n locals
  | _, _, .nil => by simp
  | _, _, .cons he hs => List.forall_mem_cons.2 ⟨HasType.followed h he, HasTypes.followed h hs⟩

end

end

/-! ## Actions -/

/-- The call is about to return with a value. -/
def Activation.Returns (A : Activation) (p : Program) (k : Nat) (cells : List Cell)
    (a : Cell × List String) (m : Machine) : Prop :=
  ∃ (ip : Nat) (locals : Vector Cell k), Instruction.decode p.code ip = .ok (.plain .ret) ∧
    m = A.machine ip (a.1 :: cells) ⟨locals, a.2⟩

/-- The machine is where an action leads: behind its code, or about to return. -/
def Flow.Leads {k : Nat} (A : Activation) (p : Program) (ip : Nat) (cells : List Cell)
    (flow : Flow k) (m : Machine) : Prop :=
  match flow with
  | .next env => m = A.machine ip cells env
  | .leave v printed => A.Returns p k cells (v, printed) m

/-- The machine follows an action in calls with some locals. -/
def Action.Followed (t : Tree) (n : Nat) (locals : List Local) (a : Action) : Prop :=
  ∀ {A : Activation} {d start : Nat} {cells : List Cell} (env : Env locals.length), d ≤ A.depth →
    t.program.CodeAt start (a.code t.functions start) →
      start + codeSize (a.code t.functions start) ≤ t.program.code.size →
        Follows t.program d n
          (Flow.Leads A t.program (start + codeSize (a.code t.functions start)) cells)
          (A.machine start cells env) (a.exec t.functions (Function.invoke t.functions n) n env)

/-- The machine follows actions, one after the other. -/
def ActionsFollowed (t : Tree) (n : Nat) (locals : List Local) (as : List Action) : Prop :=
  ∀ {A : Activation} {d start : Nat} {cells : List Cell} (env : Env locals.length), d ≤ A.depth →
    t.program.CodeAt start (actionsCode t.functions start as) →
      start + codeSize (actionsCode t.functions start as) ≤ t.program.code.size →
        Follows t.program d n
          (Flow.Leads A t.program (start + codeSize (actionsCode t.functions start as)) cells)
          (A.machine start cells env)
          (actionsExec t.functions (Function.invoke t.functions n) n as env)

theorem Cell.isTrue_ofBool (b : Bool) : Cell.isTrue (Cell.ofBool b) = b := by
  cases b <;> rfl

/-- Behind the branch of a condition comes what hangs on it. -/
theorem codeAt_guarded (fs : List Function) (start : Nat) (c : Expression) {p : Program} {target : Nat}
    {rest : List Instruction} :
    p.CodeAt start (conditionCode fs c ++ [wideBranch target] ++ rest) ↔
      p.CodeAt start (conditionCode fs c ++ [wideBranch target]) ∧
        p.CodeAt (bodyStart fs start c) rest := by
  rw [codeAt_append, codeEnd_head]

section
variable {t : Tree} {n l : Nat} {locals : List Local} {c : Expression}

/-- A condition goes on with what hangs on it, or with the target of its branch. -/
theorem conditionFollowed (hc : c.Followed t n locals) (hl : l ≤ n) {A : Activation}
    {d ip target : Nat} {cells : List Cell} (env : Env locals.length) (hd : d ≤ A.depth)
    (htarget : target < 2 ^ 64)
    (hcode : t.program.CodeAt ip (conditionCode t.functions c ++ [wideBranch target]))
    {α : Type} {R : α → Machine → Prop} {f : Cell × Env locals.length → Outcome α}
    (hf : ∀ v env, Follows t.program d l R
      (A.machine (if v.isTrue then bodyStart t.functions ip c else target) cells env) (f (v, env))) :
    Follows t.program d l R (A.machine ip cells env)
      (c.eval t.functions (Function.invoke t.functions n) env >>= f) := by
  rw [conditionCode, List.append_assoc] at hcode
  obtain ⟨hcode, hnot, hbr, -⟩ := (codeAt_append _ _ _).1 hcode
  refine ((hc env hd hcode).less hl).bind ?_
  rintro ⟨v, env⟩ _ rfl
  refine follows_not hd hnot ((follows_br hd rfl hbr ?_).less (Nat.le_succ l))
  have htaken : (wideBranch target).operand.toNat = target := Instruction.toNat_toUInt64 htarget
  have hbody : bodyStart t.functions ip c =
      ip + codeSize (c.code t.functions) + (Instruction.plain .not).size + (wideBranch target).size := by
    rw [bodyStart, conditionCode, codeSize_append, ← Nat.add_assoc]
    rfl
  have hgo := hf v env
  rw [hbody] at hgo
  rw [Cell.isTrue_ofBool, htaken]
  cases hv : v.isTrue with
  | false => rwa [hv] at hgo
  | true => rwa [hv] at hgo

/-- **Going round is followed**, with an instruction at least for each time. -/
theorem loopFollowed {body : List Action} (hc : c.Followed t n locals)
    (hbody : ActionsFollowed t n locals body) {A : Activation} {d start : Nat} (cells : List Cell)
    (hd : d ≤ A.depth) (hsize : t.program.code.size < 2 ^ 64)
    (hcode : t.program.CodeAt start (Action.code t.functions start (.loop c body)))
    (hend : start + codeSize (Action.code t.functions start (.loop c body)) ≤ t.program.code.size) :
    ∀ {l : Nat}, l ≤ n → ∀ env : Env locals.length, Follows t.program d l
      (Flow.Leads A t.program (start + codeSize (Action.code t.functions start (.loop c body))) cells)
      (A.machine start cells env)
      (loopFor (c.eval t.functions (Function.invoke t.functions n))
        (fun env => actionsExec t.functions (Function.invoke t.functions n) n body env) l env)
  | 0, _, env => .unfinished (Nat.le_refl 0) (.refl _)
  | l + 1, hle, env => by
    have hround := loopFollowed hc hbody cells hd hsize hcode hend (Nat.le_of_succ_le hle)
    have hjump : (Instruction.withOperand .br start.toUInt64).operand.toNat = start :=
      Instruction.toNat_toUInt64 (by omega)
    rw [codeEnd_loop] at hround hend ⊢
    obtain ⟨hhead, hinner⟩ := (codeAt_guarded _ _ _).1 (code_loop _ _ _ _ ▸ hcode)
    obtain ⟨hinner, hldi, hbr, -⟩ := (codeAt_append _ _ _).1 hinner
    refine conditionFollowed hc hle env hd (Nat.lt_of_le_of_lt hend hsize) hhead ?_
    intro v env
    cases hv : v.isTrue with
    | false =>
      simp only [hv, Bool.false_eq_true, if_false]
      exact .here rfl
    | true =>
      simp only [hv, if_true]
      rw [codeSize_append] at hend
      refine ((hbody env hd hinner (by omega)).less hle).bind ?_
      rintro (env | ⟨v, printed⟩) m hm
      · subst hm
        refine follows_ldi hd hldi (follows_br hd rfl hbr ?_)
        rw [hjump]
        exact hround env
      · exact .here hm

theorem whenFollowed {body : List Action} (hsize : t.program.code.size < 2 ^ 64)
    (hc : c.Followed t n locals) (hbody : ActionsFollowed t n locals body) :
    (Action.when c body).Followed t n locals := by
  intro A d start cells env hd hcode hend
  rw [codeEnd_when] at hend ⊢
  rw [code_when, codeAt_guarded] at hcode
  obtain ⟨hhead, hinner⟩ := hcode
  refine conditionFollowed hc (Nat.le_refl n) env hd (Nat.lt_of_le_of_lt hend hsize) hhead ?_
  intro v env
  cases hv : v.isTrue with
  | false =>
    simp only [hv, Bool.false_eq_true, if_false]
    exact .here rfl
  | true =>
    simp only [hv, if_true]
    exact hbody env hd hinner hend

theorem whenElseFollowed {body otherwise : List Action} (hsize : t.program.code.size < 2 ^ 64)
    (hc : c.Followed t n locals) (hbody : ActionsFollowed t n locals body)
    (hother : ActionsFollowed t n locals otherwise) :
    (Action.whenElse c body otherwise).Followed t n locals := by
  intro A d start cells env hd hcode hend
  rw [codeEnd_whenElse] at hend ⊢
  rw [code_whenElse, List.append_assoc, List.append_assoc, codeAt_guarded] at hcode
  obtain ⟨hhead, hcode⟩ := hcode
  obtain ⟨hinner, hcode⟩ := (codeAt_append _ _ _).1 hcode
  obtain ⟨⟨hldi, hbr, -⟩, hrest⟩ := (codeAt_append _ _ _).1 hcode
  have helse : bodyStart t.functions start c +
      codeSize (actionsCode t.functions (bodyStart t.functions start c) body) ≤
        elseStart t.functions start c body := Nat.le_add_right _ _
  refine conditionFollowed hc (Nat.le_refl n) env hd ?_ hhead ?_
  · omega
  intro v env
  cases hv : v.isTrue with
  | false =>
    simp only [hv, Bool.false_eq_true, if_false]
    exact hother env hd hrest hend
  | true =>
    simp only [hv, if_true]
    refine (hbody env hd hinner (by omega)).extend ?_
    rintro (env | ⟨v, printed⟩) m hm
    · subst hm
      refine follows_ldi hd hldi ((follows_br hd rfl hbr ?_).less (Nat.le_succ n))
      exact .here (congrArg (A.machine · cells env) (Instruction.toNat_toUInt64 (by omega)))
    · exact .here hm

mutual

/-- **The machine follows a well-typed action.** -/
theorem Action.WellTyped.followed (h : t.Ready n locals) : ∀ {a : Action},
    a.WellTyped t.functions locals → a.Followed t n locals
  | .evaluate e, ⟨ty, he⟩ => by
    intro env hd hcode hend
    have hvalue := he.isValue (fun f hf => h.wellTyped.returnType_isValue hf) h.isValue
    obtain ⟨hcode, hpop⟩ := (codeAt_append _ _ _).1 hcode
    rw [dropping, he.type_eq, if_pos hvalue.size_pos] at hpop
    refine (he.followed h env hd hcode).bind ?_
    rintro ⟨v, env⟩ _ rfl
    refine follows_pop hd hpop.1 (.here ?_)
    simp [Flow.Leads, Action.code, dropping, he.type_eq, hvalue.size_pos, Nat.add_assoc]
  | .giveBack e, ⟨ty, he⟩ => by
    intro env hd hcode hend
    obtain ⟨hcode, hret, -⟩ := (codeAt_append _ _ _).1 hcode
    refine (he.followed h env hd hcode).bind ?_
    rintro ⟨v, env⟩ _ rfl
    exact .here ⟨_, env.locals, hret, rfl⟩
  | .when c body, ⟨⟨ty, hc⟩, hbody⟩ =>
    whenFollowed h.code (hc.followed h) (ActionsWellTyped.followed h hbody)
  | .whenElse c body otherwise, ⟨⟨ty, hc⟩, hbody, hother⟩ =>
    whenElseFollowed h.code (hc.followed h) (ActionsWellTyped.followed h hbody)
      (ActionsWellTyped.followed h hother)
  | .loop c body, ⟨⟨ty, hc⟩, hbody⟩ => by
    intro env hd hcode hend
    exact loopFollowed (hc.followed h) (ActionsWellTyped.followed h hbody) _ hd h.code hcode hend
      (Nat.le_refl n) env

theorem ActionsWellTyped.followed (h : t.Ready n locals) : ∀ {as : List Action},
    ActionsWellTyped t.functions locals as → ActionsFollowed t n locals as
  | [], _ => by
    intro env hd hcode hend
    exact .here rfl
  | a :: as, ⟨ha, has⟩ => by
    intro env hd hcode hend
    simp only [actionsCode, codeSize_append, ← Nat.add_assoc] at hcode hend ⊢
    obtain ⟨hcode, hrest⟩ := (codeAt_append _ _ _).1 hcode
    refine (Action.WellTyped.followed h ha env hd hcode (by omega)).bind ?_
    rintro (env | ⟨v, printed⟩) m hm
    · subst hm
      exact ActionsWellTyped.followed h has env hd hrest hend
    · exact .here hm

end

end

/-! ## Functions -/

/-- The environment with arguments in the first locals. -/
def Env.stored {k : Nat} (env : Env k) (arguments : List Cell) : Env k :=
  { env with locals := Vector.ofFn fun i => arguments.getD i env.locals[i] }

theorem Env.stored_nil {k : Nat} (env : Env k) : env.stored [] = env := by
  simp [Env.stored]

theorem Env.stored_append {k : Nat} (env : Env k) (arguments : List Cell) (v : Cell) :
    (env.write arguments.length v).stored arguments = env.stored (arguments ++ [v]) := by
  simp only [Env.stored, Env.write, Env.mk.injEq, and_true]
  apply Vector.ext
  intro i hi
  rcases Nat.lt_trichotomy i arguments.length with hlt | rfl | hgt
  · simp [List.getD_eq_getElem?_getD, List.getElem?_append_left hlt, hlt]
  · simp [List.getD_eq_getElem?_getD]
  · have hne : arguments.length ≠ i := by omega
    have hge : (arguments ++ [v])[i]? = none := by
      rw [List.getElem?_eq_none_iff, List.length_append, List.length_singleton]
      omega
    simp [List.getD_eq_getElem?_getD, hge, List.getElem?_eq_none (Nat.le_of_lt hgt), hne]

theorem Env.stored_zeros (k : Nat) (arguments : List Cell) (printed : List String) :
    (Env.mk (Vector.replicate k 0) printed).stored arguments = .entry k arguments printed := by
  simp [Env.stored, Env.entry]

/-- Arguments on the stack go to the first locals, the last one first. -/
theorem follows_prologue {p : Program} {d n k : Nat} {α : Type} {Q : α → Machine → Prop}
    {r : Outcome α} {A : Activation} {cells : List Cell} (hd : d ≤ A.depth) (hk : k < 2 ^ 29)
    (arguments : List Cell) : ∀ {ps : List Local} {ip : Nat} (env : Env k), arguments.length ≤ k →
      ps.map Local.slot = List.range arguments.length →
        p.CodeAt ip (ps.reverse.map fun l => .withOperand .stl l.slot.toUInt64) →
          Follows p d n Q (A.machine (ip +
            codeSize (ps.reverse.map fun l => Instruction.withOperand .stl l.slot.toUInt64)) cells
              (env.stored arguments)) r →
            Follows p d n Q (A.machine ip (arguments.reverse ++ cells) env) r := by
  induction arguments using List.reverseRecOn with
  | nil =>
    intro ps ip env _ hslots _ h
    obtain rfl := List.map_eq_nil_iff.1 hslots
    rwa [Env.stored_nil] at h
  | append_singleton arguments v ih =>
    intro ps ip env hle hslots hcode h
    rw [List.length_append, List.length_singleton] at hle
    rw [List.length_append, List.length_singleton, List.range_succ] at hslots
    obtain ⟨qs, ls, rfl, hqs, hls⟩ := List.map_eq_append_iff.1 hslots
    obtain ⟨l, rfl, hl⟩ := List.map_eq_singleton_iff.1 hls
    rw [List.reverse_append, List.reverse_singleton, List.singleton_append, List.map_cons] at hcode h
    rw [List.reverse_append, List.reverse_singleton, List.singleton_append, List.cons_append]
    rw [hl] at hcode h
    rw [codeSize, ← Nat.add_assoc, ← Env.stored_append] at h
    exact follows_stl hd hle hk hcode.1 (ih _ (Nat.le_of_succ_le hle) hqs hcode.2 h)

/-- The parameters of a function are its first locals. -/
theorem Function.LaidOut.parameters {f : Function} {locals : List Local} (h : f.LaidOut locals) :
    (locals.filter Local.isParameter).map Local.slot = List.range f.parameterTypes.length ∧
      f.parameterTypes.length ≤ locals.length := by
  obtain ⟨hfront, htypes⟩ := h.filter_isParameter
  have hlen : (locals.filter Local.isParameter).length = f.parameterTypes.length := by
    simpa using congrArg List.length htypes
  refine ⟨List.ext_getElem (by simp [hlen]) ?_, hlen ▸ hfront.length_le⟩
  intro i hi _
  rw [List.length_map] at hi
  have hslot := h.placed.slot i _ (List.prefix_iff_getElem?.1 hfront i hi)
  simp [hslot]

section
variable {t : Tree} {n : Nat}

/-- What a function with a body has in the program. -/
theorem Tree.WellTyped.exists_symbol (ht : t.WellTyped) (hfit : t.Fits) {j : Nat} {f : Function}
    (hf : t.userFunctions[j]? = some f) :
    ∃ o, t.program.callee? (j + 1) = some ⟨j + 1, f.locals.length * 8, o⟩ ∧
      t.program.CodeAt o (f.code t.functions o) ∧
        o + codeSize (f.code t.functions o) ≤ t.program.code.size := by
  obtain ⟨o, ho⟩ := ht.region hf
  rw [hfit.frameSize (List.mem_of_getElem? hf)] at ho
  have hmem := List.mem_of_getElem? ho
  obtain ⟨hcode, hend⟩ := ht.codeAt_region hfit.addressable.compact hmem
  exact ⟨o, (ht.lookup_region hmem).1, hcode, hend⟩

/-- **A function is followed from its first instruction to a `ret`.** -/
theorem Tree.WellTyped.body_followed (ht : t.WellTyped) (hfit : t.Fits) (hcalls : t.CallsFollowed n)
    {j : Nat} {f : Function} (hf : t.userFunctions[j]? = some f) {arguments : List Cell}
    (hlen : arguments.length = f.parameterTypes.length) {A : Activation} {d o : Nat}
    (cells : List Cell) (printed : List String) (hd : d ≤ A.depth)
    (hcode : t.program.CodeAt o (f.code t.functions o))
    (hend : o + codeSize (f.code t.functions o) ≤ t.program.code.size) :
    Follows t.program d n (A.Returns t.program f.locals.length cells)
      (A.machine o (arguments.reverse ++ cells) ⟨Vector.replicate f.locals.length 0, printed⟩)
      (f.invoke t.functions (n + 1) arguments printed) := by
  have hmem := List.mem_of_getElem? hf
  have hsymbol := ht.symbol hf
  obtain ⟨hlaid, hbody⟩ := ht.laidOut hmem
  have hready : t.Ready n f.locals :=
    ⟨ht, hcalls, hlaid.placed.isValue, hfit.locals f hmem, hfit.code⟩
  obtain ⟨hslots, hle⟩ := hlaid.parameters
  rw [← hlen] at hslots hle
  rw [Function.code_of_isUser (t.isUser_userFunctions f hmem), epilogue_eq (ht.returnType f hmem)] at hcode hend
  obtain ⟨hcode, hldi, hret, -⟩ := (codeAt_append _ _ _).1 hcode
  obtain ⟨hprologue, hcode⟩ := (codeAt_append _ _ _).1 hcode
  simp only [codeSize_append, ← Nat.add_assoc] at hend hldi hret
  refine follows_prologue hd hready.small arguments _ hle hslots hprologue ?_
  rw [Env.stored_zeros, Function.invoke, Function.role_of_symbol? hsymbol]
  refine (hbody.followed hready _ hd hcode (by omega)).bind ?_
  rintro (env | ⟨v, printed⟩) m hm
  · subst hm
    exact follows_ldi hd hldi (.here ⟨_, env.locals, hret, rfl⟩)
  · exact .here hm

/-- **Calls are followed to every depth.** -/
theorem Tree.WellTyped.calls_followed (ht : t.WellTyped) (hfit : t.Fits) (n : Nat) :
    t.CallsFollowed n := by
  induction n with
  | zero =>
    intro j f arguments s d ip cells printed _ _ _ _
    exact .unfinished (Nat.le_refl 0) (.refl _)
  | succ n ih =>
    intro j f arguments s d ip cells printed hf hlen hd hcode
    obtain ⟨o, hcallee, hbody, hend⟩ := ht.exists_symbol hfit hf
    have hj := (List.getElem?_eq_some_iff.1 hf).1
    have hfunctions := hfit.functions
    have hid : (Instruction.withOperand .call (j + 1).toUInt64).operand.toNat = j + 1 :=
      Instruction.toNat_toUInt64 (by unfold Native.baseId at hfunctions; omega)
    rw [← hid] at hcallee
    have hcall := step_call (arguments.reverse ++ cells) s printed rfl (by omega) hcallee hcode
    by_cases hfull : s.isFull = true
    · rw [if_pos hfull] at hcall
      exact .overflows hd rfl hcall
    rw [if_neg hfull] at hcall
    have hdepth : d ≤ (Activation.above s (ip +
        (Instruction.withOperand .call (j + 1).toUInt64).size)).depth := by
      show d ≤ s.outer.length + 1 + 1
      have := s.depth_eq
      omega
    have hrun := ht.body_followed hfit ih hf hlen cells printed hdepth hbody hend
    refine .step hd hcall (hrun.extend ?_)
    rintro a _ ⟨ip', locals, hret, rfl⟩
    exact .done (.step hdepth (step_ret hret) (.refl _)) rfl

end

end DanishProse
