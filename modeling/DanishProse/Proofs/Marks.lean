/-
  What is known of the cells that code puts on the stack.

  * Marks stand for cells, the top one first; a mark that is set is on a truth
    value.  `codeMarks` goes through code from top to bottom and keeps track of
    the cells that its function has on the stack, if it uses them as it should;
  * a typed expression leaves one cell more, marked if its type is that of truth
    values (`HasType.leaves`).  An action leaves nothing (`Action.WellTyped.marks`),
    and a function takes its arguments and leaves (`Function.marks`);
  * a branch goes to an offset at which nothing is on the stack of its function
    (`Function.code_branchesTo`), so that marks found from top to bottom are right
    on every way through the code.
-/
import Mathlib.Data.List.Forall2
import Mathlib.Tactic.Common
import DanishProse.Proofs.Layout

namespace DanishProse

/-! ## Marks -/

/-- Values of the type are truth values. -/
def Ty.isBoolean (ty : Ty) : Bool :=
  ty = .boolean

/-- The operation leaves a truth value. -/
def OpCode.isLogical : OpCode → Bool
  | .and | .or | .not | .eq | .gt | .lt | .feq | .fgt | .flt => true
  | _ => false

/-- The marks below those that are asked for, if these are there. -/
def taken : List Bool → List Bool → Option (List Bool)
  | [], marks => some marks
  | wanted :: more, mark :: marks => if wanted ≤ mark then taken more marks else none
  | _ :: _, [] => none

theorem taken_append {wanted given : List Bool} (h : List.Forall₂ (· ≤ ·) wanted given)
    (marks : List Bool) : taken wanted (given ++ marks) = some marks := by
  induction h with
  | nil => rfl
  | cons hle _ ih => rw [List.cons_append, taken, if_pos hle, ih]

/-- What the code of a function refers to. -/
structure Scope where
  functions : List Function
  locals : List Local
  /-- The type of what the function gives back. -/
  result : Ty

/-- The local in a slot holds truth values. -/
def Scope.isTruthSlot (σ : Scope) (slot : Nat) : Bool :=
  σ.locals[slot]?.any fun l => l.type.isBoolean

/-- The marks that a call asks for, and the one of what it leaves. -/
def Scope.call? (σ : Scope) (id : Nat) : Option (List Bool × Bool) :=
  match Native.ofId? id with
  | some _ => some ([false], true)
  | none => (σ.functions.find? fun f => f.symbol? = some id).map fun f =>
    ((f.parameterTypes.map Ty.isBoolean).reverse, f.returnType.isBoolean)

/-- The marks after an instruction.  A function only branches or leaves when there is
    nothing on the stack but what it branches on or gives back. -/
def Instruction.marksAfter (σ : Scope) (i : Instruction) (marks : List Bool) : Option (List Bool) :=
  match i.opcode with
  | .ldi => some (decide (i.operand ≤ 1) :: marks)
  | .ldl => some (σ.isTruthSlot i.operand.toNat :: marks)
  | .stl => taken [σ.isTruthSlot i.operand.toNat] marks
  | .pop => taken [false] marks
  | .dup => marks.head?.map (· :: marks)
  | .br => if marks.length = 1 then some [] else none
  | .ret => if taken [σ.result.isBoolean] marks = some [] then some [] else none
  | .call =>
    (σ.call? i.operand.toNat).bind fun (wanted, left) => (taken wanted marks).map (left :: ·)
  | op => op.arity?.bind fun n => (taken (.replicate n false) marks).map (op.isLogical :: ·)

/-- The marks after some code. -/
def codeMarks (σ : Scope) : List Instruction → List Bool → Option (List Bool)
  | [], marks => some marks
  | i :: is, marks => (i.marksAfter σ marks).bind (codeMarks σ is)

section
variable {σ : Scope}

theorem codeMarks_append (is js : List Instruction) (marks : List Bool) :
    codeMarks σ (is ++ js) marks = (codeMarks σ is marks).bind (codeMarks σ js) := by
  induction is generalizing marks with
  | nil => rfl
  | cons i is ih =>
    rw [List.cons_append, codeMarks, codeMarks, Option.bind_assoc]
    exact congrArg _ (funext ih)

theorem codeMarks_singleton (i : Instruction) (marks : List Bool) :
    codeMarks σ [i] marks = i.marksAfter σ marks := by
  rw [codeMarks]
  exact Option.bind_fun_some _

/-- Code goes on from where the code in front of it ends. -/
theorem codeMarks_append_of {is js : List Instruction} {marks between : List Bool}
    (h : codeMarks σ is marks = some between) :
    codeMarks σ (is ++ js) marks = codeMarks σ js between := by
  rw [codeMarks_append, h, Option.bind_some]

theorem marksAfter_operation {i : Instruction} {n : Nat} (h : i.opcode.arity? = some n)
    (marks : List Bool) : i.marksAfter σ marks =
      (taken (.replicate n false) marks).map (i.opcode.isLogical :: ·) := by
  obtain ⟨op, v, w⟩ := i
  cases op <;> simp_all [OpCode.arity?, Instruction.marksAfter]

end

/-! ## Expressions -/

/-- Code leaves one cell more, which is a truth value if the type says so. -/
def Scope.Leaves (σ : Scope) (is : List Instruction) (ty : Ty) : Prop :=
  ∀ marks, ∃ mark, ty.isBoolean ≤ mark ∧ codeMarks σ is marks = some (mark :: marks)

/-- It takes code to leave something. -/
theorem Scope.Leaves.codeSize_pos {σ : Scope} {is : List Instruction} {ty : Ty} (h : σ.Leaves is ty) :
    0 < codeSize is := by
  obtain ⟨mark, -, hcode⟩ := h []
  cases is with
  | nil => cases hcode
  | cons i is => exact Nat.add_pos_left i.size_pos _

/-- What is built in as an operation leaves a truth value if its type says so. -/
def Function.logicFits (f : Function) : Bool :=
  match f.role with
  | .intrinsic op => f.returnType.isBoolean = op.isLogical
  | _ => true

theorem signedBuiltins_logicFits : ∀ f ∈ signedBuiltins, f.logicFits = true := by
  decide +kernel

/-- The scope of code in a tree. -/
def Tree.scope (t : Tree) (locals : List Local) (result : Ty) : Scope :=
  ⟨t.functions, locals, result⟩

section
variable {t : Tree} {locals : List Local} {result : Ty}

theorem Tree.WellTyped.isLogical_of_intrinsic (ht : t.WellTyped) {f : Function} (hf : f ∈ t.functions)
    {op : OpCode} (hrole : f.role = .intrinsic op) : f.returnType.isBoolean = op.isLogical := by
  rcases ht.mem_functions hf with hf | hf
  · simpa [Function.logicFits, hrole] using signedBuiltins_logicFits f hf
  · have huser := (List.mem_filter.1 hf).2
    simp [Function.isUser, hrole] at huser

/-- A call of a function with a body asks for its parameters. -/
theorem Tree.WellTyped.call?_of_symbol? (ht : t.WellTyped) (hfit : t.Addressable) {f : Function} {n : Nat}
    (hf : f ∈ t.functions) (hn : f.symbol? = some n) :
    (t.scope locals result).call? n =
      some ((f.parameterTypes.map Ty.isBoolean).reverse, f.returnType.isBoolean) := by
  obtain ⟨k, rfl, hk⟩ := ht.getElem?_of_symbol? hf hn
  have hlt := (List.getElem?_eq_some_iff.1 hk).1
  have hnative := Native.ofId?_eq_none (Nat.lt_of_le_of_lt hlt hfit.functions)
  have hfind : t.functions.find? (fun g => g.symbol? = some (k + 1)) = some f := by
    refine find?_eq_some_of_unique hf (decide_eq_true hn) fun g hg h => ?_
    obtain ⟨j, hj, hg⟩ := ht.getElem?_of_symbol? hg (of_decide_eq_true h)
    obtain rfl := Nat.succ.inj hj
    exact Option.some.inj (hg.symm.trans hk)
  simp only [Scope.call?, Tree.scope, hnative, hfind, Option.map_some]

/-- **A function does its work on its arguments** and leaves its result. -/
theorem Tree.WellTyped.invocation_marks (ht : t.WellTyped) (hfit : t.Addressable) {f : Function}
    (hf : f ∈ t.functions) (hna : f.isAssignment = false) {given : List Bool}
    (hgiven : List.Forall₂ (· ≤ ·) (f.parameterTypes.map Ty.isBoolean) given) (marks : List Bool) :
    ∃ mark, f.returnType.isBoolean ≤ mark ∧
      codeMarks (t.scope locals result) f.role.invocation (given.reverse ++ marks) =
        some (mark :: marks) := by
  have hlen : given.length = f.parameterTypes.length := by
    rw [← hgiven.length_eq, List.length_map]
  cases hrole : f.role with
  | intrinsic op =>
    have harity := ht.arity_of_intrinsic hf hrole
    refine ⟨op.isLogical, ht.isLogical_of_intrinsic hf hrole ▸ Bool.le_refl _, ?_⟩
    have htaken : taken (.replicate f.parameterTypes.length false) (given.reverse ++ marks) =
        some marks := by
      refine taken_append (List.forall₂_iff_get.2 ⟨by simp [hlen], ?_⟩) marks
      intro i _ _
      simp
    rw [FunctionRole.invocation, codeMarks_singleton, marksAfter_operation harity, htaken]
    rfl
  | assignment => simp [Function.isAssignment, hrole] at hna
  | native g =>
    have harity : given.length = 1 := by
      simpa [Function.arityFits, hrole, hlen] using ht.arityFits hf
    obtain ⟨m, rfl⟩ := List.length_eq_one_iff.1 harity
    have hnative : Native.ofId? g.id.toUInt64.toNat = some g := by
      rw [Instruction.toNat_toUInt64 g.id_lt]
      exact Native.ofId?_eq_some_iff.2 rfl
    refine ⟨true, Bool.le_true _, ?_⟩
    rw [FunctionRole.invocation, codeMarks_singleton]
    simp only [Instruction.marksAfter, Instruction.withOperand, Scope.call?, hnative]
    rfl
  | user n locals body =>
    have hn := Function.symbol?_of_role hrole
    obtain ⟨k, rfl, hk⟩ := ht.getElem?_of_symbol? hf hn
    have hlt := (List.getElem?_eq_some_iff.1 hk).1
    have hid : (k + 1).toUInt64.toNat = k + 1 := by
      have hsmall := hfit.functions
      rw [Native.baseId] at hsmall
      exact Instruction.toNat_toUInt64 (by omega)
    refine ⟨f.returnType.isBoolean, Bool.le_refl _, ?_⟩
    rw [FunctionRole.invocation, codeMarks_singleton]
    simp only [Instruction.marksAfter, Instruction.withOperand, hid, ht.call?_of_symbol? hfit hf hn,
      Option.bind_some]
    rw [taken_append (List.forall₂_reverse_iff.2 hgiven), Option.map_some]

/-- Values pile up. -/
theorem argumentsCode_marks {σ : Scope} : ∀ {es : List Expression} {tys : List Ty},
    List.Forall₂ (fun e ty => σ.Leaves (e.code σ.functions) ty) es tys → ∀ marks, ∃ given,
      List.Forall₂ (· ≤ ·) (tys.map Ty.isBoolean) given ∧
        codeMarks σ (argumentsCode σ.functions es) marks = some (given.reverse ++ marks)
  | [], [], .nil, marks => ⟨[], .nil, rfl⟩
  | e :: es, ty :: tys, .cons h hs, marks => by
    obtain ⟨mark, hmark, hcode⟩ := h marks
    obtain ⟨given, hgiven, hcodes⟩ := argumentsCode_marks hs (mark :: marks)
    refine ⟨mark :: given, .cons hmark hgiven, ?_⟩
    rw [argumentsCode, codeMarks_append_of hcode, hcodes]
    simp

theorem codeMarks_dropping {σ : Scope} {ty : Ty} (h : ty.IsValue) (mark : Bool) (marks : List Bool) :
    codeMarks σ (dropping ty) (mark :: marks) = some marks := by
  rw [dropping, if_pos h.size_pos, codeMarks_singleton]
  simp [Instruction.marksAfter, Instruction.plain, taken]

/-- Of values in a sequence only the last one is left. -/
theorem sequenceCode_leaves {σ : Scope} : ∀ {es : List Expression} {tys : List Ty} {ty : Ty},
    List.Forall₂ (fun e ty => σ.Leaves (e.code σ.functions) ty) es tys →
      (∀ e ∈ es, e.type.IsValue) → tys.getLast? = some ty → σ.Leaves (sequenceCode σ.functions es) ty
  | [], [], _, .nil, _, hlast => by cases hlast
  | [e], [_], _, .cons h .nil, _, hlast => by
    obtain rfl := Option.some.inj hlast
    exact h
  | e :: d :: es, _ :: ty :: tys, _, .cons h hs, hv, hlast => by
    intro marks
    obtain ⟨hve, hvs⟩ := List.forall_mem_cons.1 hv
    obtain ⟨mark, -, hcode⟩ := h marks
    rw [sequenceCode, List.append_assoc, codeMarks_append_of hcode,
      codeMarks_append_of (codeMarks_dropping hve mark marks)]
    exact sequenceCode_leaves hs hvs (List.getLast?_cons_cons ▸ hlast) marks

/-- The operand of an operation on a local says of which type it is. -/
theorem Tree.isTruthSlot_scope {slot : Nat} {l : Local} (h : locals[slot]? = some l)
    (hl : locals.length < 2 ^ 64) :
    (t.scope locals result).isTruthSlot slot.toUInt64.toNat = l.type.isBoolean := by
  have hslot := (List.getElem?_eq_some_iff.1 h).1
  rw [Instruction.toNat_toUInt64 (Nat.lt_trans hslot hl), Scope.isTruthSlot, Tree.scope, h]
  rfl

/-- An assignment leaves what it stores. -/
theorem assign_leaves {slot : Nat} {l : Local} {e : Expression} (h : locals[slot]? = some l)
    (hl : locals.length < 2 ^ 64) (he : (t.scope locals result).Leaves (e.code t.functions) l.type) :
    (t.scope locals result).Leaves (Expression.code t.functions (.assign slot e)) l.type := by
  intro marks
  obtain ⟨mark, hmark, hcode⟩ := he marks
  refine ⟨mark, hmark, ?_⟩
  have hstl : taken [(t.scope locals result).isTruthSlot slot.toUInt64.toNat] (mark :: mark :: marks) =
      some (mark :: marks) := by
    rw [t.isTruthSlot_scope h hl]
    exact taken_append (.cons hmark .nil) (mark :: marks)
  rw [Expression.code, codeMarks_append_of hcode]
  exact (codeMarks_singleton _ _).trans hstl

mutual

/-- **A typed expression leaves a value of its type.** -/
theorem HasType.leaves (result : Ty) (ht : t.WellTyped) (hfit : t.Addressable) (hp : Placed locals)
    (hl : locals.length < 2 ^ 64) : ∀ {e : Expression} {ty : Ty}, HasType t.functions locals e ty →
      (t.scope locals result).Leaves (e.code t.functions) ty
  | _, _, .literal v => by
    intro marks
    refine ⟨_, ?_, codeMarks_singleton _ _⟩
    cases v with
    | boolean b => cases b <;> decide
    | _ => exact Bool.false_le _
  | _, _, .read h => by
    intro marks
    refine ⟨_, ?_, codeMarks_singleton _ _⟩
    exact Bool.le_of_eq (t.isTruthSlot_scope h hl).symm
  | _, _, .assign h he => by
    intro marks
    obtain ⟨mark, -, hcode⟩ := assign_leaves h hl (HasType.leaves result ht hfit hp hl he) marks
    exact ⟨mark, Bool.false_le _, hcode⟩
  | _, _, .call h hna hs => by
    intro marks
    obtain ⟨given, hgiven, hcode⟩ := argumentsCode_marks (HasTypes.leaves result ht hfit hp hl hs) marks
    obtain ⟨mark, hmark, hinvocation⟩ :=
      ht.invocation_marks hfit (List.mem_of_getElem? h) hna hgiven marks
    refine ⟨mark, hmark, ?_⟩
    rw [Expression.code, h]
    exact (codeMarks_append_of hcode).trans hinvocation
  | _, _, .sequence _ hs hlast => by
    refine sequenceCode_leaves (HasTypes.leaves result ht hfit hp hl hs) (fun e he => ?_) hlast
    have hmem := List.mem_map_of_mem (f := Expression.type) he
    rw [hs.map_type] at hmem
    exact hs.isValue (fun f hf => ht.returnType_isValue hf) hp.isValue _ hmem

theorem HasTypes.leaves (result : Ty) (ht : t.WellTyped) (hfit : t.Addressable) (hp : Placed locals)
    (hl : locals.length < 2 ^ 64) : ∀ {es : List Expression} {tys : List Ty},
      HasTypes t.functions locals es tys →
        List.Forall₂ (fun e ty => (t.scope locals result).Leaves (e.code t.functions) ty) es tys
  | _, _, .nil => .nil
  | _, _, .cons h hs => .cons (HasType.leaves result ht hfit hp hl h) (HasTypes.leaves result ht hfit hp hl hs)

end

/-- The type of the value that an expression leaves.  An assignment leaves what it
    stores, though it counts as an integer. -/
def Expression.valueType : Expression → Ty
  | .assign _ e => e.type
  | e => e.type

theorem HasType.leaves_value (result : Ty) (ht : t.WellTyped) (hfit : t.Addressable) (hp : Placed locals)
    (hl : locals.length < 2 ^ 64) {e : Expression} {ty : Ty} (h : HasType t.functions locals e ty) :
    (t.scope locals result).Leaves (e.code t.functions) e.valueType := by
  have hleaves := h.leaves result ht hfit hp hl
  rw [← h.type_eq] at hleaves
  cases h with
  | assign hslot he =>
    rw [Expression.valueType, he.type_eq]
    exact assign_leaves hslot hl (he.leaves result ht hfit hp hl)
  | _ => exact hleaves

end

/-! ## Actions -/

mutual

/-- What an action gives back, at any depth. -/
def Action.givenBack : Action → List Expression
  | .evaluate _ => []
  | .giveBack e => [e]
  | .when _ body => actionsGivenBack body
  | .whenElse _ body otherwise => actionsGivenBack body ++ actionsGivenBack otherwise
  | .loop _ body => actionsGivenBack body

/-- What actions give back. -/
def actionsGivenBack : List Action → List Expression
  | [] => []
  | a :: as => a.givenBack ++ actionsGivenBack as

end

/-- The values of expressions fit a result, as far as truth values are concerned. -/
def Ty.GivenBy (result : Ty) (es : List Expression) : Prop :=
  ∀ e ∈ es, result.isBoolean ≤ e.valueType.isBoolean

/-- A result that has no type is fitted by everything. -/
theorem Ty.givenBy_none (es : List Expression) : Ty.none.GivenBy es :=
  fun _ _ => Bool.false_le _

section
variable {t : Tree} {locals : List Local} {result : Ty}

/-- A condition leaves nothing when it has been branched on. -/
theorem guard_marks (result : Ty) (ht : t.WellTyped) (hfit : t.Addressable) (hp : Placed locals)
    (hl : locals.length < 2 ^ 64) {c : Expression} (hc : ∃ ty, HasType t.functions locals c ty)
    (target : Nat) :
    codeMarks (t.scope locals result) (conditionCode t.functions c ++ [wideBranch target]) [] =
      some [] := by
  obtain ⟨ty, hc⟩ := hc
  obtain ⟨mark, -, hcode⟩ := hc.leaves result ht hfit hp hl []
  rw [conditionCode, List.append_assoc, codeMarks_append_of hcode]
  rfl

/-- Nor is anything left when what hangs on it has been jumped out of. -/
theorem guarded_marks {σ : Scope} {head inner : List Instruction}
    (hhead : codeMarks σ head [] = some []) (hinner : codeMarks σ inner [] = some []) (target : Nat) :
    codeMarks σ (head ++ inner ++ jumpOver target) [] = some [] := by
  rw [List.append_assoc, codeMarks_append_of hhead, codeMarks_append_of hinner]
  rfl

mutual

/-- **An action leaves nothing on the stack.** -/
theorem Action.WellTyped.marks (ht : t.WellTyped) (hfit : t.Addressable) (hp : Placed locals)
    (hl : locals.length < 2 ^ 64) : ∀ {a : Action}, a.WellTyped t.functions locals →
      result.GivenBy a.givenBack → ∀ start,
        codeMarks (t.scope locals result) (a.code t.functions start) [] = some []
  | .evaluate e, ⟨ty, he⟩, _, start => by
    obtain ⟨mark, -, hcode⟩ := he.leaves result ht hfit hp hl []
    have hvalue := he.isValue (fun f hf => ht.returnType_isValue hf) hp.isValue
    rw [Action.code, codeMarks_append_of hcode]
    exact codeMarks_dropping (he.type_eq ▸ hvalue) mark []
  | .giveBack e, ⟨ty, he⟩, hgive, start => by
    obtain ⟨mark, hmark, hcode⟩ := he.leaves_value result ht hfit hp hl []
    have hresult : result.isBoolean ≤ mark := Bool.le_trans (hgive e List.mem_cons_self) hmark
    rw [Action.code, codeMarks_append_of hcode, codeMarks_singleton]
    exact if_pos (taken_append (.cons hresult .nil) [])
  | .when c body, ⟨hc, hbody⟩, hgive, start => by
    rw [code_when, codeMarks_append_of (guard_marks result ht hfit hp hl hc _)]
    exact ActionsWellTyped.marks ht hfit hp hl hbody hgive _
  | .whenElse c body otherwise, ⟨hc, hbody, hother⟩, hgive, start => by
    obtain ⟨hgive, hgiveOther⟩ := List.forall_mem_append.1 hgive
    have hinner := ActionsWellTyped.marks ht hfit hp hl hbody hgive (bodyStart t.functions start c)
    rw [code_whenElse, codeMarks_append_of (guarded_marks (guard_marks result ht hfit hp hl hc _) hinner _)]
    exact ActionsWellTyped.marks ht hfit hp hl hother hgiveOther _
  | .loop c body, ⟨hc, hbody⟩, hgive, start => by
    rw [code_loop, codeMarks_append_of (guard_marks result ht hfit hp hl hc _),
      codeMarks_append_of (ActionsWellTyped.marks ht hfit hp hl hbody hgive _)]
    rfl

theorem ActionsWellTyped.marks (ht : t.WellTyped) (hfit : t.Addressable) (hp : Placed locals)
    (hl : locals.length < 2 ^ 64) : ∀ {as : List Action}, ActionsWellTyped t.functions locals as →
      result.GivenBy (actionsGivenBack as) → ∀ start,
        codeMarks (t.scope locals result) (actionsCode t.functions start as) [] = some []
  | [], _, _, _ => rfl
  | a :: as, ⟨h, hs⟩, hgive, start => by
    obtain ⟨hgive, hgiveMore⟩ := List.forall_mem_append.1 hgive
    rw [actionsCode, codeMarks_append_of (Action.WellTyped.marks ht hfit hp hl h hgive start)]
    exact ActionsWellTyped.marks ht hfit hp hl hs hgiveMore _

end

end

/-! ## Branches -/

/-- An offset of code that begins at `o`, at which nothing is on the stack. -/
def Level (σ : Scope) (o : Nat) (marks : List Bool) (is : List Instruction) (x : Nat) : Prop :=
  ∃ pre post, is = pre ++ post ∧ x = o + codeSize pre ∧ codeMarks σ pre marks = some []

namespace Level
variable {σ : Scope} {o : Nat} {marks : List Bool} {is : List Instruction}

theorem start (σ : Scope) (o : Nat) (is : List Instruction) : Level σ o [] is o :=
  ⟨[], is, rfl, rfl, rfl⟩

theorem last (o : Nat) (h : codeMarks σ is marks = some []) : Level σ o marks is (o + codeSize is) :=
  ⟨is, [], (List.append_nil is).symm, rfl, h⟩

/-- A level of a part is one of the whole. -/
theorem within {o' x : Nat} {between : List Bool} {whole : List Instruction}
    (pre post : List Instruction) (hwhole : whole = pre ++ is ++ post) (ho : o' = o + codeSize pre)
    (hpre : codeMarks σ pre marks = some between) (h : Level σ o' between is x) :
    Level σ o marks whole x := by
  subst hwhole ho
  obtain ⟨front, rest, rfl, rfl, hfront⟩ := h
  refine ⟨pre ++ front, rest ++ post, by simp, by rw [codeSize_append, Nat.add_assoc], ?_⟩
  rw [codeMarks_append_of hpre, hfront]

end Level

/-- The branches of some code go to these offsets. -/
def BranchesTo (targets : Nat → Prop) (is : List Instruction) : Prop :=
  ∀ i ∈ is, i.opcode = .br → targets i.operand.toNat

section
variable {targets : Nat → Prop}

theorem BranchesTo.mono {more : Nat → Prop} {is : List Instruction} (h : ∀ x, targets x → more x)
    (his : BranchesTo targets is) : BranchesTo more is := by
  intro i hi hbr
  exact h _ (his i hi hbr)

theorem branchesTo_append {is js : List Instruction} :
    BranchesTo targets (is ++ js) ↔ BranchesTo targets is ∧ BranchesTo targets js :=
  List.forall_mem_append

theorem branchesTo_of_straight {functions slots : Nat} {is : List Instruction}
    (h : ∀ i ∈ is, i.Straight functions slots) : BranchesTo targets is := by
  intro i hi hbr
  exact absurd hbr (h i hi).2

theorem branchesTo_plain {op : OpCode} (h : op ≠ .br) : BranchesTo targets [.plain op] := by
  intro i hi hbr
  rw [List.mem_singleton.1 hi] at hbr
  exact absurd hbr h

theorem branchesTo_dropping {ty : Ty} : BranchesTo targets (dropping ty) := by
  intro i hi hbr
  rw [mem_dropping hi] at hbr
  cases hbr

theorem branchesTo_wideBranch {n : Nat} (hn : n < 2 ^ 64) (h : targets n) :
    BranchesTo targets [wideBranch n] := by
  intro i hi _
  rw [List.mem_singleton.1 hi]
  show targets n.toUInt64.toNat
  rwa [Instruction.toNat_toUInt64 hn]

theorem branchesTo_jumpOver {n : Nat} (hn : n < 2 ^ 64) (h : targets n) :
    BranchesTo targets (jumpOver n) :=
  List.forall_mem_cons.2 ⟨nofun, branchesTo_wideBranch hn h⟩

theorem branchesTo_jumpBack {n : Nat} (hn : n < 2 ^ 64) (h : targets n) :
    BranchesTo targets (jumpBack n) := by
  refine List.forall_mem_cons.2 ⟨nofun, ?_⟩
  intro i hi _
  rw [List.mem_singleton.1 hi]
  show targets n.toUInt64.toNat
  rwa [Instruction.toNat_toUInt64 hn]

end

section
variable {t : Tree} {locals : List Local} {result : Ty}

mutual

/-- **An action keeps its branches to itself**, and to where it leaves nothing on the stack. -/
theorem Action.code_branchesTo (ht : t.WellTyped) (hfit : t.Addressable) (hp : Placed locals)
    (hl : locals.length < 2 ^ 64) : ∀ {a : Action} (start : Nat), a.WellTyped t.functions locals →
      result.GivenBy a.givenBack → start + codeSize (a.code t.functions start) < 2 ^ 64 →
        BranchesTo (Level (t.scope locals result) start [] (a.code t.functions start))
          (a.code t.functions start)
  | .evaluate e, start, ⟨ty, h⟩, _, _ =>
    branchesTo_append.2 ⟨branchesTo_of_straight (h.code_straight ht hfit.compact hl), branchesTo_dropping⟩
  | .giveBack e, start, ⟨ty, h⟩, _, _ =>
    branchesTo_append.2
      ⟨branchesTo_of_straight (h.code_straight ht hfit.compact hl), branchesTo_plain (by decide)⟩
  | .when c body, start, h, hgive, hend => by
    have hlast := Level.last start (h.marks ht hfit hp hl hgive start)
    obtain ⟨hc, hbody⟩ := h
    have hhead := conditionCode_straight ht hfit.compact hl hc
    rw [codeEnd_when] at hend hlast
    have hinner := actionsCode_branchesTo ht hfit hp hl _ hbody hgive hend
    rw [code_when] at hlast ⊢
    simp only [branchesTo_append]
    refine ⟨⟨branchesTo_of_straight hhead, branchesTo_wideBranch hend hlast⟩, hinner.mono fun x => ?_⟩
    exact Level.within _ [] (List.append_nil _).symm (codeEnd_head _ _ _ _).symm
      (guard_marks result ht hfit hp hl hc _)
  | .whenElse c body otherwise, start, h, hgive, hend => by
    have hlast := Level.last start (h.marks ht hfit hp hl hgive start)
    obtain ⟨hc, hbody, hother⟩ := h
    obtain ⟨hgive, hgiveOther⟩ := List.forall_mem_append.1 hgive
    have hhead := conditionCode_straight ht hfit.compact hl hc
    rw [codeEnd_whenElse] at hend hlast
    have helse := Nat.lt_of_le_of_lt (Nat.le_add_right _ _) hend
    have hinner := actionsCode_branchesTo ht hfit hp hl (bodyStart t.functions start c) hbody hgive
      (Nat.lt_of_le_of_lt (Nat.le_add_right _ _) helse)
    have hrest := actionsCode_branchesTo ht hfit hp hl _ hother hgiveOther hend
    rw [code_whenElse] at hlast ⊢
    have hguard := guard_marks result ht hfit hp hl hc (elseStart t.functions start c body)
    have hfront := guarded_marks hguard
      (hbody.marks ht hfit hp hl hgive (bodyStart t.functions start c))
      (elseStart t.functions start c body +
        codeSize (actionsCode t.functions (elseStart t.functions start c body) otherwise))
    have hsub (x : Nat) (hx : Level (t.scope locals result) (elseStart t.functions start c body) []
        (actionsCode t.functions (elseStart t.functions start c body) otherwise) x) :=
      Level.within (o := start) _ [] (List.append_nil _).symm (codeEnd_body _ _ _ _ _ _).symm hfront hx
    simp only [branchesTo_append]
    refine ⟨⟨⟨⟨branchesTo_of_straight hhead, branchesTo_wideBranch helse ?_⟩,
      hinner.mono fun x => ?_⟩, branchesTo_jumpOver hend hlast⟩, hrest.mono hsub⟩
    · exact hsub _ (Level.start _ _ _)
    · exact Level.within _ _ (List.append_assoc _ _ _) (codeEnd_head _ _ _ _).symm hguard
  | .loop c body, start, h, hgive, hend => by
    have hlast := Level.last start (h.marks ht hfit hp hl hgive start)
    obtain ⟨hc, hbody⟩ := h
    have hhead := conditionCode_straight ht hfit.compact hl hc
    have hstart := Nat.lt_of_le_of_lt (Nat.le_add_right start _) hend
    rw [codeEnd_loop] at hend hlast
    have hinner := actionsCode_branchesTo ht hfit hp hl (bodyStart t.functions start c) hbody hgive
      (by rw [codeSize_append] at hend; omega)
    rw [code_loop] at hlast ⊢
    simp only [branchesTo_append]
    refine ⟨⟨branchesTo_of_straight hhead, branchesTo_wideBranch hend hlast⟩,
      hinner.mono fun x => ?_, branchesTo_jumpBack hstart (Level.start _ _ _)⟩
    exact Level.within _ _ (List.append_assoc _ _ _).symm (codeEnd_head _ _ _ _).symm
      (guard_marks result ht hfit hp hl hc _)

theorem actionsCode_branchesTo (ht : t.WellTyped) (hfit : t.Addressable) (hp : Placed locals)
    (hl : locals.length < 2 ^ 64) :
    ∀ {as : List Action} (start : Nat), ActionsWellTyped t.functions locals as →
      result.GivenBy (actionsGivenBack as) →
        start + codeSize (actionsCode t.functions start as) < 2 ^ 64 →
          BranchesTo (Level (t.scope locals result) start [] (actionsCode t.functions start as))
            (actionsCode t.functions start as)
  | [], _, _, _, _ => by simp [BranchesTo, actionsCode]
  | a :: as, start, ⟨h, hs⟩, hgive, hend => by
    obtain ⟨hgive, hgiveMore⟩ := List.forall_mem_append.1 hgive
    simp only [actionsCode, codeSize_append] at hend ⊢
    have hfirst := Action.code_branchesTo ht hfit hp hl start h hgive (by omega)
    have hrest := actionsCode_branchesTo ht hfit hp hl
      (start + codeSize (a.code t.functions start)) hs hgiveMore (by omega)
    exact branchesTo_append.2 ⟨hfirst.mono fun x => Level.within [] _ rfl rfl rfl,
      hrest.mono fun x => Level.within _ [] (List.append_nil _).symm rfl
        (h.marks ht hfit hp hl hgive start)⟩

end

end

/-! ## Functions -/

/-- The marks on the arguments of a function. -/
def Function.entryMarks (f : Function) : List Bool :=
  (f.parameterTypes.map Ty.isBoolean).reverse

/-- If a function says that its result is a truth value, all values that it gives back are
    of this type. -/
def Function.GivesTruth (f : Function) : Prop :=
  f.returnType = .boolean → ∀ e ∈ actionsGivenBack f.body, e.valueType = .boolean

instance (f : Function) : Decidable f.GivesTruth :=
  inferInstanceAs (Decidable (_ → _))

theorem Function.GivesTruth.givenBy {f : Function} (h : f.GivesTruth) :
    f.returnType.GivenBy (actionsGivenBack f.body) :=
  fun e he hresult => decide_eq_true (h (of_decide_eq_true hresult) e he)

section
variable {t : Tree} {f : Function} {result : Ty}

theorem stores_marks {locals : List Local} (hl : locals.length < 2 ^ 64) {ls : List Local}
    (h : ∀ l ∈ ls, locals[l.slot]? = some l) :
    codeMarks (t.scope locals result) (ls.map fun l => .withOperand .stl l.slot.toUInt64)
      (ls.map fun l => l.type.isBoolean) = some [] := by
  induction ls with
  | nil => rfl
  | cons l ls ih =>
    obtain ⟨hslot, hslots⟩ := List.forall_mem_cons.1 h
    have hstl : taken [(t.scope locals result).isTruthSlot l.slot.toUInt64.toNat]
        (l.type.isBoolean :: ls.map fun l => l.type.isBoolean) =
          some (ls.map fun l => l.type.isBoolean) := by
      rw [t.isTruthSlot_scope hslot hl]
      exact taken_append (.cons (Bool.le_refl _) .nil) _
    rw [List.map_cons, List.map_cons, codeMarks]
    exact (congrArg (Option.bind · _) hstl).trans (ih hslots)

/-- Parameters are stored, the last one first. -/
theorem prologue_marks (hlaid : f.LaidOut f.locals) (hl : f.locals.length < 2 ^ 64) :
    codeMarks (t.scope f.locals result) (prologue f.locals) f.entryMarks = some [] := by
  obtain ⟨hfront, htypes⟩ := hlaid.filter_isParameter
  have hslots : ∀ l ∈ (f.locals.filter Local.isParameter).reverse, f.locals[l.slot]? = some l := by
    intro l hmem
    obtain ⟨k, hk⟩ := List.mem_iff_getElem?.1 (hfront.subset (List.mem_reverse.1 hmem))
    rw [hlaid.placed.slot k l hk, hk]
  have hentry : f.entryMarks =
      (f.locals.filter Local.isParameter).reverse.map fun l => l.type.isBoolean := by
    rw [Function.entryMarks, ← htypes, List.map_map, List.map_reverse]
    rfl
  rw [prologue, hentry]
  exact stores_marks hl hslots

theorem epilogue_marks {σ : Scope} {ty : Ty} (h : ty.IsValue) :
    codeMarks σ (epilogue ty) [] = some [] := by
  have hret : taken [σ.result.isBoolean] [true] = some [] :=
    taken_append (.cons (Bool.le_true _) .nil) []
  have hldi : codeMarks σ [.withOperand .ldi 0] [] = some [true] := by
    rw [codeMarks_singleton]
    simp [Instruction.marksAfter, Instruction.withOperand]
  have hcode : epilogue ty = [.withOperand .ldi 0] ++ [.plain .ret] := epilogue_eq h
  rw [hcode, codeMarks_append_of hldi, codeMarks_singleton]
  exact if_pos hret

/-- **A function takes its arguments and leaves.** -/
theorem Function.marks (ht : t.WellTyped) (hfit : t.Addressable) (hf : f ∈ t.userFunctions)
    (hgive : result.GivenBy (actionsGivenBack f.body)) (start : Nat) :
    codeMarks (t.scope f.locals result) (f.code t.functions start) f.entryMarks = some [] := by
  obtain ⟨hlaid, hbody⟩ := ht.laidOut hf
  have hl := hfit.locals f hf
  rw [Function.code_of_isUser (t.isUser_userFunctions f hf), List.append_assoc,
    codeMarks_append_of (prologue_marks hlaid hl), codeMarks_append_of (hbody.marks ht hfit hlaid.placed hl hgive _),
    epilogue_marks (ht.returnType f hf)]

/-- **Branches of a function go to its own instructions**, with nothing on the stack. -/
theorem Function.code_branchesTo (ht : t.WellTyped) (hfit : t.Addressable) (hf : f ∈ t.userFunctions)
    (hgive : result.GivenBy (actionsGivenBack f.body)) {start : Nat}
    (hend : start + codeSize (f.code t.functions start) < 2 ^ 64) {i : Instruction}
    (hi : i ∈ f.code t.functions start) (hbr : i.opcode = .br) :
    ∃ pre j post, f.code t.functions start = pre ++ j :: post ∧
      i.operand.toNat = start + codeSize pre ∧
        codeMarks (t.scope f.locals result) pre f.entryMarks = some [] := by
  obtain ⟨hlaid, hbody⟩ := ht.laidOut hf
  have hl := hfit.locals f hf
  rw [Function.code_of_isUser (t.isUser_userFunctions f hf)] at hi hend ⊢
  simp only [codeSize_append] at hend
  simp only [List.mem_append] at hi
  rcases hi with (hi | hi) | hi
  · exact absurd hbr (prologue_straight hlaid.placed hl t.userFunctions.length i hi).2
  · obtain ⟨pre, post, hcode, htarget, hmarks⟩ := actionsCode_branchesTo ht hfit
      hlaid.placed hl (start + codeSize (prologue f.locals)) hbody hgive (by omega) i hi hbr
    obtain ⟨j, rest, hrest⟩ := List.exists_cons_of_ne_nil
      (List.append_ne_nil_of_right_ne_nil post (epilogue_ne_nil (ht.returnType f hf)))
    refine ⟨prologue f.locals ++ pre, j, rest, ?_, ?_, ?_⟩
    · rw [hcode, ← hrest]
      simp
    · rw [htarget, codeSize_append, Nat.add_assoc]
    · rw [codeMarks_append_of (prologue_marks hlaid hl), hmarks]
  · have hepilogue := epilogue_straight (ht.returnType f hf) t.userFunctions.length f.locals.length
    exact absurd hbr (hepilogue i hi).2

end

end DanishProse
