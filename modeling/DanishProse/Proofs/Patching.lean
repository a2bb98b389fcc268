/-
  Code written in one pass, with branches that are completed later.

  A branch to a place further on is written before the place is known.  It gets eight bytes that
  stand for a target, and these are overwritten once the place is reached.

  * `Emitter` is what is written so far, with a log of the placeholders and the patches;
    `Action.emit`, `Function.emit` and `Tree.emitted` write code in this way;
  * `Ledger`: a log in which each patch is that of a placeholder of the same log, and overwrites
    just its eight bytes, at most once.  Placeholders without patches are pending;
  * `Emits`: what a step of the emitter may change.  Instructions are added behind the code, and
    marks behind the log;
  * `Action.emit_emits`: every action adds its code (`Action.code`), and leaves nothing pending;
  * `Tree.emitted_eq`: the program of a tree is written in this way.
-/
import DanishProse.Proofs.Operands

namespace DanishProse

/-! ## The emitter -/

/-- What happens to the eight bytes of a target, at their offset. -/
inductive Mark where
  | placeholder (offset : Nat)
  | patch (offset : Nat) (old new : List UInt8)
deriving DecidableEq

/-- Symbols and code as far as they are written, and what happened to targets. -/
structure Emitter where
  symbols : List Symbol
  code : List UInt8
  log : List Mark

/-- The bytes of a target that is not known yet. -/
def placeholderBytes : List UInt8 :=
  List.replicate 8 0xff

namespace Emitter

/-- Where the next byte goes. -/
def position (s : Emitter) : Nat :=
  s.code.length

/-- More bytes behind the code. -/
def append (s : Emitter) (bytes : List UInt8) : Emitter :=
  { s with code := s.code ++ bytes }

/-- An operation without operand. -/
def opcode (s : Emitter) (op : OpCode) : Emitter :=
  s.append [op.byte]

/-- An operation with an operand at the smallest width. -/
def operand (s : Emitter) (op : OpCode) (v : UInt64) : Emitter :=
  let w := Width.ofValue v
  s.append (leadByte op w :: lowBytes v w.bytes)

/-- A branch with a placeholder for its target, and the offset of the placeholder. -/
def branch (s : Emitter) : Nat × Emitter :=
  let s := s.append [leadByte .br .w64]
  (s.position, { s.append placeholderBytes with log := s.log ++ [.placeholder s.position] })

/-- The eight bytes at an offset become a target. -/
def patch (s : Emitter) (offset target : Nat) : Emitter :=
  let new := lowBytes target.toUInt64 8
  { s with
    code := s.code.take offset ++ new ++ s.code.drop (offset + 8)
    log := s.log ++ [.patch offset ((s.code.drop offset).take 8) new] }

/-- The target is the next byte that is written. -/
def patchHere (s : Emitter) (offset : Nat) : Emitter :=
  s.patch offset s.position

/-- The call of a function whose arguments are on the stack. -/
def invocation (s : Emitter) : FunctionRole → Emitter
  | .intrinsic op => s.opcode op
  | .user symbol _ _ => s.operand .call symbol.toUInt64
  | .native f => s.operand .call f.id.toUInt64
  | .assignment => s

/-- Drops the value of an expression of a type. -/
def dropping (s : Emitter) (ty : Ty) : Emitter :=
  if 0 < ty.size then s.opcode .pop else s

end Emitter

mutual

/-- Writes an expression. -/
def Expression.emit (fs : List Function) : Expression → Emitter → Emitter
  | .literal v, s => s.operand .ldi v.cell
  | .read slot _, s => s.operand .ldl slot.toUInt64
  | .assign slot e, s => ((e.emit fs s).opcode .dup).operand .stl slot.toUInt64
  | .call index arguments _, s =>
    let s := argumentsEmit fs arguments s
    match fs[index]? with
    | some f => s.invocation f.role
    | none => s
  | .sequence items _, s => sequenceEmit fs items s
  | .unresolved _, s => s

/-- Writes values one after the other. -/
def argumentsEmit (fs : List Function) : List Expression → Emitter → Emitter
  | [], s => s
  | e :: es, s => argumentsEmit fs es (e.emit fs s)

/-- Writes values one after the other, each dropped before the next one. -/
def sequenceEmit (fs : List Function) : List Expression → Emitter → Emitter
  | [], s => s
  | [e], s => e.emit fs s
  | e :: d :: es, s => sequenceEmit fs (d :: es) ((e.emit fs s).dropping e.type)

end

/-- Writes a condition, and the branch that is taken if it fails. -/
def conditionEmit (fs : List Function) (c : Expression) (s : Emitter) : Nat × Emitter :=
  ((c.emit fs s).opcode .not).branch

mutual

/-- Writes an action. -/
def Action.emit (fs : List Function) : Action → Emitter → Emitter
  | .evaluate e, s => (e.emit fs s).dropping e.type
  | .giveBack e, s => (e.emit fs s).opcode .ret
  | .when c body, s =>
    let (skip, s) := conditionEmit fs c s
    (actionsEmit fs body s).patchHere skip
  | .whenElse c body otherwise, s =>
    let (skipBody, s) := conditionEmit fs c s
    let (skipOther, s) := ((actionsEmit fs body s).operand .ldi 1).branch
    (actionsEmit fs otherwise (s.patchHere skipBody)).patchHere skipOther
  | .loop c body, s =>
    let start := s.position
    let (exit, s) := conditionEmit fs c s
    (((actionsEmit fs body s).operand .ldi 1).operand .br start.toUInt64).patchHere exit

/-- Writes actions one after the other. -/
def actionsEmit (fs : List Function) : List Action → Emitter → Emitter
  | [], s => s
  | a :: as, s => actionsEmit fs as (a.emit fs s)

end

/-- Writes a function with a body, and its symbol. -/
def Function.emit (fs : List Function) (f : Function) (s : Emitter) : Emitter :=
  match f.role with
  | .user symbol locals body =>
    let s := { s with symbols := s.symbols ++ [⟨symbol, min (locals.length * 8) 0xffffffff, s.position⟩] }
    let parameters := (locals.filter Local.isParameter).reverse
    let s := parameters.foldl (fun s l => s.operand .stl l.slot.toUInt64) s
    let s := actionsEmit fs body s
    (if 0 < f.returnType.size then s.operand .ldi 0 else s).opcode .ret
  | _ => s

/-- The program of a tree as it is written. -/
def Tree.emitted (t : Tree) : Program :=
  let s := t.functions.foldl (fun s f => f.emit t.functions s) ⟨[], [], []⟩
  ⟨s.symbols, s.code.toArray⟩

/-! ## Ledgers -/

/-- The offsets of placeholders. -/
def placeholders (marks : List Mark) : List Nat :=
  marks.filterMap fun
    | .placeholder o => some o
    | .patch _ _ _ => none

/-- The offsets of patches. -/
def patches (marks : List Mark) : List Nat :=
  marks.filterMap fun
    | .placeholder _ => none
    | .patch o _ _ => some o

/-- What is marked in the code from `first` to `last`.  The placeholders stand there, behind the
    first byte of a branch each; each of them is patched once, or is pending and not patched; a
    patch comes behind its placeholder and replaces its eight bytes by eight others. -/
structure Ledger (first last : Nat) (pending : List Nat) (marks : List Mark) : Prop where
  le : first ≤ last
  inside : ∀ o ∈ placeholders marks, first < o ∧ o + 8 ≤ last
  apart : (placeholders marks).Pairwise fun o p => o + 8 < p
  once : (patches marks ++ pending).Perm (placeholders marks)
  placed : ∀ before o old new behind, marks = before ++ .patch o old new :: behind →
    o ∈ placeholders before
  bytes : ∀ o old new, Mark.patch o old new ∈ marks → old = placeholderBytes ∧ new.length = 8

@[simp] theorem placeholders_append (ms ns : List Mark) :
    placeholders (ms ++ ns) = placeholders ms ++ placeholders ns :=
  List.filterMap_append

@[simp] theorem patches_append (ms ns : List Mark) : patches (ms ++ ns) = patches ms ++ patches ns :=
  List.filterMap_append

namespace Ledger
variable {first last : Nat} {pending : List Nat} {marks : List Mark}

theorem nil (first : Nat) : Ledger first first [] [] where
  le := Nat.le_refl _
  inside := nofun
  apart := .nil
  once := .refl _
  placed before o old new behind h := by
    cases before <;> cases h
  bytes := nofun

theorem grow {more : Nat} (h : Ledger first last pending marks) (hmore : last ≤ more) :
    Ledger first more pending marks where
  le := Nat.le_trans h.le hmore
  inside o ho := ⟨(h.inside o ho).1, Nat.le_trans (h.inside o ho).2 hmore⟩
  apart := h.apart
  once := h.once
  placed := h.placed
  bytes := h.bytes

/-- A ledger that goes on with another one. -/
theorem append {last' : Nat} {pending' : List Nat} {more : List Mark}
    (h : Ledger first last pending marks) (h' : Ledger last last' pending' more) :
    Ledger first last' (pending' ++ pending) (marks ++ more) where
  le := Nat.le_trans h.le h'.le
  inside := by
    rw [placeholders_append]
    refine List.forall_mem_append.2 ⟨(h.grow h'.le).inside, fun o ho => ?_⟩
    exact ⟨Nat.lt_of_le_of_lt h.le (h'.inside o ho).1, (h'.inside o ho).2⟩
  apart := by
    rw [placeholders_append, List.pairwise_append]
    refine ⟨h.apart, h'.apart, fun o ho p hp => ?_⟩
    exact Nat.lt_of_le_of_lt (h.inside o ho).2 (h'.inside p hp).1
  once := by
    rw [List.perm_iff_count]
    intro o
    have hfirst := h.once.count_eq o
    have hmore := h'.once.count_eq o
    simp only [patches_append, placeholders_append, List.count_append] at hfirst hmore ⊢
    omega
  placed before o old new behind hsplit := by
    rcases List.append_eq_append_iff.1 hsplit with ⟨between, rfl, hmore⟩ | ⟨between, rfl, hbetween⟩
    · rw [placeholders_append]
      exact List.mem_append_right _ (h'.placed between o old new behind hmore)
    · cases between with
      | nil => exact absurd (h'.placed [] o old new behind hbetween.symm) List.not_mem_nil
      | cons m between =>
        obtain ⟨rfl, -⟩ := List.cons.inj hbetween
        exact h.placed before o old new between rfl
  bytes o old new hmem := (List.mem_append.1 hmem).elim (h.bytes o old new) (h'.bytes o old new)

/-- A placeholder behind the first byte of a branch. -/
theorem placeholder (first : Nat) : Ledger first (first + 9) [first + 1] [.placeholder (first + 1)] where
  le := Nat.le_add_right _ _
  inside := List.forall_mem_singleton.2 ⟨Nat.lt_succ_self _, Nat.le_refl _⟩
  apart := .cons nofun .nil
  once := .refl _
  placed before o old new behind h := by
    rcases before with _ | ⟨m, _ | ⟨n, before⟩⟩ <;> cases h
  bytes o old new hmem := by
    cases List.mem_singleton.1 hmem

/-- The placeholder that is pending for the longest time is patched. -/
theorem patch {o : Nat} (h : Ledger first last (pending ++ [o]) marks) {new : List UInt8}
    (hnew : new.length = 8) : Ledger first last pending (marks ++ [.patch o placeholderBytes new]) where
  le := h.le
  inside := by
    rw [placeholders_append]
    exact List.forall_mem_append.2 ⟨h.inside, nofun⟩
  apart := by
    rw [placeholders_append]
    exact List.pairwise_append.2 ⟨h.apart, .nil, nofun⟩
  once := by
    rw [patches_append, placeholders_append, List.append_assoc]
    have horder : List.Perm ([o] ++ pending) (pending ++ [o]) := List.perm_append_comm
    exact (horder.append_left (patches marks)).trans (h.once.trans (.of_eq (List.append_nil _).symm))
  placed before p old new' behind hsplit := by
    have ho : o ∈ placeholders marks := h.once.subset (by simp)
    -- the patch that is looked at is the new one, or one of those before
    rcases List.append_eq_append_iff.1 hsplit with ⟨between, rfl, hmore⟩ | ⟨between, rfl, hbetween⟩
    · rcases between with _ | ⟨m, between⟩
      · obtain ⟨⟨⟩, -⟩ := List.cons.inj hmore
        rwa [List.append_nil]
      · cases between <;> cases hmore
    · rcases between with _ | ⟨m, between⟩
      · obtain ⟨⟨⟩, -⟩ := List.cons.inj hbetween
        rwa [List.append_nil] at ho
      · obtain ⟨rfl, -⟩ := List.cons.inj hbetween
        exact h.placed before p old new' between rfl
  bytes p old new' hmem := by
    rcases List.mem_append.1 hmem with hmem | hmem
    · exact h.bytes p old new' hmem
    · cases List.mem_singleton.1 hmem
      exact ⟨rfl, hnew⟩

end Ledger

/-! ## Steps of the emitter -/

/-- The target of a branch whose target is not known yet. -/
def unset : Nat :=
  2 ^ 64 - 1

theorem bytes_wideBranch (target : Nat) :
    (wideBranch target).bytes = leadByte .br .w64 :: lowBytes target.toUInt64 8 := rfl

theorem bytes_unset : (wideBranch unset).bytes = leadByte .br .w64 :: placeholderBytes := by
  decide

theorem Emitter.patch_eq {s : Emitter} {front post : List UInt8} {offset : Nat}
    (hcode : s.code = front ++ (lowBytes unset.toUInt64 8 ++ post)) (hfront : front.length = offset)
    (target : Nat) :
    s.patch offset target = ⟨s.symbols, front ++ (lowBytes target.toUInt64 8 ++ post),
      s.log ++ [.patch offset placeholderBytes (lowBytes target.toUInt64 8)]⟩ := by
  have hold : lowBytes unset.toUInt64 8 = placeholderBytes := by decide
  have htake : s.code.take offset = front := by rw [hcode, List.take_left' hfront]
  have hdrop : s.code.drop offset = placeholderBytes ++ post := by
    rw [hcode, List.drop_left' hfront, hold]
  rw [Emitter.patch, ← List.drop_drop, htake, hdrop, List.append_assoc]
  rfl

theorem Emitter.offset_branch (s : Emitter) : s.branch.1 = s.position + 1 := by
  simp [branch, append, position]

/-- From one state to another, instructions are added to the code, and marks on the bytes that are
    added to the log.  Some placeholders may be pending. -/
structure Emits (s s' : Emitter) (is : List Instruction) (pending : List Nat) : Prop where
  symbols : s'.symbols = s.symbols
  code : s'.code = s.code ++ is.flatMap Instruction.bytes
  log : ∃ marks, s'.log = s.log ++ marks ∧ Ledger s.position s'.position pending marks

namespace Emits
variable {s s' s'' : Emitter} {is js : List Instruction} {pending pending' : List Nat}

theorem refl (s : Emitter) : Emits s s [] [] where
  symbols := rfl
  code := (List.append_nil _).symm
  log := ⟨[], (List.append_nil _).symm, .nil _⟩

theorem trans (h : Emits s s' is pending) (h' : Emits s' s'' js pending') :
    Emits s s'' (is ++ js) (pending' ++ pending) where
  symbols := h'.symbols.trans h.symbols
  code := by rw [h'.code, h.code, List.flatMap_append, List.append_assoc]
  log := by
    obtain ⟨marks, hlog, hmarks⟩ := h.log
    obtain ⟨more, hlog', hmore⟩ := h'.log
    exact ⟨marks ++ more, by rw [hlog', hlog, List.append_assoc], hmarks.append hmore⟩

theorem position_eq (h : Emits s s' is pending) : s'.position = s.position + codeSize is := by
  rw [Emitter.position, h.code, List.length_append, length_flatMap_bytes]
  rfl

/-- An instruction is added. -/
theorem instruction (s : Emitter) (i : Instruction) : Emits s (s.append i.bytes) [i] [] where
  symbols := rfl
  code := by
    rw [List.flatMap_cons, List.flatMap_nil, List.append_nil]
    rfl
  log := by
    refine ⟨[], (List.append_nil _).symm, (Ledger.nil _).grow ?_⟩
    rw [Emitter.position, Emitter.position, Emitter.append, List.length_append]
    exact Nat.le_add_right _ _

theorem opcode (s : Emitter) {op : OpCode} (h : op.hasOperand = false) :
    Emits s (s.opcode op) [.plain op] [] := by
  have hbytes : (Instruction.plain op).bytes = [op.byte] := by
    cases op <;> first | rfl | cases h
  rw [Emitter.opcode, ← hbytes]
  exact instruction s _

theorem operand (s : Emitter) {op : OpCode} (h : op.hasOperand = true) (v : UInt64) :
    Emits s (s.operand op v) [.withOperand op v] [] := by
  have hbytes : (Instruction.withOperand op v).bytes =
      leadByte op (.ofValue v) :: lowBytes v (Width.ofValue v).bytes := by
    rw [Instruction.bytes, Instruction.withOperand, if_pos h]
  rw [Emitter.operand, ← hbytes]
  exact instruction s _

theorem branch (s : Emitter) : Emits s s.branch.2 [wideBranch unset] [s.branch.1] := by
  have hcode : s.branch.2.code = s.code ++ (wideBranch unset).bytes := by
    simp [Emitter.branch, Emitter.append, bytes_unset]
  have hend : s.branch.2.position = s.position + 9 := by
    rw [Emitter.position, hcode, List.length_append]
    rfl
  refine ⟨rfl, by simpa using hcode, [.placeholder s.branch.1], rfl, ?_⟩
  rw [hend, s.offset_branch]
  exact .placeholder _

/-- A branch back that is always taken. -/
theorem jumpBack (s : Emitter) (target : Nat) :
    Emits s ((s.operand .ldi 1).operand .br target.toUInt64) (jumpBack target) [] :=
  (operand s rfl 1).trans (operand _ rfl target.toUInt64)

/-- A branch further on that is always taken. -/
theorem jumpOver (s : Emitter) :
    Emits s (s.operand .ldi 1).branch.2 (jumpOver unset) [(s.operand .ldi 1).branch.1] :=
  (operand s rfl 1).trans (branch _)

/-- The branch that is pending for the longest time gets the next place as its target. -/
theorem patchHere {offset target : Nat} (h : Emits s s' (is ++ [wideBranch unset] ++ js) (pending ++ [offset]))
    (hoffset : offset = s.position + codeSize is + 1) (htarget : s'.position = target) :
    Emits s (s'.patchHere offset) (is ++ [wideBranch target] ++ js) pending := by
  have hbytes (n : Nat) : s.code ++ (is ++ [wideBranch n] ++ js).flatMap Instruction.bytes =
      (s.code ++ is.flatMap Instruction.bytes ++ [leadByte .br .w64]) ++
        (lowBytes n.toUInt64 8 ++ js.flatMap Instruction.bytes) := by
    simp [bytes_wideBranch]
  have hcode := h.code
  rw [hbytes unset] at hcode
  have hfront : (s.code ++ is.flatMap Instruction.bytes ++ [leadByte .br .w64]).length = offset := by
    rw [List.length_append, List.length_append, length_flatMap_bytes, hoffset]
    rfl
  have hpatched := Emitter.patch_eq hcode hfront target
  rw [← hbytes target] at hpatched
  have hposition : (s'.patch offset target).position = s'.position := by
    rw [h.position_eq, hpatched, Emitter.position, List.length_append, length_flatMap_bytes]
    simp only [codeSize_append]
    rfl
  obtain ⟨marks, hlog, hmarks⟩ := h.log
  have hmore := hmarks.patch (Instruction.length_lowBytes target.toUInt64 8)
  rw [← hposition] at hmore
  rw [Emitter.patchHere, htarget]
  rw [hpatched] at hmore ⊢
  exact ⟨h.symbols, rfl, _, (congrArg (· ++ _) hlog).trans (List.append_assoc _ _ _), hmore⟩

end Emits

/-! ## Runs of the emitter -/

/-- Functions that are operations take no operand. -/
def PlainIntrinsics (fs : List Function) : Prop :=
  ∀ f ∈ fs, ∀ op, f.role = .intrinsic op → op.hasOperand = false

theorem Tree.WellTyped.plainIntrinsics {t : Tree} (ht : t.WellTyped) : PlainIntrinsics t.functions :=
  fun _ hf _ hrole => OpCode.hasOperand_of_arity? (ht.arity_of_intrinsic hf hrole)

section
variable {fs : List Function}

theorem Emits.invocation (s : Emitter) {f : Function}
    (h : ∀ op, f.role = .intrinsic op → op.hasOperand = false) :
    Emits s (s.invocation f.role) f.role.invocation [] := by
  cases hrole : f.role with
  | intrinsic op => exact .opcode s (h op hrole)
  | user symbol _ _ => exact .operand s rfl symbol.toUInt64
  | native g => exact .operand s rfl g.id.toUInt64
  | assignment => exact .refl s

theorem Emits.dropping (s : Emitter) (ty : Ty) : Emits s (s.dropping ty) (dropping ty) [] := by
  unfold Emitter.dropping DanishProse.dropping
  split
  · exact .opcode s rfl
  · exact .refl s

mutual

theorem Expression.emit_emits (h : PlainIntrinsics fs) : ∀ (e : Expression) (s : Emitter),
    Emits s (e.emit fs s) (e.code fs) []
  | .literal v, s => .operand s rfl v.cell
  | .read slot _, s => .operand s rfl slot.toUInt64
  | .assign slot e, s => (e.emit_emits h s).trans ((Emits.opcode _ rfl).trans (.operand _ rfl slot.toUInt64))
  | .call index arguments _, s => by
    have harguments := argumentsEmit_emits h arguments s
    rw [Expression.emit, Expression.code]
    cases hf : fs[index]? with
    | none => exact harguments.trans (.refl _)
    | some f => exact harguments.trans (.invocation _ (h f (List.mem_of_getElem? hf)))
  | .sequence items _, s => sequenceEmit_emits h items s
  | .unresolved _, s => .refl s

theorem argumentsEmit_emits (h : PlainIntrinsics fs) : ∀ (es : List Expression) (s : Emitter),
    Emits s (argumentsEmit fs es s) (argumentsCode fs es) []
  | [], s => .refl s
  | e :: es, s => (e.emit_emits h s).trans (argumentsEmit_emits h es _)

theorem sequenceEmit_emits (h : PlainIntrinsics fs) : ∀ (es : List Expression) (s : Emitter),
    Emits s (sequenceEmit fs es s) (sequenceCode fs es) []
  | [], s => .refl s
  | [e], s => e.emit_emits h s
  | e :: d :: es, s =>
    ((e.emit_emits h s).trans (.dropping _ e.type)).trans (sequenceEmit_emits h (d :: es) _)

end

/-- A condition adds its code and a branch, which is pending. -/
theorem conditionEmit_emits (h : PlainIntrinsics fs) (c : Expression) (s : Emitter) :
    Emits s (conditionEmit fs c s).2 (conditionCode fs c ++ [wideBranch unset]) [(conditionEmit fs c s).1] :=
  ((c.emit_emits h s).trans (.opcode _ rfl)).trans (.branch _)

theorem offset_conditionEmit (h : PlainIntrinsics fs) (c : Expression) (s : Emitter) :
    (conditionEmit fs c s).1 = s.position + codeSize (conditionCode fs c) + 1 := by
  have hhead : Emits s ((c.emit fs s).opcode .not) (conditionCode fs c) [] :=
    (c.emit_emits h s).trans (.opcode _ rfl)
  rw [conditionEmit, Emitter.offset_branch, hhead.position_eq]

theorem position_conditionEmit (h : PlainIntrinsics fs) (c : Expression) (s : Emitter) :
    (conditionEmit fs c s).2.position = bodyStart fs s.position c := by
  rw [(conditionEmit_emits h c s).position_eq, codeEnd_head]

/-- Up to the actions that are carried out if a condition fails: the branch over them is written
    before the one over the body is patched. -/
theorem Emits.firstBody (h : PlainIntrinsics fs) {body : List Action}
    (hbody : ∀ s, Emits s (actionsEmit fs body s) (actionsCode fs s.position body) []) (c : Expression)
    (s : Emitter) :
    let skip := conditionEmit fs c s
    let pass := ((actionsEmit fs body skip.2).operand .ldi 1).branch
    let front := conditionCode fs c ++ [wideBranch (elseStart fs s.position c body)] ++
      actionsCode fs (bodyStart fs s.position c) body
    Emits s (pass.2.patchHere skip.1) (front ++ DanishProse.jumpOver unset) [pass.1] ∧
      pass.1 = s.position + codeSize (front ++ [.withOperand .ldi 1]) + 1 := by
  intro skip pass front
  have hskip := conditionEmit_emits h c s
  have hinner := hbody skip.2
  rw [position_conditionEmit h] at hinner
  have hboth := hskip.trans (hinner.trans (.jumpOver _))
  have hend := hboth.position_eq
  rw [← List.append_assoc, codeEnd_body] at hend
  have hpatched := hboth.patchHere (offset_conditionEmit h c s) hend
  rw [← List.append_assoc] at hpatched
  refine ⟨hpatched, ?_⟩
  have hload : Emits (actionsEmit fs body skip.2) _ [.withOperand .ldi 1] [] := .operand _ rfl 1
  rw [Emitter.offset_branch, (hskip.trans (hinner.trans hload)).position_eq, ← List.append_assoc]
  simp only [front, codeSize_append]
  rfl

mutual

/-- **An action adds its code, and patches just the branches that it adds.** -/
theorem Action.emit_emits (h : PlainIntrinsics fs) : ∀ (a : Action) (s : Emitter),
    Emits s (a.emit fs s) (a.code fs s.position) []
  | .evaluate e, s => (e.emit_emits h s).trans (.dropping _ e.type)
  | .giveBack e, s => (e.emit_emits h s).trans (.opcode _ rfl)
  | .when c body, s => by
    have hhead := conditionEmit_emits h c s
    have hbody := actionsEmit_emits h body (conditionEmit fs c s).2
    rw [position_conditionEmit h] at hbody
    have hwhole := hhead.trans hbody
    -- the branch goes to the end of the body, which is where the emitter stands
    rw [Action.emit, code_when]
    refine hwhole.patchHere (offset_conditionEmit h c s) ?_
    rw [hbody.position_eq, position_conditionEmit h]
  | .whenElse c body otherwise, s => by
    obtain ⟨hfirst, hoffset⟩ := Emits.firstBody h (actionsEmit_emits h body) c s
    have hstart := hfirst.position_eq
    rw [codeEnd_body] at hstart
    have hother := actionsEmit_emits h otherwise
      ((((actionsEmit fs body (conditionEmit fs c s).2).operand .ldi 1).branch.2).patchHere
        (conditionEmit fs c s).1)
    rw [hstart] at hother
    have hwhole := hfirst.trans hother
    have hcode (n : Nat) : conditionCode fs c ++ [wideBranch (elseStart fs s.position c body)] ++
        actionsCode fs (bodyStart fs s.position c) body ++ jumpOver n ++
          actionsCode fs (elseStart fs s.position c body) otherwise =
      (conditionCode fs c ++ [wideBranch (elseStart fs s.position c body)] ++
        actionsCode fs (bodyStart fs s.position c) body ++ [.withOperand .ldi 1]) ++ [wideBranch n] ++
          actionsCode fs (elseStart fs s.position c body) otherwise := by
      simp [jumpOver]
    rw [hcode] at hwhole
    rw [Action.emit, code_whenElse, hcode]
    refine hwhole.patchHere hoffset ?_
    rw [hother.position_eq, hstart]
  | .loop c body, s => by
    have hhead := conditionEmit_emits h c s
    have hbody := actionsEmit_emits h body (conditionEmit fs c s).2
    rw [position_conditionEmit h] at hbody
    have hback := hbody.trans (.jumpBack _ s.position)
    rw [Action.emit, code_loop]
    refine (hhead.trans hback).patchHere (offset_conditionEmit h c s) ?_
    rw [hback.position_eq, position_conditionEmit h]

theorem actionsEmit_emits (h : PlainIntrinsics fs) : ∀ (as : List Action) (s : Emitter),
    Emits s (actionsEmit fs as s) (actionsCode fs s.position as) []
  | [], s => .refl s
  | a :: as, s => by
    have hfirst := a.emit_emits h s
    have hrest := actionsEmit_emits h as (a.emit fs s)
    rw [hfirst.position_eq] at hrest
    exact hfirst.trans hrest

end

/-! ## Programs -/

theorem emits_prologue (locals : List Local) (s : Emitter) :
    Emits s ((locals.filter Local.isParameter).reverse.foldl (fun s l => s.operand .stl l.slot.toUInt64) s)
      (prologue locals) [] := by
  rw [prologue]
  generalize (locals.filter Local.isParameter).reverse = parameters
  induction parameters generalizing s with
  | nil => exact .refl s
  | cons l parameters ih => exact (Emits.operand s rfl l.slot.toUInt64).trans (ih _)

theorem emits_epilogue (result : Ty) (s : Emitter) :
    Emits s ((if 0 < result.size then s.operand .ldi 0 else s).opcode .ret) (epilogue result) [] := by
  unfold epilogue
  split
  · exact (Emits.operand s rfl 0).trans (.opcode _ rfl)
  · exact .opcode s rfl

/-- A function adds its symbol and its code. -/
theorem Function.emit_emits (h : PlainIntrinsics fs) (f : Function) (s : Emitter) :
    Emits { s with symbols := s.symbols ++ (f.symbolAt s.position).toList } (f.emit fs s)
      (f.code fs s.position) [] := by
  unfold Function.emit Function.symbolAt Function.code
  cases f.role with
  | user symbol locals body =>
    have hfirst := emits_prologue locals
      { s with symbols := s.symbols ++ [⟨symbol, min (locals.length * 8) 0xffffffff, s.position⟩] }
    have hbody := actionsEmit_emits h body
      ((locals.filter Local.isParameter).reverse.foldl (fun s l => s.operand .stl l.slot.toUInt64)
        { s with symbols := s.symbols ++ [⟨symbol, min (locals.length * 8) 0xffffffff, s.position⟩] })
    rw [hfirst.position_eq] at hbody
    exact (hfirst.trans hbody).trans (emits_epilogue f.returnType _)
  | _ =>
    rw [Option.toList_none, List.append_nil]
    exact .refl s

theorem assemble_emitted (h : PlainIntrinsics fs) (gs : List Function) (s : Emitter) :
    let s' := gs.foldl (fun s f => f.emit fs s) s
    let a := assemble fs s.position gs
    s'.symbols = s.symbols ++ a.symbols ∧ s'.code = s.code ++ a.code.flatMap Instruction.bytes := by
  induction gs generalizing s with
  | nil => exact ⟨(List.append_nil _).symm, (List.append_nil _).symm⟩
  | cons f gs ih =>
    have hf := f.emit_emits h s
    have hposition : (f.emit fs s).position = s.position + codeSize (f.code fs s.position) := hf.position_eq
    obtain ⟨hsymbols, hcode⟩ := ih (f.emit fs s)
    rw [hposition] at hsymbols hcode
    constructor
    · rw [List.foldl_cons, hsymbols, hf.symbols, assemble, List.append_assoc]
    · rw [List.foldl_cons, hcode, hf.code, assemble, List.flatMap_append, List.append_assoc]

/-- **The program of a tree is what the emitter writes.** -/
theorem Tree.emitted_eq {t : Tree} (h : PlainIntrinsics t.functions) : t.emitted = t.program := by
  obtain ⟨hsymbols, hcode⟩ := assemble_emitted h t.functions ⟨[], [], []⟩
  rw [Tree.emitted, Tree.program, hsymbols, hcode]
  rfl

end

end DanishProse
