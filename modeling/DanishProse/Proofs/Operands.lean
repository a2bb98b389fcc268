/-
  What the operands of emitted code refer to.

  * `Instruction.InRange`: an instruction can be written down, and the local or
    the function that it names is there.  All code of a well-typed tree is made
    of such instructions (`Function.code_inRange`);
  * the branches of actions go to `bodyStart`, `elseStart` and the ends of code,
    and `code_when` and its like say where these stand.

  Trees have to be small enough for operands (`Tree.Fits`), as that of a small
  program is (`fits_sample`).
-/
import Mathlib.Tactic.Common
import DanishProse.Proofs.Checking
import DanishProse.Proofs.Encoding

namespace DanishProse

/-! ## Functions with bodies -/

/-- The locals of a function; only one with a body has some. -/
def Function.locals (f : Function) : List Local :=
  match f.role with
  | .user _ locals _ => locals
  | _ => []

/-- What a function does step by step. -/
def Function.body (f : Function) : List Action :=
  match f.role with
  | .user _ _ body => body
  | _ => []

theorem Function.role_of_symbol? {f : Function} {n : Nat} (h : f.symbol? = some n) :
    f.role = .user n f.locals f.body := by
  unfold Function.symbol? at h
  split at h
  · next hrole =>
    cases h
    simp only [Function.locals, Function.body, hrole]
  · cases h

theorem Function.symbol?_of_role {f : Function} {n : Nat} {locals : List Local} {body : List Action}
    (h : f.role = .user n locals body) : f.symbol? = some n := by
  rw [Function.symbol?, h]

theorem Function.symbol?_of_isUser {f : Function} (h : f.isUser = true) : ∃ n, f.symbol? = some n := by
  unfold Function.isUser at h
  split at h
  · next hrole => exact ⟨_, Function.symbol?_of_role hrole⟩
  · cases h

theorem Function.code_of_isUser {f : Function} (h : f.isUser = true) (fs : List Function)
    (start : Nat) :
    f.code fs start = prologue f.locals ++
      actionsCode fs (start + codeSize (prologue f.locals)) f.body ++ epilogue f.returnType := by
  obtain ⟨n, hn⟩ := Function.symbol?_of_isUser h
  rw [Function.code, Function.role_of_symbol? hn]

theorem Function.symbolAt_of_symbol? {f : Function} {n : Nat} (h : f.symbol? = some n) (start : Nat) :
    f.symbolAt start = some ⟨n, min (f.locals.length * 8) 0xffffffff, start⟩ := by
  rw [Function.symbolAt, Function.role_of_symbol? h]

theorem Tree.isUser_userFunctions (t : Tree) : ∀ f ∈ t.userFunctions, f.isUser = true := by
  intro f hf
  exact (List.mem_filter.1 hf).2

namespace Tree.WellTyped
variable {t : Tree} {f : Function}

/-- The functions with bodies are numbered from one. -/
theorem symbol (ht : t.WellTyped) {k : Nat} (hf : t.userFunctions[k]? = some f) :
    f.symbol? = some (k + 1) := by
  have hk := (List.getElem?_eq_some_iff.1 hf).1
  have hat := congrArg (·[k]?) ht.symbols
  simp only [List.getElem?_map, hf, Option.map_some, List.getElem?_range' hk] at hat
  rw [Option.some.inj hat, Nat.one_mul, Nat.add_comm]

/-- The number of a function with a body is its place among them. -/
theorem getElem?_of_symbol? (ht : t.WellTyped) {n : Nat} (hf : f ∈ t.functions)
    (hn : f.symbol? = some n) : ∃ k, n = k + 1 ∧ t.userFunctions[k]? = some f := by
  have huser : f ∈ t.userFunctions := List.mem_filter.2 ⟨hf, (Function.isUser_of_symbol? hn).1⟩
  obtain ⟨k, hk⟩ := List.mem_iff_getElem?.1 huser
  refine ⟨k, ?_, hk⟩
  rw [ht.symbol hk] at hn
  exact (Option.some.inj hn).symm

theorem mem_functions (ht : t.WellTyped) (hf : f ∈ t.functions) :
    f ∈ signedBuiltins ∨ f ∈ t.userFunctions := by
  rw [ht.functions] at hf
  exact List.mem_append.1 hf

/-- What a function that is built in does its work with takes its arguments. -/
theorem arityFits (ht : t.WellTyped) (hf : f ∈ t.functions) : f.arityFits = true := by
  rcases ht.mem_functions hf with hf | hf
  · exact (signedBuiltins_sound f hf).2.1
  · have huser := (List.mem_filter.1 hf).2
    unfold Function.isUser at huser
    unfold Function.arityFits
    split at huser
    · next hrole => rw [hrole]
    · cases huser

theorem arity_of_intrinsic (ht : t.WellTyped) (hf : f ∈ t.functions) {op : OpCode}
    (hrole : f.role = .intrinsic op) : op.arity? = some f.parameterTypes.length := by
  simpa [Function.arityFits, hrole] using ht.arityFits hf

theorem returnType_isValue (ht : t.WellTyped) (hf : f ∈ t.functions) : f.returnType.IsValue := by
  rcases ht.mem_functions hf with hf | hf
  · exact (signedBuiltins_sound f hf).2.2.1
  · exact ht.returnType f hf

theorem laidOut (ht : t.WellTyped) (hf : f ∈ t.userFunctions) :
    f.LaidOut f.locals ∧ ActionsWellTyped t.functions f.locals f.body := by
  obtain ⟨n, hn⟩ := Function.symbol?_of_isUser (t.isUser_userFunctions f hf)
  have h := ht.bodies f hf
  rwa [Function.WellTyped, Function.role_of_symbol? hn] at h

end Tree.WellTyped

/-- The tree is small enough for operands: numbers of functions stay below those
    kept for functions outside the program, the bytes of locals fit in 32 bits,
    and offsets fit in 64, as they do in all code that is held in memory. -/
structure Tree.Fits (t : Tree) : Prop where
  functions : t.userFunctions.length < Native.baseId
  locals : ∀ f ∈ t.userFunctions, f.locals.length < 2 ^ 29
  code : t.program.code.size < 2 ^ 64

/-- The tree is small enough for operands, however much room its locals take: slots
    and offsets fit in 64 bits. -/
structure Tree.Addressable (t : Tree) : Prop where
  functions : t.userFunctions.length < Native.baseId
  locals : ∀ f ∈ t.userFunctions, f.locals.length < 2 ^ 64
  code : t.program.code.size < 2 ^ 64

/-- Numbers of functions, slots and offsets fit in 64 bits. -/
structure Tree.Compact (t : Tree) : Prop where
  functions : t.userFunctions.length < 2 ^ 64
  locals : ∀ f ∈ t.userFunctions, f.locals.length < 2 ^ 64
  code : t.program.code.size < 2 ^ 64

theorem Tree.Addressable.compact {t : Tree} (h : t.Addressable) : t.Compact :=
  ⟨Nat.lt_trans h.functions (by decide), h.locals, h.code⟩

theorem Tree.Fits.addressable {t : Tree} (h : t.Fits) : t.Addressable :=
  ⟨h.functions, fun f hf => Nat.lt_trans (h.locals f hf) (by decide), h.code⟩

/-- A tree is small enough if the numbers of its locals are. -/
theorem Tree.fits_of_locals {t : Tree} {ns : List Nat}
    (h : t.userFunctions.map (fun f => f.locals.length) = ns) (hlength : ns.length < Native.baseId)
    (hns : ∀ n ∈ ns, n < 2 ^ 29) (hcode : t.program.code.size < 2 ^ 64) : t.Fits := by
  subst h
  rw [List.length_map] at hlength
  exact ⟨hlength, fun f hf => hns _ (List.mem_map_of_mem hf), hcode⟩

section Sample

/-- A function that prints what another one gives back for an argument. -/
def sampleSource : String :=
  "Offentlig funktion f tilbagegiver heltal. Goddag. Print (g 2). Farvel. " ++
  "Offentlig funktion g (X som heltal) tilbagegiver heltal. Goddag. Tilbagegiv X. Farvel."

/-- The second function begins at offset 13, with the store of its parameter. -/
def sampleProgram : Program :=
  ⟨[⟨1, 0, 0⟩, ⟨2, 8, 13⟩],
    #[1, 2, 25, 2, 0x99, 0xef, 0xbe, 0xad, 0xde, 4, 1, 0, 26, 3, 0, 2, 0, 26, 1, 0, 26]⟩

/-- All that later modules need of the sample, looked through once. -/
theorem analysis_sample :
    let a := Analysis.ofSource sampleSource
    a.reports = [] ∧ a.tree.program = sampleProgram ∧
      a.tree.userFunctions.map (fun f => (f.symbol?, f.pattern.parameters.length, f.locals.length)) =
        [(some 1, 0, 0), (some 2, 1, 1)] := by
  decide +kernel

theorem compile_sample : compile sampleSource = .ok sampleProgram := by
  obtain ⟨hreports, hprogram, -⟩ := analysis_sample
  exact compile_eq_ok_iff.2 ⟨hreports, hprogram⟩

theorem userFunctions_sample : ∃ f g, (Analysis.ofSource sampleSource).tree.userFunctions = [f, g] ∧
    (f.pattern.parameters = [] ∧ f.locals = []) ∧ g.symbol? = some 2 ∧ g.locals.length = 1 := by
  obtain ⟨-, -, hmap⟩ := analysis_sample
  obtain ⟨f, fs, hfs, hf, hmap⟩ := List.map_eq_cons_iff.1 hmap
  obtain ⟨g, gs, hgs, hg, hmap⟩ := List.map_eq_cons_iff.1 hmap
  rw [List.map_eq_nil_iff.1 hmap] at hgs
  simp only [Prod.mk.injEq, List.length_eq_zero_iff] at hf hg
  exact ⟨f, g, by rw [hfs, hgs], hf.2, hg.1, hg.2.2⟩

theorem fits_sample : (Analysis.ofSource sampleSource).tree.Fits := by
  obtain ⟨-, hprogram, -⟩ := analysis_sample
  obtain ⟨f, g, hfunctions, ⟨-, hf⟩, -, hg⟩ := userFunctions_sample
  have hlocals : (Analysis.ofSource sampleSource).tree.userFunctions.map (fun f => f.locals.length) = [0, 1] := by
    rw [hfunctions, List.map_cons, List.map_singleton, hf, hg, List.length_nil]
  exact Tree.fits_of_locals hlocals (Nat.lt_of_lt_of_le (by decide : 2 < 3) (by decide)) (by decide)
    (by rw [hprogram]; decide)

end Sample

/-! ## Operands -/

/-- An instruction can be written down, its local is one of the first `slots`, and
    its call goes outside the program or to one of `functions` functions. -/
structure Instruction.InRange (functions slots : Nat) (i : Instruction) : Prop where
  encodable : i.Encodable
  slot : i.opcode = .ldl ∨ i.opcode = .stl → i.operand.toNat < slots
  call : i.opcode = .call →
    (∃ f : Native, i.operand.toNat = f.id) ∨ 1 ≤ i.operand.toNat ∧ i.operand.toNat ≤ functions

namespace Instruction

theorem inRange_ldi (functions slots : Nat) (v : UInt64) :
    (withOperand .ldi v).InRange functions slots where
  encodable := encodable_withOperand rfl v
  slot := by rintro (h | h) <;> cases h
  call := nofun

theorem inRange_wideBranch (functions slots target : Nat) :
    (wideBranch target).InRange functions slots where
  encodable := encodable_wideBranch target
  slot := by rintro (h | h) <;> cases h
  call := nofun

theorem inRange_branch (functions slots : Nat) (v : UInt64) :
    (withOperand .br v).InRange functions slots where
  encodable := encodable_withOperand rfl v
  slot := by rintro (h | h) <;> cases h
  call := nofun

theorem inRange_plain (functions slots : Nat) {op : OpCode} (h : op.hasOperand = false) :
    (plain op).InRange functions slots where
  encodable := encodable_plain h
  slot := by rintro (rfl | rfl) <;> cases h
  call := by rintro rfl; cases h

theorem toNat_toUInt64 {n : Nat} (h : n < 2 ^ 64) : n.toUInt64.toNat = n := by
  rw [UInt64.toNat_ofNat']
  exact Nat.mod_eq_of_lt h

/-- An operation on a local that is there. -/
theorem inRange_slot (functions : Nat) {slots slot : Nat} {op : OpCode} (hop : op = .ldl ∨ op = .stl)
    (h : slot < slots) (hslots : slots < 2 ^ 64) :
    (withOperand op slot.toUInt64).InRange functions slots where
  encodable := encodable_withOperand (by rcases hop with rfl | rfl <;> rfl) _
  slot := fun _ => by
    show slot.toUInt64.toNat < slots
    rwa [toNat_toUInt64 (Nat.lt_trans h hslots)]
  call := by rcases hop with rfl | rfl <;> nofun

/-- A call of a function that is there. -/
theorem inRange_call (slots : Nat) {functions n : Nat} (hn : n < 2 ^ 64)
    (h : (∃ f : Native, n = f.id) ∨ 1 ≤ n ∧ n ≤ functions) :
    (withOperand .call n.toUInt64).InRange functions slots where
  encodable := encodable_withOperand rfl _
  slot := by rintro (h | h) <;> cases h
  call := fun _ => by
    show (∃ f : Native, n.toUInt64.toNat = f.id) ∨ 1 ≤ n.toUInt64.toNat ∧ n.toUInt64.toNat ≤ functions
    rwa [toNat_toUInt64 hn]

end Instruction

theorem OpCode.hasOperand_of_arity? {op : OpCode} {n : Nat} (h : op.arity? = some n) :
    op.hasOperand = false := by
  cases op <;> first | rfl | simp [OpCode.arity?] at h

theorem Native.baseId_le_id (f : Native) : baseId ≤ f.id := by
  cases f <;> decide

/-- The numbers of functions with bodies are not those of functions outside the program. -/
theorem Native.ofId?_eq_none {n : Nat} (h : n < baseId) : ofId? n = none := by
  rw [Option.eq_none_iff_forall_ne_some]
  intro f hf
  rw [ofId?_eq_some_iff.1 hf] at h
  exact absurd h (Nat.not_lt.2 f.baseId_le_id)

theorem Native.id_lt (f : Native) : f.id < 2 ^ 64 := by
  cases f <;> decide

/-! ## Expressions -/

theorem mem_argumentsCode {fs : List Function} {i : Instruction} {es : List Expression}
    (h : i ∈ argumentsCode fs es) : ∃ e ∈ es, i ∈ e.code fs := by
  induction es with
  | nil => cases h
  | cons e es ih =>
    rw [argumentsCode, List.mem_append] at h
    rcases h with h | h
    · exact ⟨e, List.mem_cons_self, h⟩
    · obtain ⟨d, hd, hi⟩ := ih h
      exact ⟨d, List.mem_cons_of_mem e hd, hi⟩

theorem mem_dropping {ty : Ty} {i : Instruction} (h : i ∈ dropping ty) : i = .plain .pop := by
  unfold dropping at h
  split_ifs at h
  · exact List.mem_singleton.1 h
  · cases h

theorem mem_sequenceCode {fs : List Function} {i : Instruction} : ∀ {es : List Expression},
    i ∈ sequenceCode fs es → i = .plain .pop ∨ ∃ e ∈ es, i ∈ e.code fs
  | [e], h => .inr ⟨e, by simp, h⟩
  | e :: d :: es, h => by
    rw [sequenceCode, List.mem_append, List.mem_append] at h
    rcases h with (h | h) | h
    · exact .inr ⟨e, by simp, h⟩
    · exact .inl (mem_dropping h)
    · rcases mem_sequenceCode h with h | ⟨c, hc, hi⟩
      · exact .inl h
      · exact .inr ⟨c, by simp [hc], hi⟩

/-- An instruction in range that goes on with the next one. -/
def Instruction.Straight (functions slots : Nat) (i : Instruction) : Prop :=
  i.InRange functions slots ∧ i.opcode ≠ .br

section
variable {t : Tree}

theorem Tree.WellTyped.invocation_straight (ht : t.WellTyped) (hfit : t.Compact) {f : Function}
    (hf : f ∈ t.functions) (slots : Nat) :
    ∀ i ∈ f.role.invocation, i.Straight t.userFunctions.length slots := by
  intro i hi
  cases hrole : f.role with
  | intrinsic op =>
    rw [hrole] at hi
    obtain rfl := List.mem_singleton.1 hi
    have hop := OpCode.hasOperand_of_arity? (ht.arity_of_intrinsic hf hrole)
    refine ⟨Instruction.inRange_plain _ _ hop, ?_⟩
    show op ≠ .br
    rintro rfl
    cases hop
  | assignment =>
    rw [hrole] at hi
    cases hi
  | native g =>
    rw [hrole] at hi
    obtain rfl := List.mem_singleton.1 hi
    exact ⟨Instruction.inRange_call slots g.id_lt (.inl ⟨g, rfl⟩), nofun⟩
  | user n locals body =>
    rw [hrole] at hi
    obtain rfl := List.mem_singleton.1 hi
    obtain ⟨k, rfl, hk⟩ := ht.getElem?_of_symbol? hf (Function.symbol?_of_role hrole)
    have hlt := (List.getElem?_eq_some_iff.1 hk).1
    have hsmall := hfit.functions
    exact ⟨Instruction.inRange_call slots (by omega) (.inr (by omega)), nofun⟩

variable {locals : List Local}

mutual

/-- **The code of a typed expression is in range, and straight.** -/
theorem HasType.code_straight (ht : t.WellTyped) (hfit : t.Compact) (hl : locals.length < 2 ^ 64) :
    ∀ {e : Expression} {ty : Ty}, HasType t.functions locals e ty →
      ∀ i ∈ e.code t.functions, i.Straight t.userFunctions.length locals.length
  | _, _, .literal v => by
    intro i hi
    rw [Expression.code, List.mem_singleton] at hi
    subst hi
    exact ⟨Instruction.inRange_ldi _ _ _, nofun⟩
  | _, _, .read h => by
    intro i hi
    rw [Expression.code, List.mem_singleton] at hi
    subst hi
    exact ⟨Instruction.inRange_slot _ (.inl rfl) (List.getElem?_eq_some_iff.1 h).1 hl, nofun⟩
  | _, _, .assign h he => by
    intro i hi
    rw [Expression.code, List.mem_append, List.mem_cons, List.mem_singleton] at hi
    rcases hi with hi | rfl | rfl
    · exact HasType.code_straight ht hfit hl he i hi
    · exact ⟨Instruction.inRange_plain _ _ rfl, nofun⟩
    · exact ⟨Instruction.inRange_slot _ (.inr rfl) (List.getElem?_eq_some_iff.1 h).1 hl, nofun⟩
  | _, _, .call h _ hs => by
    intro i hi
    rw [Expression.code, h, List.mem_append] at hi
    rcases hi with hi | hi
    · obtain ⟨e, he, hi⟩ := mem_argumentsCode hi
      exact HasTypes.code_straight ht hfit hl hs e he i hi
    · exact ht.invocation_straight hfit (List.mem_of_getElem? h) _ i hi
  | _, _, .sequence _ hs _ => by
    intro i hi
    rw [Expression.code] at hi
    rcases mem_sequenceCode hi with rfl | ⟨e, he, hi⟩
    · exact ⟨Instruction.inRange_plain _ _ rfl, nofun⟩
    · exact HasTypes.code_straight ht hfit hl hs e he i hi

theorem HasTypes.code_straight (ht : t.WellTyped) (hfit : t.Compact) (hl : locals.length < 2 ^ 64) :
    ∀ {es : List Expression} {tys : List Ty}, HasTypes t.functions locals es tys →
      ∀ e ∈ es, ∀ i ∈ e.code t.functions, i.Straight t.userFunctions.length locals.length
  | _, _, .nil => by simp
  | _, _, .cons h hs =>
    List.forall_mem_cons.2 ⟨HasType.code_straight ht hfit hl h, HasTypes.code_straight ht hfit hl hs⟩

end

/-! ## Actions -/

/-- Where the code begins that is carried out if a condition holds. -/
def bodyStart (fs : List Function) (start : Nat) (c : Expression) : Nat :=
  start + codeSize (conditionCode fs c) + (wideBranch 0).size

/-- Where the code begins that is carried out if it does not. -/
def elseStart (fs : List Function) (start : Nat) (c : Expression) (body : List Action) : Nat :=
  bodyStart fs start c + codeSize (actionsCode fs (bodyStart fs start c) body) + codeSize (jumpOver 0)

section
variable (fs : List Function) (start : Nat) (c : Expression) (body otherwise : List Action)

theorem code_when : Action.code fs start (.when c body) =
    conditionCode fs c ++
      [wideBranch (bodyStart fs start c + codeSize (actionsCode fs (bodyStart fs start c) body))] ++
        actionsCode fs (bodyStart fs start c) body := rfl

theorem code_whenElse : Action.code fs start (.whenElse c body otherwise) =
    conditionCode fs c ++ [wideBranch (elseStart fs start c body)] ++
      actionsCode fs (bodyStart fs start c) body ++
        jumpOver (elseStart fs start c body +
          codeSize (actionsCode fs (elseStart fs start c body) otherwise)) ++
            actionsCode fs (elseStart fs start c body) otherwise := rfl

theorem code_loop : Action.code fs start (.loop c body) =
    conditionCode fs c ++
      [wideBranch (bodyStart fs start c +
        codeSize (actionsCode fs (bodyStart fs start c) body ++ jumpBack start))] ++
          (actionsCode fs (bodyStart fs start c) body ++ jumpBack start) := rfl

theorem codeEnd_head (target : Nat) :
    start + codeSize (conditionCode fs c ++ [wideBranch target]) = bodyStart fs start c := by
  rw [codeSize_append, ← Nat.add_assoc]
  rfl

theorem codeEnd_body (target next : Nat) :
    start + codeSize (conditionCode fs c ++ [wideBranch target] ++
      actionsCode fs (bodyStart fs start c) body ++ jumpOver next) = elseStart fs start c body := by
  rw [codeSize_append, codeSize_append, ← Nat.add_assoc, ← Nat.add_assoc, codeEnd_head]
  rfl

theorem codeEnd_when : start + codeSize (Action.code fs start (.when c body)) =
    bodyStart fs start c + codeSize (actionsCode fs (bodyStart fs start c) body) := by
  rw [code_when, codeSize_append, ← Nat.add_assoc, codeEnd_head]

theorem codeEnd_whenElse : start + codeSize (Action.code fs start (.whenElse c body otherwise)) =
    elseStart fs start c body + codeSize (actionsCode fs (elseStart fs start c body) otherwise) := by
  rw [code_whenElse, codeSize_append, ← Nat.add_assoc, codeEnd_body]

theorem codeEnd_loop : start + codeSize (Action.code fs start (.loop c body)) =
    bodyStart fs start c + codeSize (actionsCode fs (bodyStart fs start c) body ++ jumpBack start) := by
  rw [code_loop, codeSize_append, ← Nat.add_assoc, codeEnd_head]

end

theorem conditionCode_straight (ht : t.WellTyped) (hfit : t.Compact) (hl : locals.length < 2 ^ 64)
    {c : Expression} (h : ∃ ty, HasType t.functions locals c ty) :
    ∀ i ∈ conditionCode t.functions c, i.Straight t.userFunctions.length locals.length := by
  obtain ⟨ty, h⟩ := h
  refine List.forall_mem_append.2 ⟨h.code_straight ht hfit hl, ?_⟩
  intro i hi
  obtain rfl := List.mem_singleton.1 hi
  exact ⟨Instruction.inRange_plain _ _ rfl, nofun⟩

theorem jumpBack_inRange (functions slots target : Nat) :
    ∀ i ∈ jumpBack target, i.InRange functions slots := by
  intro i hi
  rw [jumpBack, List.mem_cons, List.mem_singleton] at hi
  rcases hi with rfl | rfl
  · exact Instruction.inRange_ldi _ _ _
  · exact Instruction.inRange_branch _ _ _

theorem jumpOver_inRange (functions slots target : Nat) :
    ∀ i ∈ jumpOver target, i.InRange functions slots := by
  intro i hi
  rw [jumpOver, List.mem_cons, List.mem_singleton] at hi
  rcases hi with rfl | rfl
  · exact Instruction.inRange_ldi _ _ _
  · exact Instruction.inRange_wideBranch _ _ _

mutual

/-- **The code of an action is in range.** -/
theorem Action.code_inRange (ht : t.WellTyped) (hfit : t.Compact) (hl : locals.length < 2 ^ 64) :
    ∀ {a : Action} {start : Nat}, a.WellTyped t.functions locals →
      ∀ i ∈ a.code t.functions start, i.InRange t.userFunctions.length locals.length
  | .evaluate e, start, ⟨ty, h⟩ => by
    intro i hi
    rw [Action.code, List.mem_append] at hi
    rcases hi with hi | hi
    · exact (h.code_straight ht hfit hl i hi).1
    · rw [mem_dropping hi]
      exact Instruction.inRange_plain _ _ rfl
  | .giveBack e, start, ⟨ty, h⟩ => by
    intro i hi
    rw [Action.code, List.mem_append, List.mem_singleton] at hi
    rcases hi with hi | rfl
    · exact (h.code_straight ht hfit hl i hi).1
    · exact Instruction.inRange_plain _ _ rfl
  | .when c body, start, ⟨hc, hbody⟩ => by
    intro i hi
    simp only [Action.code, List.mem_append, List.mem_singleton] at hi
    rcases hi with (hi | rfl) | hi
    · exact (conditionCode_straight ht hfit hl hc i hi).1
    · exact Instruction.inRange_wideBranch _ _ _
    · exact actionsCode_inRange ht hfit hl hbody i hi
  | .whenElse c body otherwise, start, ⟨hc, hbody, hother⟩ => by
    intro i hi
    simp only [Action.code, List.mem_append, List.mem_singleton] at hi
    rcases hi with (((hi | rfl) | hi) | hi) | hi
    · exact (conditionCode_straight ht hfit hl hc i hi).1
    · exact Instruction.inRange_wideBranch _ _ _
    · exact actionsCode_inRange ht hfit hl hbody i hi
    · exact jumpOver_inRange _ _ _ i hi
    · exact actionsCode_inRange ht hfit hl hother i hi
  | .loop c body, start, ⟨hc, hbody⟩ => by
    intro i hi
    simp only [Action.code, List.mem_append, List.mem_singleton] at hi
    rcases hi with (hi | rfl) | hi | hi
    · exact (conditionCode_straight ht hfit hl hc i hi).1
    · exact Instruction.inRange_wideBranch _ _ _
    · exact actionsCode_inRange ht hfit hl hbody i hi
    · exact jumpBack_inRange _ _ _ i hi

theorem actionsCode_inRange (ht : t.WellTyped) (hfit : t.Compact) (hl : locals.length < 2 ^ 64) :
    ∀ {as : List Action} {start : Nat}, ActionsWellTyped t.functions locals as →
      ∀ i ∈ actionsCode t.functions start as, i.InRange t.userFunctions.length locals.length
  | [], _, _ => by simp [actionsCode]
  | a :: as, start, ⟨h, hs⟩ => by
    rw [actionsCode]
    exact List.forall_mem_append.2 ⟨Action.code_inRange ht hfit hl h, actionsCode_inRange ht hfit hl hs⟩

end

end

/-! ## Functions -/

theorem Placed.slot_lt {locals : List Local} (h : Placed locals) {l : Local} (hl : l ∈ locals) :
    l.slot < locals.length := by
  obtain ⟨k, hk⟩ := List.mem_iff_getElem?.1 hl
  rw [h.slot k l hk]
  exact (List.getElem?_eq_some_iff.1 hk).1

theorem prologue_straight {locals : List Local} (hp : Placed locals) (hl : locals.length < 2 ^ 64)
    (functions : Nat) : ∀ i ∈ prologue locals, i.Straight functions locals.length := by
  intro i hi
  rw [prologue, List.mem_map] at hi
  obtain ⟨l, hmem, rfl⟩ := hi
  have hl' := (List.mem_filter.1 (List.mem_reverse.1 hmem)).1
  exact ⟨Instruction.inRange_slot _ (.inr rfl) (hp.slot_lt hl') hl, nofun⟩

theorem epilogue_eq {ty : Ty} (h : ty.IsValue) : epilogue ty = [.withOperand .ldi 0, .plain .ret] := by
  rw [epilogue, if_pos h.size_pos]
  rfl

theorem epilogue_ne_nil {ty : Ty} (h : ty.IsValue) : epilogue ty ≠ [] := by
  rw [epilogue_eq h]
  exact List.cons_ne_nil _ _

theorem epilogue_straight {ty : Ty} (h : ty.IsValue) (functions slots : Nat) :
    ∀ i ∈ epilogue ty, i.Straight functions slots := by
  intro i hi
  rw [epilogue_eq h, List.mem_cons, List.mem_singleton] at hi
  rcases hi with rfl | rfl
  · exact ⟨Instruction.inRange_ldi _ _ _, nofun⟩
  · exact ⟨Instruction.inRange_plain _ _ rfl, nofun⟩

section
variable {t : Tree} {f : Function}

/-- **The code of a function is in range.** -/
theorem Function.code_inRange (ht : t.WellTyped) (hfit : t.Compact) (hf : f ∈ t.userFunctions)
    (start : Nat) :
    ∀ i ∈ f.code t.functions start, i.InRange t.userFunctions.length f.locals.length := by
  have hl := hfit.locals f hf
  obtain ⟨hlaid, hbody⟩ := ht.laidOut hf
  intro i hi
  rw [Function.code_of_isUser (t.isUser_userFunctions f hf), List.mem_append, List.mem_append] at hi
  rcases hi with (hi | hi) | hi
  · exact (prologue_straight hlaid.placed hl _ i hi).1
  · exact actionsCode_inRange ht hfit hl hbody i hi
  · exact (epilogue_straight (ht.returnType f hf) _ _ i hi).1

/-- The last instruction of a function leaves it. -/
theorem Function.code_getLast? (ht : t.WellTyped) (hf : f ∈ t.userFunctions) (start : Nat) :
    (f.code t.functions start).getLast? = some (.plain .ret) := by
  rw [Function.code_of_isUser (t.isUser_userFunctions f hf), epilogue_eq (ht.returnType f hf)]
  simp

/-- A function with parameters begins by storing the last one. -/
theorem Function.code_eq_stl (ht : t.WellTyped) (hf : f ∈ t.userFunctions)
    (hsome : f.parameterTypes ≠ []) (start : Nat) :
    ∃ slot is, f.code t.functions start = .withOperand .stl slot :: is := by
  rw [Function.code_of_isUser (t.isUser_userFunctions f hf), prologue]
  have htypes := (ht.laidOut hf).1.filter_isParameter.2
  cases hps : (f.locals.filter Local.isParameter).reverse with
  | nil =>
    rw [List.reverse_eq_nil_iff.1 hps] at htypes
    exact absurd htypes.symm hsome
  | cons l ls => exact ⟨_, _, rfl⟩

end

end DanishProse
