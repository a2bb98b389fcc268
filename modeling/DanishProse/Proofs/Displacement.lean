/-
  Code of the same actions at two places.

  * `Instruction.Moved`: the same instruction, or a branch in either code, whose targets correspond;
  * `Action.code_moved`: wherever an action begins, it has the same instructions, but for the
    targets of branches.  These have as many instructions before them (`Abreast`).  How far apart
    they are may change: a branch back takes more bytes the further on its target is;
  * `emission_framed`: what the emitter leaves as it was, and what it adds.
-/
import DanishProse.Proofs.Patching
import DanishProse.Proofs.Recoding

namespace DanishProse

/-! ## Instructions -/

/-- The same instruction, but for where a branch goes; targets are kept in 64 bits. -/
inductive Instruction.Moved (targets : Nat → Nat → Prop) : Instruction → Instruction → Prop
  | same {i : Instruction} : i.opcode ≠ .br → Instruction.Moved targets i i
  | branch {x y : Nat} {w w' : Width} : targets x y →
      Instruction.Moved targets ⟨.br, x.toUInt64, w⟩ ⟨.br, y.toUInt64, w'⟩

/-- Two codes that are the same but for where branches go. -/
abbrev CodeMoved (targets : Nat → Nat → Prop) (is js : List Instruction) : Prop :=
  List.Forall₂ (Instruction.Moved targets) is js

section
variable {targets : Nat → Nat → Prop} {is js : List Instruction}

theorem CodeMoved.imp {more : Nat → Nat → Prop} (h : CodeMoved targets is js)
    (himp : ∀ x y, targets x y → more x y) : CodeMoved more is js := by
  refine List.Forall₂.imp (fun i j hij => ?_) h
  cases hij with
  | same hi => exact .same hi
  | branch htargets => exact .branch (himp _ _ htargets)

theorem wideBranch_moved {x y : Nat} (h : targets x y) : CodeMoved targets [wideBranch x] [wideBranch y] :=
  .cons (.branch h) .nil

theorem jumpOver_moved {x y : Nat} (h : targets x y) : CodeMoved targets (jumpOver x) (jumpOver y) :=
  .cons (.same nofun) (wideBranch_moved h)

theorem jumpBack_moved {x y : Nat} (h : targets x y) : CodeMoved targets (jumpBack x) (jumpBack y) :=
  .cons (.same nofun) (.cons (.branch h) .nil)

end

/-! ## Expressions -/

/-- An instruction that can be written down and goes on with the next one. -/
def Instruction.Sequential (i : Instruction) : Prop :=
  i.Encodable ∧ i.opcode ≠ .br

theorem Instruction.sequential_plain {op : OpCode} (h : op.hasOperand = false) : (plain op).Sequential :=
  ⟨encodable_plain h, by rintro rfl; cases h⟩

theorem Instruction.sequential_withOperand (op : OpCode) (h : op.hasOperand = true) (hop : op ≠ .br)
    (v : UInt64) : (withOperand op v).Sequential :=
  ⟨encodable_withOperand h v, hop⟩

section
variable {fs : List Function}

theorem invocation_sequential {f : Function} (h : ∀ op, f.role = .intrinsic op → op.hasOperand = false) :
    ∀ i ∈ f.role.invocation, i.Sequential := by
  cases hrole : f.role with
  | intrinsic op => exact List.forall_mem_singleton.2 (Instruction.sequential_plain (h op hrole))
  | user symbol _ _ => exact List.forall_mem_singleton.2 (Instruction.sequential_withOperand .call rfl nofun _)
  | native g => exact List.forall_mem_singleton.2 (Instruction.sequential_withOperand .call rfl nofun _)
  | assignment => nofun

theorem dropping_sequential (ty : Ty) : ∀ i ∈ dropping ty, i.Sequential := by
  intro i hi
  rw [mem_dropping hi]
  exact Instruction.sequential_plain rfl

mutual

theorem Expression.code_sequential (h : PlainIntrinsics fs) :
    ∀ (e : Expression), ∀ i ∈ e.code fs, i.Sequential
  | .literal v => List.forall_mem_singleton.2 (Instruction.sequential_withOperand .ldi rfl nofun v.cell)
  | .read slot _ => List.forall_mem_singleton.2 (Instruction.sequential_withOperand .ldl rfl nofun slot.toUInt64)
  | .assign slot e => List.forall_mem_append.2 ⟨e.code_sequential h,
      List.forall_mem_cons.2 ⟨Instruction.sequential_plain rfl,
        List.forall_mem_singleton.2 (Instruction.sequential_withOperand .stl rfl nofun slot.toUInt64)⟩⟩
  | .call index arguments _ => by
    rw [Expression.code]
    refine List.forall_mem_append.2 ⟨argumentsCode_sequential h arguments, ?_⟩
    cases hf : fs[index]? with
    | none => nofun
    | some f => exact invocation_sequential (h f (List.mem_of_getElem? hf))
  | .sequence items _ => sequenceCode_sequential h items
  | .unresolved _ => nofun

theorem argumentsCode_sequential (h : PlainIntrinsics fs) :
    ∀ (es : List Expression), ∀ i ∈ argumentsCode fs es, i.Sequential
  | [] => nofun
  | e :: es => List.forall_mem_append.2 ⟨e.code_sequential h, argumentsCode_sequential h es⟩

theorem sequenceCode_sequential (h : PlainIntrinsics fs) :
    ∀ (es : List Expression), ∀ i ∈ sequenceCode fs es, i.Sequential
  | [] => nofun
  | [e] => e.code_sequential h
  | e :: d :: es => List.forall_mem_append.2 ⟨List.forall_mem_append.2
      ⟨e.code_sequential h, dropping_sequential e.type⟩, sequenceCode_sequential h (d :: es)⟩

end

theorem conditionCode_sequential (h : PlainIntrinsics fs) (c : Expression) :
    ∀ i ∈ conditionCode fs c, i.Sequential :=
  List.forall_mem_append.2 ⟨c.code_sequential h,
    List.forall_mem_singleton.2 (Instruction.sequential_plain rfl)⟩

theorem moved_of_sequential {targets : Nat → Nat → Prop} {is : List Instruction}
    (h : ∀ i ∈ is, i.Sequential) : CodeMoved targets is is :=
  List.forall₂_same.2 fun i hi => .same (h i hi).2

/-! ## Actions -/

mutual

/-- **The code of an action, wherever it begins.** -/
theorem Action.code_moved (h : PlainIntrinsics fs) : ∀ (a : Action) (start start' : Nat),
    CodeMoved (Abreast start start' (a.code fs start) (a.code fs start')) (a.code fs start) (a.code fs start')
  | .evaluate e, start, start' => by
    rw [Action.code, Action.code]
    exact moved_of_sequential (List.forall_mem_append.2 ⟨e.code_sequential h, dropping_sequential e.type⟩)
  | .giveBack e, start, start' => by
    rw [Action.code, Action.code]
    exact moved_of_sequential (List.forall_mem_append.2 ⟨e.code_sequential h,
      List.forall_mem_singleton.2 (Instruction.sequential_plain rfl)⟩)
  | .when c body, start, start' => by
    have hinner := actionsCode_moved h body (bodyStart fs start c) (bodyStart fs start' c)
    have hlast := Abreast.last start start' (Action.code fs start (.when c body))
      (Action.code fs start' (.when c body)) (by simp [code_when, hinner.length_eq])
    rw [codeEnd_when, codeEnd_when] at hlast
    exact List.rel_append (List.rel_append (moved_of_sequential (conditionCode_sequential h c))
      (wideBranch_moved hlast)) (hinner.imp fun _ _ => .when_body rfl)
  | .whenElse c body otherwise, start, start' => by
    have hinner := actionsCode_moved h body (bodyStart fs start c) (bodyStart fs start' c)
    have hother := actionsCode_moved h otherwise (elseStart fs start c body) (elseStart fs start' c body)
    have hlast := Abreast.last start start' (Action.code fs start (.whenElse c body otherwise))
      (Action.code fs start' (.whenElse c body otherwise))
      (by simp [code_whenElse, hinner.length_eq, hother.length_eq, jumpOver])
    rw [codeEnd_whenElse, codeEnd_whenElse] at hlast
    refine List.rel_append (List.rel_append (List.rel_append (List.rel_append
      (moved_of_sequential (conditionCode_sequential h c)) (wideBranch_moved ?_))
      (hinner.imp fun _ _ => .whenElse_body rfl)) (jumpOver_moved hlast))
      (hother.imp fun _ _ => .whenElse_otherwise rfl hinner.length_eq)
    exact .whenElse_otherwise rfl hinner.length_eq (.start _ _ _ _)
  | .loop c body, start, start' => by
    have hinner := actionsCode_moved h body (bodyStart fs start c) (bodyStart fs start' c)
    have hlast := Abreast.last start start' (Action.code fs start (.loop c body))
      (Action.code fs start' (.loop c body)) (by simp [code_loop, hinner.length_eq, jumpBack])
    rw [codeEnd_loop, codeEnd_loop] at hlast
    exact List.rel_append (List.rel_append (moved_of_sequential (conditionCode_sequential h c))
      (wideBranch_moved hlast)) (List.rel_append (hinner.imp fun _ _ => .loop_body rfl)
      (jumpBack_moved (.start _ _ _ _)))

theorem actionsCode_moved (h : PlainIntrinsics fs) : ∀ (as : List Action) (start start' : Nat),
    CodeMoved (Abreast start start' (actionsCode fs start as) (actionsCode fs start' as))
      (actionsCode fs start as) (actionsCode fs start' as)
  | [], _, _ => .nil
  | a :: as, start, start' => by
    have hfirst := a.code_moved h start start'
    have hrest := actionsCode_moved h as (start + codeSize (a.code fs start))
      (start' + codeSize (a.code fs start'))
    rw [actionsCode, actionsCode]
    refine List.rel_append (hfirst.imp fun x y => ?_) (hrest.imp fun x y => ?_)
    · exact Abreast.within [] _ [] _ rfl rfl rfl rfl rfl
    · exact Abreast.within _ [] _ [] (List.append_nil _).symm (List.append_nil _).symm hfirst.length_eq rfl rfl

end

/-! ## Reading back -/

theorem encodable_jumpOver (target : Nat) : ∀ i ∈ jumpOver target, i.Encodable :=
  List.forall_mem_cons.2 ⟨Instruction.encodable_withOperand rfl _,
    List.forall_mem_singleton.2 (Instruction.encodable_wideBranch target)⟩

theorem encodable_jumpBack (target : Nat) : ∀ i ∈ jumpBack target, i.Encodable :=
  List.forall_mem_cons.2 ⟨Instruction.encodable_withOperand rfl _,
    List.forall_mem_singleton.2 (Instruction.encodable_withOperand rfl _)⟩

theorem encodable_head (h : PlainIntrinsics fs) (c : Expression) (target : Nat) :
    ∀ i ∈ conditionCode fs c ++ [wideBranch target], i.Encodable :=
  List.forall_mem_append.2 ⟨fun i hi => (conditionCode_sequential h c i hi).1,
    List.forall_mem_singleton.2 (Instruction.encodable_wideBranch target)⟩

mutual

theorem Action.code_encodable (h : PlainIntrinsics fs) : ∀ (a : Action) (start : Nat),
    ∀ i ∈ a.code fs start, i.Encodable
  | .evaluate e, _ => List.forall_mem_append.2 ⟨fun i hi => (e.code_sequential h i hi).1,
      fun i hi => (dropping_sequential e.type i hi).1⟩
  | .giveBack e, _ => List.forall_mem_append.2 ⟨fun i hi => (e.code_sequential h i hi).1,
      List.forall_mem_singleton.2 (Instruction.encodable_plain rfl)⟩
  | .when c body, start => by
    rw [code_when]
    exact List.forall_mem_append.2 ⟨encodable_head h c _, actionsCode_encodable h body _⟩
  | .whenElse c body otherwise, start => by
    rw [code_whenElse]
    exact List.forall_mem_append.2 ⟨List.forall_mem_append.2 ⟨List.forall_mem_append.2
      ⟨encodable_head h c _, actionsCode_encodable h body _⟩, encodable_jumpOver _⟩,
        actionsCode_encodable h otherwise _⟩
  | .loop c body, start => by
    rw [code_loop]
    exact List.forall_mem_append.2 ⟨encodable_head h c _,
      List.forall_mem_append.2 ⟨actionsCode_encodable h body _, encodable_jumpBack start⟩⟩

theorem actionsCode_encodable (h : PlainIntrinsics fs) : ∀ (as : List Action) (start : Nat),
    ∀ i ∈ actionsCode fs start as, i.Encodable
  | [], _ => nofun
  | a :: as, start => List.forall_mem_append.2 ⟨a.code_encodable h start, actionsCode_encodable h as _⟩

end

end

/-- **Code is added behind what is there, and depends on where it begins only in its branches.**
    The emitter writes the program of a tree.  Every action and every list of actions leaves the
    symbols and the code as they were and adds its own code, which is read as its instructions.
    Placeholders in this code are patched once each, and nothing else is.  At another place there
    are the same instructions, with branches to the places that correspond. -/
theorem emission_framed {t : Tree} (h : PlainIntrinsics t.functions) :
    t.emitted = t.program ∧
    (∀ (a : Action) (s : Emitter), Emits s (a.emit t.functions s) (a.code t.functions s.position) []) ∧
    (∀ (as : List Action) (s : Emitter),
      let is := actionsCode t.functions s.position as
      let s' := actionsEmit t.functions as s
      Emits s s' is [] ∧ Program.CodeAt ⟨s'.symbols, s'.code.toArray⟩ s.position is) ∧
    ∀ (as : List Action) (start start' : Nat),
      let is := actionsCode t.functions start as
      let js := actionsCode t.functions start' as
      CodeMoved (Abreast start start' is js) is js := by
  refine ⟨Tree.emitted_eq h, Action.emit_emits h, fun as s => ?_, actionsCode_moved h⟩
  have hemits := actionsEmit_emits h as s
  refine ⟨hemits, ?_⟩
  have hcode := codeAt_of_encodable (actionsEmit t.functions as s).symbols []
    (actionsCode t.functions s.position as) s.code (actionsCode_encodable h as s.position)
  rwa [List.append_nil, ← hemits.code] at hcode

/-- A loop around a choice, behind three bytes and behind 256 of them: the branch back takes one
    byte more there. -/
theorem emission_framed_nested :
    let negation : Function := { pattern := ⟨[]⟩, returnName := "", role := .intrinsic .not }
    let c : Expression := .call 0 [.read 0 .boolean] .boolean
    let as : List Action := [.loop c [.whenElse c [.evaluate (.literal (.integer 7))] [.giveBack c]]]
    let s : Emitter := ⟨[⟨1, 8, 0⟩], [25, 2, 0], []⟩
    let is := actionsCode [negation] 3 as
    let js := actionsCode [negation] 256 as
    let s' := actionsEmit [negation] as s
    Emits s s' is [] ∧ Program.CodeAt ⟨s'.symbols, s'.code.toArray⟩ 3 is ∧ s'.log.length = 6 ∧
      CodeMoved (Abreast 3 256 is js) is js ∧ codeSize js = codeSize is + 1 := by
  intro negation c as s is js s'
  have hplain : PlainIntrinsics (Tree.functions ⟨[negation]⟩) := by
    rintro f hf op hrole
    rw [List.mem_singleton.1 hf] at hrole
    cases hrole
    rfl
  obtain ⟨-, -, hemits, hmoved⟩ := emission_framed hplain
  exact ⟨(hemits as s).1, (hemits as s).2, by decide, hmoved as 3 256, by decide⟩

end DanishProse
