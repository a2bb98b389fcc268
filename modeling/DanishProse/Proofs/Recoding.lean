/-
  Code of expressions and actions among functions that correspond.

  The code of an expression refers to functions only in its calls, and that of an
  action to places only in its branches.

  * `Recodes R ρ fs gs`: the function of `gs` at the place that `ρ` gives is called by
    code that `R` relates, instruction by instruction, to that for `fs`;
  * `HasType.code_renamed`: `R` relates the code of an expression to that with its
    calls renamed;
  * `SameCalls fs gs`: calls among `gs` have the code that they have among `fs`.
    Then so have all actions and functions (`Function.code_congr`);
  * `Instruction.Alike calls targets`: the same instruction, but for a call or a
    branch.  The code of actions is alike in this way wherever it begins, with
    branches to places that have as many instructions before them (`Abreast`).
-/
import DanishProse.Proofs.Correspondence
import DanishProse.Proofs.Operands

namespace DanishProse

/-! ## Expressions -/

/-- Functions that are called by code like that for their counterparts. -/
structure Recodes (R : Instruction → Instruction → Prop) (ρ : Nat → Nat) (fs gs : List Function) :
    Prop where
  other : ∀ i : Instruction, i.opcode ≠ .call → i.opcode ≠ .br → R i i
  call : ∀ (k : Nat) (f : Function), fs[k]? = some f →
    ∃ g, gs[ρ k]? = some g ∧ List.Forall₂ R f.role.invocation g.role.invocation

section
variable {R : Instruction → Instruction → Prop} {ρ : Nat → Nat} {fs gs : List Function}
  {locals : List Local}

/-- Code without calls and branches is related to itself. -/
theorem Recodes.refl (h : Recodes R ρ fs gs) {is : List Instruction}
    (his : ∀ i ∈ is, i.opcode ≠ .call ∧ i.opcode ≠ .br) : List.Forall₂ R is is :=
  List.forall₂_same.2 fun i hi => h.other i (his i hi).1 (his i hi).2

theorem Recodes.dropping (h : Recodes R ρ fs gs) (ty : Ty) :
    List.Forall₂ R (dropping ty) (dropping ty) := by
  refine h.refl fun i hi => ?_
  rw [mem_dropping hi]
  decide

mutual

/-- **Code with its calls renamed.** -/
theorem HasType.code_renamed (h : Recodes R ρ fs gs) : ∀ {e : Expression} {ty : Ty},
    HasType fs locals e ty → List.Forall₂ R (e.code fs) ((e.renamed ρ).code gs)
  | _, _, .literal v => .cons (h.other (.withOperand .ldi v.cell) nofun nofun) .nil
  | _, _, @HasType.read _ _ slot _ _ =>
    .cons (h.other (.withOperand .ldl slot.toUInt64) nofun nofun) .nil
  | _, _, @HasType.assign _ _ slot _ _ _ he => by
    rw [Expression.renamed, Expression.code, Expression.code]
    refine List.rel_append (HasType.code_renamed h he) (.cons (h.other (.plain .dup) nofun nofun) ?_)
    exact .cons (h.other (.withOperand .stl slot.toUInt64) nofun nofun) .nil
  | _, _, .call hf _ hs => by
    obtain ⟨g, hg, hinvocation⟩ := h.call _ _ hf
    rw [Expression.renamed, Expression.code, Expression.code, hf, hg]
    exact List.rel_append (HasTypes.argumentsCode_renamed h hs) hinvocation
  | _, _, .sequence _ hs _ => by
    rw [Expression.renamed, Expression.code, Expression.code]
    exact HasTypes.sequenceCode_renamed h hs

theorem HasTypes.argumentsCode_renamed (h : Recodes R ρ fs gs) : ∀ {es : List Expression} {tys : List Ty},
    HasTypes fs locals es tys →
      List.Forall₂ R (argumentsCode fs es) (argumentsCode gs (expressionsRenamed ρ es))
  | _, _, .nil => .nil
  | _, _, .cons he hs => by
    rw [expressionsRenamed, argumentsCode, argumentsCode]
    exact List.rel_append (HasType.code_renamed h he) (HasTypes.argumentsCode_renamed h hs)

theorem HasTypes.sequenceCode_renamed (h : Recodes R ρ fs gs) : ∀ {es : List Expression} {tys : List Ty},
    HasTypes fs locals es tys →
      List.Forall₂ R (sequenceCode fs es) (sequenceCode gs (expressionsRenamed ρ es))
  | _, _, .nil => .nil
  | _, _, .cons he .nil => by
    rw [expressionsRenamed, expressionsRenamed, sequenceCode, sequenceCode]
    exact HasType.code_renamed h he
  | _, _, .cons he (.cons hd hs) => by
    have hrest := HasTypes.sequenceCode_renamed h (.cons hd hs)
    rw [expressionsRenamed] at hrest
    rw [expressionsRenamed, expressionsRenamed, sequenceCode, sequenceCode, Expression.type_renamed]
    exact List.rel_append (List.rel_append (HasType.code_renamed h he) (h.dropping _)) hrest

end

theorem conditionCode_renamed (h : Recodes R ρ fs gs) {c : Expression} {ty : Ty}
    (hc : HasType fs locals c ty) :
    List.Forall₂ R (conditionCode fs c) (conditionCode gs (c.renamed ρ)) :=
  List.rel_append (hc.code_renamed h) (.cons (h.other (.plain .not) nofun nofun) .nil)

end

/-! ## The same calls -/

/-- Calls have the same code among the functions of both lists. -/
def SameCalls (fs gs : List Function) : Prop :=
  Recodes Eq id fs gs

section
variable {fs gs : List Function} {locals : List Local}

theorem HasType.code_congr (h : SameCalls fs gs) {e : Expression} {ty : Ty} (he : HasType fs locals e ty) :
    e.code gs = e.code fs := by
  have hcode := HasType.code_renamed h he
  rw [List.forall₂_eq_eq_eq, e.renamed_id] at hcode
  exact hcode.symm

theorem conditionCode_congr (h : SameCalls fs gs) {c : Expression} {ty : Ty} (hc : HasType fs locals c ty) :
    conditionCode gs c = conditionCode fs c := by
  rw [conditionCode, conditionCode, hc.code_congr h]

mutual

theorem Action.code_congr (h : SameCalls fs gs) : ∀ {a : Action}, a.WellTyped fs locals →
    ∀ start, a.code gs start = a.code fs start
  | .evaluate e, ⟨_, he⟩, _ => by rw [Action.code, Action.code, he.code_congr h]
  | .giveBack e, ⟨_, he⟩, _ => by rw [Action.code, Action.code, he.code_congr h]
  | .when c body, ⟨⟨_, hc⟩, hbody⟩, start => by
    simp only [Action.code, conditionCode_congr h hc, actionsCode_congr h hbody]
  | .whenElse c body otherwise, ⟨⟨_, hc⟩, hbody, hotherwise⟩, start => by
    simp only [Action.code, conditionCode_congr h hc, actionsCode_congr h hbody,
      actionsCode_congr h hotherwise]
  | .loop c body, ⟨⟨_, hc⟩, hbody⟩, start => by
    simp only [Action.code, conditionCode_congr h hc, actionsCode_congr h hbody]

theorem actionsCode_congr (h : SameCalls fs gs) : ∀ {as : List Action}, ActionsWellTyped fs locals as →
    ∀ start, actionsCode gs start as = actionsCode fs start as
  | [], _, _ => rfl
  | a :: as, ⟨ha, has⟩, start => by
    simp only [actionsCode, Action.code_congr h ha, actionsCode_congr h has]

end

theorem Function.code_congr (h : SameCalls fs gs) {f : Function} (hf : f.WellTyped fs) (start : Nat) :
    f.code gs start = f.code fs start := by
  unfold Function.WellTyped at hf
  unfold Function.code
  cases hrole : f.role with
  | user symbol locals body =>
    rw [hrole] at hf
    dsimp only
    rw [actionsCode_congr h hf.2]
  | _ => rfl

end

/-! ## Assembly -/

theorem prologue_alike {ls ms : List Local} (h : List.Forall₂ Local.Alike ls ms) :
    prologue ms = prologue ls := by
  have hslots : (ms.filter Local.isParameter).map Local.slot = (ls.filter Local.isParameter).map Local.slot := by
    induction h with
    | nil => rfl
    | @cons l m ls ms hl _ ih =>
      rw [List.filter_cons, List.filter_cons, hl.isParameter]
      split_ifs
      · rw [List.map_cons, List.map_cons, hl.slot, ih]
      · exact ih
  have hcode (ls : List Local) : prologue ls =
      ((ls.filter Local.isParameter).map Local.slot).reverse.map fun slot =>
        .withOperand .stl slot.toUInt64 := by
    rw [prologue, ← List.map_reverse, List.map_map]
    rfl
  rw [hcode, hcode, hslots]

theorem assemble_append (fs : List Function) (start : Nat) (as bs : List Function) :
    let first := assemble fs start as
    let more := assemble fs (start + codeSize first.code) bs
    assemble fs start (as ++ bs) = ⟨first.symbols ++ more.symbols, first.code ++ more.code⟩ := by
  induction as generalizing start with
  | nil => rfl
  | cons a as ih =>
    simp only [List.cons_append, assemble]
    rw [ih]
    simp only [codeSize_append, Nat.add_assoc, List.append_assoc]

/-- Functions that stand one for one for others: they have the same symbols and the
    same code. -/
theorem assemble_congr {fs gs as bs : List Function}
    (h : List.Forall₂ (fun a b => ∀ start, b.symbolAt start = a.symbolAt start ∧
      b.code gs start = a.code fs start) as bs) (start : Nat) :
    assemble gs start bs = assemble fs start as := by
  induction h generalizing start with
  | nil => rfl
  | cons hab _ ih =>
    obtain ⟨hsymbol, hcode⟩ := hab start
    simp only [assemble, hsymbol, hcode, ih]

/-! ## Instructions that correspond -/

/-- The same instruction, but for where a call or a branch goes. -/
inductive Instruction.Alike (calls targets : Nat → Nat → Prop) : Instruction → Instruction → Prop
  | same {i : Instruction} : i.opcode ≠ .call → i.opcode ≠ .br → Instruction.Alike calls targets i i
  | call {v v' : UInt64} {w w' : Width} : calls v.toNat v'.toNat →
      Instruction.Alike calls targets ⟨.call, v, w⟩ ⟨.call, v', w'⟩
  | branch {v v' : UInt64} {w w' : Width} : targets v.toNat v'.toNat →
      Instruction.Alike calls targets ⟨.br, v, w⟩ ⟨.br, v', w'⟩

/-- Two codes that are alike instruction by instruction. -/
abbrev CodeAlike (calls targets : Nat → Nat → Prop) (is js : List Instruction) : Prop :=
  List.Forall₂ (Instruction.Alike calls targets) is js

/-- Offsets of two codes that begin at `o` and at `o'`, with as many instructions before them. -/
def Abreast (o o' : Nat) (is js : List Instruction) (x y : Nat) : Prop :=
  ∃ pre post pre' post', is = pre ++ post ∧ js = pre' ++ post' ∧ pre.length = pre'.length ∧
    x = o + codeSize pre ∧ y = o' + codeSize pre'

section
variable {calls targets : Nat → Nat → Prop} {o o' x y : Nat} {is js : List Instruction}

theorem CodeAlike.imp {more : Nat → Nat → Prop} (h : CodeAlike calls targets is js)
    (himp : ∀ x y, targets x y → more x y) : CodeAlike calls more is js := by
  refine List.Forall₂.imp (fun i j hij => ?_) h
  cases hij with
  | same hcall hbr => exact .same hcall hbr
  | call hcalls => exact .call hcalls
  | branch htargets => exact .branch (himp _ _ htargets)

theorem Abreast.start (o o' : Nat) (is js : List Instruction) : Abreast o o' is js o o' :=
  ⟨[], is, [], js, rfl, rfl, rfl, rfl, rfl⟩

theorem Abreast.last (o o' : Nat) (is js : List Instruction) (h : is.length = js.length) :
    Abreast o o' is js (o + codeSize is) (o' + codeSize js) :=
  ⟨is, [], js, [], (List.append_nil is).symm, (List.append_nil js).symm, h, rfl, rfl⟩

/-- Offsets abreast in parts are abreast in the whole. -/
theorem Abreast.within {p p' : Nat} {whole whole' : List Instruction} (pre post pre' post' : List Instruction)
    (hwhole : whole = pre ++ is ++ post) (hwhole' : whole' = pre' ++ js ++ post')
    (hlen : pre.length = pre'.length) (hp : p = o + codeSize pre) (hp' : p' = o' + codeSize pre')
    (h : Abreast p p' is js x y) : Abreast o o' whole whole' x y := by
  subst hwhole hwhole' hp hp'
  obtain ⟨front, rest, front', rest', rfl, rfl, hfront, rfl, rfl⟩ := h
  refine ⟨pre ++ front, rest ++ post, pre' ++ front', rest' ++ post', by simp, by simp, ?_, ?_, ?_⟩
  · rw [List.length_append, List.length_append, hlen, hfront]
  · rw [codeSize_append, Nat.add_assoc]
  · rw [codeSize_append, Nat.add_assoc]

theorem wideBranch_alike {n n' : Nat} (hn : n < 2 ^ 64) (hn' : n' < 2 ^ 64) (h : targets n n') :
    CodeAlike calls targets [wideBranch n] [wideBranch n'] := by
  refine .cons (.branch ?_) .nil
  rwa [Instruction.toNat_toUInt64 hn, Instruction.toNat_toUInt64 hn']

theorem jumpOver_alike {n n' : Nat} (hn : n < 2 ^ 64) (hn' : n' < 2 ^ 64) (h : targets n n') :
    CodeAlike calls targets (jumpOver n) (jumpOver n') :=
  .cons (.same nofun nofun) (wideBranch_alike hn hn' h)

theorem jumpBack_alike {n n' : Nat} (hn : n < 2 ^ 64) (hn' : n' < 2 ^ 64) (h : targets n n') :
    CodeAlike calls targets (jumpBack n) (jumpBack n') := by
  refine .cons (.same nofun nofun) (.cons (.branch ?_) .nil)
  rwa [Instruction.toNat_toUInt64 hn, Instruction.toNat_toUInt64 hn']

end

section
variable {fs gs : List Function} {start start' x y : Nat} {c c' : Expression}
  {body body' otherwise otherwise' : List Action}

/-! Offsets abreast in what hangs on a condition are abreast in the whole action. -/

theorem Abreast.when_body (hhead : (conditionCode fs c).length = (conditionCode gs c').length)
    (h : Abreast (bodyStart fs start c) (bodyStart gs start' c') (actionsCode fs (bodyStart fs start c) body)
      (actionsCode gs (bodyStart gs start' c') body') x y) :
    Abreast start start' (Action.code fs start (.when c body)) (Action.code gs start' (.when c' body')) x y := by
  rw [code_when, code_when]
  exact Abreast.within _ [] _ [] (List.append_nil _).symm (List.append_nil _).symm (by simp [hhead])
    (codeEnd_head _ _ _ _).symm (codeEnd_head _ _ _ _).symm h

theorem Abreast.whenElse_body (hhead : (conditionCode fs c).length = (conditionCode gs c').length)
    (h : Abreast (bodyStart fs start c) (bodyStart gs start' c') (actionsCode fs (bodyStart fs start c) body)
      (actionsCode gs (bodyStart gs start' c') body') x y) :
    Abreast start start' (Action.code fs start (.whenElse c body otherwise))
      (Action.code gs start' (.whenElse c' body' otherwise')) x y := by
  rw [code_whenElse, code_whenElse]
  exact Abreast.within _ _ _ _ (List.append_assoc _ _ _) (List.append_assoc _ _ _) (by simp [hhead])
    (codeEnd_head _ _ _ _).symm (codeEnd_head _ _ _ _).symm h

theorem Abreast.whenElse_otherwise (hhead : (conditionCode fs c).length = (conditionCode gs c').length)
    (hbody : (actionsCode fs (bodyStart fs start c) body).length =
      (actionsCode gs (bodyStart gs start' c') body').length)
    (h : Abreast (elseStart fs start c body) (elseStart gs start' c' body')
      (actionsCode fs (elseStart fs start c body) otherwise)
      (actionsCode gs (elseStart gs start' c' body') otherwise') x y) :
    Abreast start start' (Action.code fs start (.whenElse c body otherwise))
      (Action.code gs start' (.whenElse c' body' otherwise')) x y := by
  rw [code_whenElse, code_whenElse]
  exact Abreast.within _ [] _ [] (List.append_nil _).symm (List.append_nil _).symm
    (by simp [hhead, hbody, jumpOver]) (codeEnd_body _ _ _ _ _ _).symm (codeEnd_body _ _ _ _ _ _).symm h

theorem Abreast.loop_body (hhead : (conditionCode fs c).length = (conditionCode gs c').length)
    (h : Abreast (bodyStart fs start c) (bodyStart gs start' c') (actionsCode fs (bodyStart fs start c) body)
      (actionsCode gs (bodyStart gs start' c') body') x y) :
    Abreast start start' (Action.code fs start (.loop c body)) (Action.code gs start' (.loop c' body')) x y := by
  rw [code_loop, code_loop]
  exact Abreast.within _ _ _ _ (List.append_assoc _ _ _).symm (List.append_assoc _ _ _).symm (by simp [hhead])
    (codeEnd_head _ _ _ _).symm (codeEnd_head _ _ _ _).symm h

end

/-! ## Actions -/

section
variable {calls : Nat → Nat → Prop} {ρ : Nat → Nat} {fs gs : List Function} {locals : List Local}

mutual

/-- **The code of an action, wherever it begins, with its calls renamed.** -/
theorem Action.code_renamed (h : ∀ targets, Recodes (Instruction.Alike calls targets) ρ fs gs) :
    ∀ {a : Action}, a.WellTyped fs locals → ∀ start start',
      start + codeSize (a.code fs start) < 2 ^ 64 →
        start' + codeSize ((a.renamed ρ).code gs start') < 2 ^ 64 →
          CodeAlike calls (Abreast start start' (a.code fs start) ((a.renamed ρ).code gs start'))
            (a.code fs start) ((a.renamed ρ).code gs start')
  | .evaluate e, ⟨_, he⟩, start, start', _, _ => by
    rw [Action.renamed, Action.code, Action.code, e.type_renamed ρ]
    exact List.rel_append (he.code_renamed (h _)) ((h _).dropping _)
  | .giveBack e, ⟨_, he⟩, _, _, _, _ =>
    List.rel_append (he.code_renamed (h _)) (.cons (.same nofun nofun) .nil)
  | .when c body, ⟨⟨_, hc⟩, hbody⟩, start, start', hend, hend' => by
    rw [Action.renamed] at hend' ⊢
    rw [codeEnd_when] at hend hend'
    have hinner := actionsCode_renamed h hbody _ _ hend hend'
    have hhead := (conditionCode_renamed (h fun _ _ => True) hc).length_eq
    have hlast := Abreast.last start start' (Action.code fs start (.when c body))
      (Action.code gs start' (.when (c.renamed ρ) (actionsRenamed ρ body)))
      (by rw [code_when, code_when]; simp [hhead, hinner.length_eq])
    rw [codeEnd_when, codeEnd_when] at hlast
    exact List.rel_append (List.rel_append (conditionCode_renamed (h _) hc)
      (wideBranch_alike hend hend' hlast)) (hinner.imp fun _ _ => .when_body hhead)
  | .whenElse c body otherwise, ⟨⟨_, hc⟩, hbody, hotherwise⟩, start, start', hend, hend' => by
    rw [Action.renamed] at hend' ⊢
    rw [codeEnd_whenElse] at hend hend'
    have helse := Nat.lt_of_le_of_lt (Nat.le_add_right _ _) hend
    have helse' := Nat.lt_of_le_of_lt (Nat.le_add_right _ _) hend'
    have hinner := actionsCode_renamed h hbody (bodyStart fs start c) (bodyStart gs start' (c.renamed ρ))
      (Nat.lt_of_le_of_lt (Nat.le_add_right _ _) helse) (Nat.lt_of_le_of_lt (Nat.le_add_right _ _) helse')
    have hother := actionsCode_renamed h hotherwise _ _ hend hend'
    have hhead := (conditionCode_renamed (h fun _ _ => True) hc).length_eq
    have hlast := Abreast.last start start' (Action.code fs start (.whenElse c body otherwise))
      (Action.code gs start'
        (.whenElse (c.renamed ρ) (actionsRenamed ρ body) (actionsRenamed ρ otherwise)))
      (by rw [code_whenElse, code_whenElse]; simp [hhead, hinner.length_eq, hother.length_eq, jumpOver])
    rw [codeEnd_whenElse, codeEnd_whenElse] at hlast
    refine List.rel_append (List.rel_append (List.rel_append (List.rel_append
      (conditionCode_renamed (h _) hc) (wideBranch_alike helse helse' ?_))
      (hinner.imp fun _ _ => .whenElse_body hhead)) (jumpOver_alike hend hend' hlast))
      (hother.imp fun _ _ => .whenElse_otherwise hhead hinner.length_eq)
    exact .whenElse_otherwise hhead hinner.length_eq (.start _ _ _ _)
  | .loop c body, ⟨⟨_, hc⟩, hbody⟩, start, start', hend, hend' => by
    have hstart := Nat.lt_of_le_of_lt (Nat.le_add_right start _) hend
    have hstart' := Nat.lt_of_le_of_lt (Nat.le_add_right start' _) hend'
    rw [Action.renamed] at hend' ⊢
    rw [codeEnd_loop] at hend hend'
    have hinner := actionsCode_renamed h hbody (bodyStart fs start c) (bodyStart gs start' (c.renamed ρ))
      (by rw [codeSize_append] at hend; omega) (by rw [codeSize_append] at hend'; omega)
    have hhead := (conditionCode_renamed (h fun _ _ => True) hc).length_eq
    have hlast := Abreast.last start start' (Action.code fs start (.loop c body))
      (Action.code gs start' (.loop (c.renamed ρ) (actionsRenamed ρ body)))
      (by rw [code_loop, code_loop]; simp [hhead, hinner.length_eq, jumpBack])
    rw [codeEnd_loop, codeEnd_loop] at hlast
    exact List.rel_append (List.rel_append (conditionCode_renamed (h _) hc)
      (wideBranch_alike hend hend' hlast)) (List.rel_append (hinner.imp fun _ _ => .loop_body hhead)
      (jumpBack_alike hstart hstart' (Abreast.start _ _ _ _)))

theorem actionsCode_renamed (h : ∀ targets, Recodes (Instruction.Alike calls targets) ρ fs gs) :
    ∀ {as : List Action}, ActionsWellTyped fs locals as → ∀ start start',
      start + codeSize (actionsCode fs start as) < 2 ^ 64 →
        start' + codeSize (actionsCode gs start' (actionsRenamed ρ as)) < 2 ^ 64 →
          CodeAlike calls
            (Abreast start start' (actionsCode fs start as) (actionsCode gs start' (actionsRenamed ρ as)))
            (actionsCode fs start as) (actionsCode gs start' (actionsRenamed ρ as))
  | [], _, _, _, _, _ => .nil
  | a :: as, ⟨ha, has⟩, start, start', hend, hend' => by
    simp only [actionsRenamed, actionsCode, codeSize_append] at hend hend' ⊢
    have hfirst := Action.code_renamed h ha start start' (by omega) (by omega)
    have hrest := actionsCode_renamed h has (start + codeSize (a.code fs start))
      (start' + codeSize ((a.renamed ρ).code gs start')) (by omega) (by omega)
    refine List.rel_append (hfirst.imp fun x y => ?_) (hrest.imp fun x y => ?_)
    · exact Abreast.within [] _ [] _ rfl rfl rfl rfl rfl
    · exact Abreast.within _ [] _ [] (List.append_nil _).symm (List.append_nil _).symm hfirst.length_eq rfl rfl

end

end

end DanishProse
