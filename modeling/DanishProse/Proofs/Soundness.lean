/-
  Checked trees, expression by expression.

  * `Expression.nodes` are an expression and all expressions inside it, and
    `Function.nodes` are those of a whole body;
  * `Expression.Sound` says what one of them is like: what it refers to is there,
    and the types on both sides of it agree.  Nothing unresolved is sound;
  * `checker_sound`: if nothing was reported, all nodes of all bodies are sound and
    have types that can be named, and so have the functions themselves.
-/
import Mathlib.Tactic.Common
import DanishProse.Proofs.Layout

namespace DanishProse

/-! ## Nodes -/

mutual

/-- An expression, and all expressions inside it. -/
def Expression.nodes : Expression → List Expression
  | .literal v => [.literal v]
  | .read slot ty => [.read slot ty]
  | .assign slot e => .assign slot e :: e.nodes
  | .call index arguments ty => .call index arguments ty :: nodesOf arguments
  | .sequence items ty => .sequence items ty :: nodesOf items
  | .unresolved arguments => .unresolved arguments :: nodesOf arguments

/-- The nodes of expressions. -/
def nodesOf : List Expression → List Expression
  | [] => []
  | e :: es => e.nodes ++ nodesOf es

end

mutual

/-- The nodes of all expressions of an action. -/
def Action.nodes : Action → List Expression
  | .evaluate e => e.nodes
  | .giveBack e => e.nodes
  | .when c body => c.nodes ++ actionsNodes body
  | .whenElse c body otherwise => c.nodes ++ actionsNodes body ++ actionsNodes otherwise
  | .loop c body => c.nodes ++ actionsNodes body

/-- The nodes of actions. -/
def actionsNodes : List Action → List Expression
  | [] => []
  | a :: as => a.nodes ++ actionsNodes as

end

/-- The nodes of the body of a function. -/
def Function.nodes (f : Function) : List Expression :=
  actionsNodes f.body

/-! ## Sound nodes -/

/-- What a node is like beside the functions `fs` and the locals `locals`. -/
inductive Expression.Sound (fs : List Function) (locals : List Local) : Expression → Prop
  | literal (v : Literal) : Sound fs locals (.literal v)
  | read {slot : Nat} {l : Local} : locals[slot]? = some l → Sound fs locals (.read slot l.type)
  /-- What is stored has the type of its local. -/
  | assign {slot : Nat} {l : Local} {e : Expression} : locals[slot]? = some l → e.type = l.type →
      Sound fs locals (.assign slot e)
  /-- There is a value for each parameter, of its type, and assignment is not called. -/
  | call {index : Nat} {f : Function} {arguments : List Expression} : fs[index]? = some f →
      f.isAssignment = false → arguments.length = f.pattern.parameters.length →
      arguments.map Expression.type = f.parameterTypes →
      Sound fs locals (.call index arguments f.returnType)
  | sequence {items : List Expression} {ty : Ty} : 2 ≤ items.length →
      items.getLast?.map Expression.type = some ty → Sound fs locals (.sequence items ty)

section
variable {t : Tree} {locals : List Local}

/-- Every function has a type for each parameter of its pattern. -/
theorem Tree.WellTyped.length_parameters (ht : t.WellTyped) {f : Function} (hf : f ∈ t.functions) :
    f.parameterTypes.length = f.pattern.parameters.length := by
  rcases ht.mem_functions hf with hf | hf
  · exact (signAll_signed builtins_reports f hf).length_eq
  · exact ht.length_parameterTypes hf

/-- An expression that has a type has one that can be named. -/
theorem HasType.type_isValue (ht : t.WellTyped) (hl : Placed locals) {e : Expression} {ty : Ty}
    (h : HasType t.functions locals e ty) : e.type.IsValue := by
  rw [h.type_eq]
  exact h.isValue (fun f hf => ht.returnType_isValue hf) hl.isValue

/-- A node that has a type is sound. -/
theorem HasType.sound (ht : t.WellTyped) {e : Expression} {ty : Ty}
    (h : HasType t.functions locals e ty) : e.Sound t.functions locals := by
  cases h with
  | literal v => exact .literal v
  | read hslot => exact .read hslot
  | assign hslot he => exact .assign hslot he.type_eq
  | call hf hna hs =>
    have hlen := ht.length_parameters (List.mem_of_getElem? hf)
    exact .call hf hna (hs.length_eq.trans hlen) hs.map_type
  | sequence hlen hs hlast =>
    refine .sequence hlen ?_
    rw [← List.getLast?_map, hs.map_type, hlast]

mutual

/-- **All nodes of a typed expression have types.** -/
theorem HasType.of_mem_nodes : ∀ {e : Expression} {ty : Ty}, HasType t.functions locals e ty →
    ∀ d ∈ e.nodes, ∃ ty, HasType t.functions locals d ty
  | _, _, .literal v => List.forall_mem_singleton.2 ⟨_, .literal v⟩
  | _, _, .read hslot => List.forall_mem_singleton.2 ⟨_, .read hslot⟩
  | _, _, .assign hslot he => List.forall_mem_cons.2 ⟨⟨_, .assign hslot he⟩, HasType.of_mem_nodes he⟩
  | _, _, .call hf hna hs => List.forall_mem_cons.2 ⟨⟨_, .call hf hna hs⟩, HasTypes.of_mem_nodes hs⟩
  | _, _, .sequence hlen hs hlast =>
    List.forall_mem_cons.2 ⟨⟨_, .sequence hlen hs hlast⟩, HasTypes.of_mem_nodes hs⟩

theorem HasTypes.of_mem_nodes : ∀ {es : List Expression} {tys : List Ty},
    HasTypes t.functions locals es tys → ∀ d ∈ nodesOf es, ∃ ty, HasType t.functions locals d ty
  | _, _, .nil => List.forall_mem_nil _
  | _, _, .cons he hs => List.forall_mem_append.2 ⟨HasType.of_mem_nodes he, HasTypes.of_mem_nodes hs⟩

end

mutual

/-- **All nodes of a well-typed action have types.** -/
theorem Action.WellTyped.of_mem_nodes : ∀ {a : Action}, a.WellTyped t.functions locals →
    ∀ d ∈ a.nodes, ∃ ty, HasType t.functions locals d ty
  | .evaluate _, ⟨_, h⟩ => h.of_mem_nodes
  | .giveBack _, ⟨_, h⟩ => h.of_mem_nodes
  | .when _ _, ⟨⟨_, h⟩, hbody⟩ =>
    List.forall_mem_append.2 ⟨h.of_mem_nodes, ActionsWellTyped.of_mem_nodes hbody⟩
  | .whenElse _ _ _, ⟨⟨_, h⟩, hbody, hother⟩ =>
    List.forall_mem_append.2
      ⟨List.forall_mem_append.2 ⟨h.of_mem_nodes, ActionsWellTyped.of_mem_nodes hbody⟩,
        ActionsWellTyped.of_mem_nodes hother⟩
  | .loop _ _, ⟨⟨_, h⟩, hbody⟩ =>
    List.forall_mem_append.2 ⟨h.of_mem_nodes, ActionsWellTyped.of_mem_nodes hbody⟩

theorem ActionsWellTyped.of_mem_nodes : ∀ {as : List Action}, ActionsWellTyped t.functions locals as →
    ∀ d ∈ actionsNodes as, ∃ ty, HasType t.functions locals d ty
  | [], _ => List.forall_mem_nil _
  | _ :: _, ⟨h, hs⟩ =>
    List.forall_mem_append.2 ⟨Action.WellTyped.of_mem_nodes h, ActionsWellTyped.of_mem_nodes hs⟩

end

end

/-! ## The theorem -/

/-- **What the checker lets pass is well typed.**  If nothing was reported on a
    source, its tree has a function for each definition; the types of these
    functions are those of values; their locals are laid out, parameters first;
    and every node of every body is sound and has the type of a value. -/
theorem checker_sound {source : String} (h : (Analysis.ofSource source).reports = []) :
    let a := Analysis.ofSource source
    a.tree.userFunctions.map Function.pattern = a.document.definitions.map Definition.pattern ∧
      ∀ f ∈ a.tree.userFunctions, f.returnType.IsValue ∧ (∀ ty ∈ f.parameterTypes, ty.IsValue) ∧
        f.LaidOut f.locals ∧
        ∀ e ∈ f.nodes, e.Sound a.tree.functions f.locals ∧ e.type.IsValue := by
  have hcompile : compile source = .ok (Analysis.ofSource source).tree.program :=
    compile_eq_ok_iff.2 ⟨h, rfl⟩
  obtain ⟨ht, -, hpatterns⟩ := wellTyped_of_compile hcompile
  refine ⟨hpatterns, fun f hf => ⟨ht.returnType f hf, ht.parameterTypes f hf, ?_⟩⟩
  obtain ⟨hlaid, hbody⟩ := ht.laidOut hf
  refine ⟨hlaid, fun e he => ?_⟩
  obtain ⟨ty, hty⟩ := hbody.of_mem_nodes e he
  exact ⟨hty.sound ht, hty.type_isValue ht hlaid.placed⟩

/-- In the sample, the call that is printed is a node, and sound. -/
theorem checker_sound_sample : (Analysis.ofSource sampleSource).reports = [] ∧
    ∃ f ∈ (Analysis.ofSource sampleSource).tree.userFunctions, f.locals = [] ∧ f.nodes.length = 3 ∧
      ∀ e ∈ f.nodes, e.Sound (Analysis.ofSource sampleSource).tree.functions [] ∧ e.type.IsValue := by
  obtain ⟨hreports, -⟩ := analysis_sample
  obtain ⟨f, g, hfunctions, ⟨-, hlocals⟩, -⟩ := userFunctions_sample
  have hf : f ∈ (Analysis.ofSource sampleSource).tree.userFunctions := by
    rw [hfunctions]
    exact List.mem_cons_self
  have hlength : (Analysis.ofSource sampleSource).tree.userFunctions.map (fun f => f.nodes.length) =
      [3, 1] := by
    decide +kernel
  rw [hfunctions] at hlength
  obtain ⟨-, hsound⟩ := checker_sound hreports
  obtain ⟨-, -, -, hnodes⟩ := hsound f hf
  exact ⟨hreports, f, hf, hlocals, (List.cons.inj hlength).1, hlocals ▸ hnodes⟩

end DanishProse
