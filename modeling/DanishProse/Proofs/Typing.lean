/-
  Types of expressions, declaratively.

  * `HasType fs locals e ty`: with the functions `fs` and the locals `locals`,
    `e` is resolved throughout and leaves a value of type `ty`;
  * `Action.WellTyped`: all expressions of an action have types;
  * `Function.LaidOut`: the locals of a function are its parameters, in the order
    of its pattern, and then its variables, each in the slot of its place;
  * `Tree.WellTyped` puts these together for all functions of a tree.

  Types only depend on the locals that are there and on the faces of functions,
  so they stay when locals are added and bodies are filled in (`HasType.mono`).
-/
import Mathlib.Tactic.Common
import DanishProse.Typed.Checking

namespace DanishProse

/-! ## Types of values -/

/-- A type that a program can name. -/
def Ty.IsValue (ty : Ty) : Prop :=
  ty = .integer ∨ ty = .float ∨ ty = .boolean

instance (ty : Ty) : Decidable ty.IsValue :=
  inferInstanceAs (Decidable (_ ∨ _ ∨ _))

theorem Ty.IsValue.size_pos {ty : Ty} (h : ty.IsValue) : 0 < ty.size := by
  rcases h with rfl | rfl | rfl <;> decide

theorem Ty.IsValue.ne_none {ty : Ty} (h : ty.IsValue) : ty ≠ .none := by
  rintro rfl
  exact absurd h (by decide)

theorem Literal.type_isValue (v : Literal) : v.type.IsValue := by
  cases v <;> simp [Literal.type, Ty.IsValue]

/-! ## Expressions -/

/-- The function stands for assignment, which no call refers to. -/
def Function.isAssignment (f : Function) : Bool :=
  match f.role with
  | .assignment => true
  | _ => false

mutual

/-- An expression leaves a value of a type. -/
inductive HasType (fs : List Function) (locals : List Local) : Expression → Ty → Prop
  | literal (v : Literal) : HasType fs locals (.literal v) v.type
  | read {slot : Nat} {l : Local} : locals[slot]? = some l →
      HasType fs locals (.read slot l.type) l.type
  | assign {slot : Nat} {l : Local} {e : Expression} : locals[slot]? = some l →
      HasType fs locals e l.type → HasType fs locals (.assign slot e) .integer
  | call {index : Nat} {f : Function} {arguments : List Expression} : fs[index]? = some f →
      f.isAssignment = false → HasTypes fs locals arguments f.parameterTypes →
      HasType fs locals (.call index arguments f.returnType) f.returnType
  | sequence {items : List Expression} {tys : List Ty} {ty : Ty} : 2 ≤ items.length →
      HasTypes fs locals items tys → tys.getLast? = some ty →
      HasType fs locals (.sequence items ty) ty

/-- Expressions leave values of types, one each. -/
inductive HasTypes (fs : List Function) (locals : List Local) : List Expression → List Ty → Prop
  | nil : HasTypes fs locals [] []
  | cons {e : Expression} {ty : Ty} {es : List Expression} {tys : List Ty} :
      HasType fs locals e ty → HasTypes fs locals es tys → HasTypes fs locals (e :: es) (ty :: tys)

end

section
variable {fs : List Function} {locals : List Local}

theorem HasType.type_eq {e : Expression} {ty : Ty} (h : HasType fs locals e ty) : e.type = ty := by
  cases h <;> rfl

theorem HasTypes.length_eq : ∀ {es : List Expression} {tys : List Ty},
    HasTypes fs locals es tys → es.length = tys.length
  | [], [], .nil => rfl
  | _ :: _, _ :: _, .cons _ hs => congrArg (· + 1) hs.length_eq

theorem HasTypes.map_type : ∀ {es : List Expression} {tys : List Ty},
    HasTypes fs locals es tys → es.map Expression.type = tys
  | [], [], .nil => rfl
  | _ :: _, _ :: _, .cons h hs => congrArg₂ _ h.type_eq hs.map_type

theorem HasTypes.of_forall : ∀ {es : List Expression},
    (∀ e ∈ es, HasType fs locals e e.type) → HasTypes fs locals es (es.map Expression.type)
  | [], _ => .nil
  | e :: es, h => .cons (h e (by simp)) (.of_forall fun d hd => h d (by simp [hd]))

mutual

theorem HasType.isValue (hf : ∀ f ∈ fs, f.returnType.IsValue) (hl : ∀ l ∈ locals, l.type.IsValue) :
    ∀ {e : Expression} {ty : Ty}, HasType fs locals e ty → ty.IsValue
  | _, _, .literal v => v.type_isValue
  | _, _, .read h => hl _ (List.mem_of_getElem? h)
  | _, _, .assign _ _ => .inl rfl
  | _, _, .call h _ _ => hf _ (List.mem_of_getElem? h)
  | _, _, .sequence _ hs hlast => HasTypes.isValue hf hl hs _ (List.mem_of_getLast? hlast)

theorem HasTypes.isValue (hf : ∀ f ∈ fs, f.returnType.IsValue) (hl : ∀ l ∈ locals, l.type.IsValue) :
    ∀ {es : List Expression} {tys : List Ty}, HasTypes fs locals es tys → ∀ ty ∈ tys, ty.IsValue
  | _, _, .nil => by simp
  | _, _, .cons h hs =>
    List.forall_mem_cons.2 ⟨HasType.isValue hf hl h, HasTypes.isValue hf hl hs⟩

end

end

/-! ## Adding locals and bodies -/

/-- Two functions look the same to their callers. -/
structure Function.SameFace (f g : Function) : Prop where
  isAssignment : g.isAssignment = f.isAssignment
  parameterTypes : g.parameterTypes = f.parameterTypes
  returnType : g.returnType = f.returnType

theorem Function.SameFace.refl (f : Function) : f.SameFace f := ⟨rfl, rfl, rfl⟩

/-- Every function of the first list has the same face in the second one. -/
def SameFaces (fs gs : List Function) : Prop :=
  ∀ (i : Nat) (f : Function), fs[i]? = some f → ∃ g, gs[i]? = some g ∧ f.SameFace g

theorem SameFaces.refl (fs : List Function) : SameFaces fs fs :=
  fun _ f h => ⟨f, h, .refl f⟩

section
variable {fs gs : List Function} {locals more : List Local}

theorem getElem?_extend {α : Type} {xs ys : List α} (h : xs <+: ys) {i : Nat} {x : α}
    (hx : xs[i]? = some x) : ys[i]? = some x := by
  obtain ⟨zs, rfl⟩ := h
  rw [List.getElem?_append_left (List.getElem?_eq_some_iff.1 hx).1, hx]

mutual

/-- **Types stay when locals are added and bodies are filled in.** -/
theorem HasType.mono (hfs : SameFaces fs gs) (hl : locals <+: more) :
    ∀ {e : Expression} {ty : Ty}, HasType fs locals e ty → HasType gs more e ty
  | _, _, .literal v => .literal v
  | _, _, .read h => .read (getElem?_extend hl h)
  | _, _, .assign h he => .assign (getElem?_extend hl h) (HasType.mono hfs hl he)
  | _, _, .call h hna hs => by
    obtain ⟨g, hg, hface⟩ := hfs _ _ h
    have hs' := HasTypes.mono hfs hl hs
    rw [← hface.parameterTypes] at hs'
    rw [← hface.returnType]
    exact .call hg (hface.isAssignment.trans hna) hs'
  | _, _, .sequence hlen hs hlast => .sequence hlen (HasTypes.mono hfs hl hs) hlast

theorem HasTypes.mono (hfs : SameFaces fs gs) (hl : locals <+: more) :
    ∀ {es : List Expression} {tys : List Ty}, HasTypes fs locals es tys → HasTypes gs more es tys
  | _, _, .nil => .nil
  | _, _, .cons h hs => .cons (HasType.mono hfs hl h) (HasTypes.mono hfs hl hs)

end

end

/-! ## Actions -/

mutual

/-- All expressions of an action have types. -/
def Action.WellTyped (fs : List Function) (locals : List Local) : Action → Prop
  | .evaluate e => ∃ ty, HasType fs locals e ty
  | .giveBack e => ∃ ty, HasType fs locals e ty
  | .when c body => (∃ ty, HasType fs locals c ty) ∧ ActionsWellTyped fs locals body
  | .whenElse c body otherwise =>
    (∃ ty, HasType fs locals c ty) ∧ ActionsWellTyped fs locals body ∧
      ActionsWellTyped fs locals otherwise
  | .loop c body => (∃ ty, HasType fs locals c ty) ∧ ActionsWellTyped fs locals body

/-- All expressions of all actions have types. -/
def ActionsWellTyped (fs : List Function) (locals : List Local) : List Action → Prop
  | [] => True
  | a :: as => a.WellTyped fs locals ∧ ActionsWellTyped fs locals as

end

theorem actionsWellTyped_append {fs : List Function} {locals : List Local} {as bs : List Action}
    (ha : ActionsWellTyped fs locals as) (hb : ActionsWellTyped fs locals bs) :
    ActionsWellTyped fs locals (as ++ bs) := by
  induction as with
  | nil => exact hb
  | cons a as ih => exact ⟨ha.1, ih ha.2⟩

section
variable {fs gs : List Function} {locals more : List Local}

mutual

theorem Action.WellTyped.mono (hfs : SameFaces fs gs) (hl : locals <+: more) :
    ∀ {a : Action}, a.WellTyped fs locals → a.WellTyped gs more
  | .evaluate _, ⟨ty, h⟩ => ⟨ty, h.mono hfs hl⟩
  | .giveBack _, ⟨ty, h⟩ => ⟨ty, h.mono hfs hl⟩
  | .when _ _, ⟨⟨ty, h⟩, hb⟩ => ⟨⟨ty, h.mono hfs hl⟩, ActionsWellTyped.mono hfs hl hb⟩
  | .whenElse _ _ _, ⟨⟨ty, h⟩, hb, ho⟩ =>
    ⟨⟨ty, h.mono hfs hl⟩, ActionsWellTyped.mono hfs hl hb, ActionsWellTyped.mono hfs hl ho⟩
  | .loop _ _, ⟨⟨ty, h⟩, hb⟩ => ⟨⟨ty, h.mono hfs hl⟩, ActionsWellTyped.mono hfs hl hb⟩

theorem ActionsWellTyped.mono (hfs : SameFaces fs gs) (hl : locals <+: more) :
    ∀ {as : List Action}, ActionsWellTyped fs locals as → ActionsWellTyped gs more as
  | [], _ => trivial
  | _ :: _, ⟨h, hs⟩ => ⟨Action.WellTyped.mono hfs hl h, ActionsWellTyped.mono hfs hl hs⟩

end

end

/-! ## Functions and trees -/

/-- Every local is in the slot of its place and has a type that can be named. -/
structure Placed (locals : List Local) : Prop where
  slot : ∀ (i : Nat) (l : Local), locals[i]? = some l → l.slot = i
  isValue : ∀ l ∈ locals, l.type.IsValue

/-- The locals of a function: a parameter for each one in its pattern, in order,
    and then what its body declares. -/
structure Function.LaidOut (f : Function) (locals : List Local) : Prop where
  placed : Placed locals
  split : ∃ parameters declared : List Local, locals = parameters ++ declared ∧
    parameters.map Local.name = f.pattern.parameters.map PatternPart.name ∧
    parameters.map Local.type = f.parameterTypes ∧
    (∀ l ∈ parameters, l.isParameter = true) ∧ ∀ l ∈ declared, l.isParameter = false

/-- The locals that are parameters come first, with the types of the pattern. -/
theorem Function.LaidOut.filter_isParameter {f : Function} {locals : List Local}
    (h : f.LaidOut locals) :
    locals.filter Local.isParameter <+: locals ∧
      (locals.filter Local.isParameter).map Local.type = f.parameterTypes := by
  obtain ⟨ps, ds, rfl, -, htypes, hps, hds⟩ := h.split
  have hfilter : (ps ++ ds).filter Local.isParameter = ps := by
    rw [List.filter_append, List.filter_eq_self.2 hps, List.filter_eq_nil_iff.2 (by simpa using hds),
      List.append_nil]
  rw [hfilter]
  exact ⟨List.prefix_append ps ds, htypes⟩

/-- The locals of a function with a body are laid out, and its body is well typed. -/
def Function.WellTyped (fs : List Function) (f : Function) : Prop :=
  match f.role with
  | .user _ locals body => f.LaidOut locals ∧ ActionsWellTyped fs locals body
  | _ => True

/-- The number of a function with a body. -/
def Function.symbol? (f : Function) : Option Nat :=
  match f.role with
  | .user symbol _ _ => some symbol
  | _ => none

/-- How many values an operation on the stack takes. -/
def OpCode.arity? : OpCode → Option Nat
  | .add | .sub | .umul | .imul | .udiv | .idiv | .fadd | .fsub | .fmul | .fdiv => some 2
  | .and | .or | .eq | .gt | .lt | .feq | .fgt | .flt => some 2
  | .not | .i2f | .f2i => some 1
  | .nop | .ldi | .ldl | .stl | .pop | .dup | .call | .ret | .br => none

/-- What a function that is built in does its work with takes as many values as the
    function has parameters. -/
def Function.arityFits (f : Function) : Bool :=
  match f.role with
  | .intrinsic op => op.arity? = some f.parameterTypes.length
  | .native _ => f.parameterTypes.length = 1
  | _ => true

/-- The functions that are built in, with their types. -/
def signedBuiltins : List Function :=
  (signAll 1 builtins).value

theorem Function.isUser_of_symbol? {f : Function} {n : Nat} (h : f.symbol? = some n) :
    f.isUser = true ∧ f.isAssignment = false := by
  unfold Function.symbol? at h
  split at h
  · next hrole => simp [Function.isUser, Function.isAssignment, hrole]
  · cases h

/-- After the functions that are built in come those with bodies, numbered from
    one; they and their bodies are well typed. -/
structure Tree.WellTyped (t : Tree) : Prop where
  functions : t.functions = signedBuiltins ++ t.userFunctions
  symbols : t.userFunctions.map Function.symbol? =
    (List.range' 1 t.userFunctions.length).map some
  returnType : ∀ f ∈ t.userFunctions, f.returnType.IsValue
  parameterTypes : ∀ f ∈ t.userFunctions, ∀ ty ∈ f.parameterTypes, ty.IsValue
  bodies : ∀ f ∈ t.userFunctions, f.WellTyped t.functions

end DanishProse
