/-
  Where expressions end in the code of a function, and what is on the stack there.

  * `Function.ends` pairs the nodes of a body with the offsets at which their code
    ends; every node has an end (`Function.map_ends`);
  * `Tree.At x f marks`: between two instructions, at the offset `x`, the function
    `f` has cells with these marks on the stack.  There is one function and one
    list of marks for an offset (`Tree.At.unique`), the next instruction goes on
    with marks of its own (`Tree.At.next`), and where an expression ends, the top
    mark says whether its value is a truth value (`Tree.At.of_mem_ends`).
-/
import Mathlib.Tactic.Common
import DanishProse.Proofs.Marks
import DanishProse.Proofs.Soundness
import DanishProse.Proofs.WellFormed

namespace DanishProse

/-! ## Ends of expressions -/

mutual

/-- An expression whose code begins at an offset, and all expressions inside it, each
    with the offset at which its code ends.  What is unresolved has no code. -/
def Expression.ends (fs : List Function) (start : Nat) : Expression → List (Nat × Expression)
  | .literal v => [(start + codeSize (Expression.code fs (.literal v)), .literal v)]
  | .read slot ty => [(start + codeSize (Expression.code fs (.read slot ty)), .read slot ty)]
  | .assign slot e =>
    (start + codeSize (Expression.code fs (.assign slot e)), .assign slot e) :: e.ends fs start
  | .call index arguments ty =>
    (start + codeSize (Expression.code fs (.call index arguments ty)), .call index arguments ty) ::
      argumentsEnds fs start arguments
  | .sequence items ty =>
    (start + codeSize (Expression.code fs (.sequence items ty)), .sequence items ty) ::
      sequenceEnds fs start items
  | .unresolved arguments => (start, .unresolved arguments) :: (nodesOf arguments).map (start, ·)

/-- The ends of values one after the other. -/
def argumentsEnds (fs : List Function) (start : Nat) : List Expression → List (Nat × Expression)
  | [] => []
  | e :: es => e.ends fs start ++ argumentsEnds fs (start + codeSize (e.code fs)) es

/-- The ends of values each of which is dropped before the next one. -/
def sequenceEnds (fs : List Function) (start : Nat) : List Expression → List (Nat × Expression)
  | [] => []
  | e :: es =>
    e.ends fs start ++ sequenceEnds fs (start + codeSize (e.code fs ++ dropping e.type)) es

end

mutual

/-- The ends of all expressions of an action that begins at an offset. -/
def Action.ends (fs : List Function) (start : Nat) : Action → List (Nat × Expression)
  | .evaluate e => e.ends fs start
  | .giveBack e => e.ends fs start
  | .when c body => c.ends fs start ++ actionsEnds fs (bodyStart fs start c) body
  | .whenElse c body otherwise =>
    c.ends fs start ++ actionsEnds fs (bodyStart fs start c) body ++
      actionsEnds fs (elseStart fs start c body) otherwise
  | .loop c body => c.ends fs start ++ actionsEnds fs (bodyStart fs start c) body

/-- The ends of all expressions of actions. -/
def actionsEnds (fs : List Function) (start : Nat) : List Action → List (Nat × Expression)
  | [] => []
  | a :: as => a.ends fs start ++ actionsEnds fs (start + codeSize (a.code fs start)) as

end

/-- The ends of all expressions of a function that begins at an offset. -/
def Function.ends (fs : List Function) (start : Nat) (f : Function) : List (Nat × Expression) :=
  actionsEnds fs (start + codeSize (prologue f.locals)) f.body

section
variable {fs : List Function}

mutual

theorem Expression.map_ends : ∀ (e : Expression) (start : Nat),
    (e.ends fs start).map Prod.snd = e.nodes
  | .literal _, _ => rfl
  | .read _ _, _ => rfl
  | .assign slot e, start => congrArg (_ :: ·) (e.map_ends start)
  | .call index arguments ty, start => congrArg (_ :: ·) (argumentsEnds_map arguments start)
  | .sequence items ty, start => congrArg (_ :: ·) (sequenceEnds_map items start)
  | .unresolved arguments, start => by
    rw [Expression.ends, Expression.nodes, List.map_cons, List.map_map]
    exact congrArg (_ :: ·) (List.map_id' _)

theorem argumentsEnds_map : ∀ (es : List Expression) (start : Nat),
    (argumentsEnds fs start es).map Prod.snd = nodesOf es
  | [], _ => rfl
  | e :: es, start => by
    rw [argumentsEnds, nodesOf, List.map_append, e.map_ends, argumentsEnds_map es]

theorem sequenceEnds_map : ∀ (es : List Expression) (start : Nat),
    (sequenceEnds fs start es).map Prod.snd = nodesOf es
  | [], _ => rfl
  | e :: es, start => by
    rw [sequenceEnds, nodesOf, List.map_append, e.map_ends, sequenceEnds_map es]

end

mutual

theorem Action.map_ends : ∀ (a : Action) (start : Nat), (a.ends fs start).map Prod.snd = a.nodes
  | .evaluate e, start => e.map_ends start
  | .giveBack e, start => e.map_ends start
  | .when c body, start => by
    rw [Action.ends, Action.nodes, List.map_append, c.map_ends, actionsEnds_map body]
  | .whenElse c body otherwise, start => by
    rw [Action.ends, Action.nodes, List.map_append, List.map_append, c.map_ends,
      actionsEnds_map body, actionsEnds_map otherwise]
  | .loop c body, start => by
    rw [Action.ends, Action.nodes, List.map_append, c.map_ends, actionsEnds_map body]

theorem actionsEnds_map : ∀ (as : List Action) (start : Nat),
    (actionsEnds fs start as).map Prod.snd = actionsNodes as
  | [], _ => rfl
  | a :: as, start => by
    rw [actionsEnds, actionsNodes, List.map_append, a.map_ends, actionsEnds_map as]

end

/-- **Every node of a body has an end.** -/
theorem Function.map_ends (f : Function) (start : Nat) : (f.ends fs start).map Prod.snd = f.nodes :=
  actionsEnds_map f.body _

/-! ## Code in front of an end -/

/-- In code that begins at an offset, the code of an expression ends at another. -/
def EndsIn (fs : List Function) (start : Nat) (is : List Instruction) (x : Nat × Expression) : Prop :=
  ∃ pre post, is = pre ++ x.2.code fs ++ post ∧ x.1 = start + codeSize (pre ++ x.2.code fs)

theorem EndsIn.whole {start : Nat} (e : Expression) :
    EndsIn fs start (e.code fs) (start + codeSize (e.code fs), e) :=
  ⟨[], [], by simp, rfl⟩

theorem EndsIn.within {start start' : Nat} {is whole : List Instruction} {x : Nat × Expression}
    (pre post : List Instruction) (hwhole : whole = pre ++ is ++ post)
    (hstart : start' = start + codeSize pre) (h : EndsIn fs start' is x) : EndsIn fs start whole x := by
  subst hwhole hstart
  obtain ⟨front, rest, rfl, hx⟩ := h
  refine ⟨pre ++ front, rest ++ post, by simp, ?_⟩
  rw [hx, List.append_assoc, codeSize_append pre, Nat.add_assoc]

theorem EndsIn.condition {start : Nat} {c : Expression} {x : Nat × Expression}
    (h : EndsIn fs start (c.code fs) x) (rest : List Instruction) :
    EndsIn fs start (conditionCode fs c ++ rest) x :=
  h.within [] (.plain .not :: rest) (by simp [conditionCode]) rfl

mutual

/-- **All nodes of a typed expression end in its code.** -/
theorem HasType.endsIn {locals : List Local} : ∀ {e : Expression} {ty : Ty},
    HasType fs locals e ty → ∀ start, ∀ x ∈ e.ends fs start, EndsIn fs start (e.code fs) x
  | _, _, .literal _, _ => List.forall_mem_singleton.2 (.whole _)
  | _, _, .read _, _ => List.forall_mem_singleton.2 (.whole _)
  | _, _, .assign _ he, start => List.forall_mem_cons.2
    ⟨.whole _, fun x hx => (HasType.endsIn he start x hx).within [] _ rfl rfl⟩
  | _, _, .call _ _ hs, start => List.forall_mem_cons.2
    ⟨.whole _, fun x hx => (HasTypes.argumentsEndIn hs start x hx).within [] _ rfl rfl⟩
  | _, _, .sequence _ hs _, start => List.forall_mem_cons.2
    ⟨.whole _, fun x hx => HasTypes.sequenceEndsIn hs start x hx⟩

theorem HasTypes.argumentsEndIn {locals : List Local} : ∀ {es : List Expression} {tys : List Ty},
    HasTypes fs locals es tys → ∀ start, ∀ x ∈ argumentsEnds fs start es,
      EndsIn fs start (argumentsCode fs es) x
  | [], _, .nil, _ => List.forall_mem_nil _
  | _ :: _, _, .cons h hs, start => List.forall_mem_append.2
    ⟨fun x hx => (HasType.endsIn h start x hx).within [] _ rfl rfl,
      fun x hx => (HasTypes.argumentsEndIn hs _ x hx).within _ [] (List.append_nil _).symm rfl⟩

theorem HasTypes.sequenceEndsIn {locals : List Local} : ∀ {es : List Expression} {tys : List Ty},
    HasTypes fs locals es tys → ∀ start, ∀ x ∈ sequenceEnds fs start es,
      EndsIn fs start (sequenceCode fs es) x
  | [], _, .nil, _ => List.forall_mem_nil _
  | [_], _, .cons h .nil, start => List.forall_mem_append.2
    ⟨HasType.endsIn h start, List.forall_mem_nil _⟩
  | _ :: _ :: _, _, .cons h hs, start => List.forall_mem_append.2
    ⟨fun x hx => (HasType.endsIn h start x hx).within [] _ (List.append_assoc _ _ _) rfl,
      fun x hx => (HasTypes.sequenceEndsIn hs _ x hx).within _ [] (List.append_nil _).symm rfl⟩

end

end

section
variable {t : Tree} {locals : List Local}

mutual

/-- **All nodes of a well-typed action end in its code.** -/
theorem Action.WellTyped.endsIn : ∀ {a : Action}, a.WellTyped t.functions locals →
    ∀ start, ∀ x ∈ a.ends t.functions start, EndsIn t.functions start (a.code t.functions start) x
  | .evaluate _, ⟨_, h⟩, start => fun x hx => (h.endsIn start x hx).within [] _ rfl rfl
  | .giveBack _, ⟨_, h⟩, start => fun x hx => (h.endsIn start x hx).within [] _ rfl rfl
  | .when c body, ⟨⟨_, h⟩, hbody⟩, start => by
    rw [code_when]
    refine List.forall_mem_append.2 ⟨fun x hx => ?_, fun x hx => ?_⟩
    · simp only [List.append_assoc]
      exact (h.endsIn start x hx).condition _
    · exact (ActionsWellTyped.endsIn hbody _ x hx).within _ [] (List.append_nil _).symm
        (codeEnd_head _ _ _ _).symm
  | .whenElse c body otherwise, ⟨⟨_, h⟩, hbody, hother⟩, start => by
    rw [code_whenElse]
    refine List.forall_mem_append.2
      ⟨List.forall_mem_append.2 ⟨fun x hx => ?_, fun x hx => ?_⟩, fun x hx => ?_⟩
    · simp only [List.append_assoc]
      exact (h.endsIn start x hx).condition _
    · exact (ActionsWellTyped.endsIn hbody _ x hx).within _ _ (List.append_assoc _ _ _)
        (codeEnd_head _ _ _ _).symm
    · exact (ActionsWellTyped.endsIn hother _ x hx).within _ [] (List.append_nil _).symm
        (codeEnd_body _ _ _ _ _ _).symm
  | .loop c body, ⟨⟨_, h⟩, hbody⟩, start => by
    rw [code_loop]
    refine List.forall_mem_append.2 ⟨fun x hx => ?_, fun x hx => ?_⟩
    · simp only [List.append_assoc]
      exact (h.endsIn start x hx).condition _
    · exact (ActionsWellTyped.endsIn hbody _ x hx).within _ _ (List.append_assoc _ _ _).symm
        (codeEnd_head _ _ _ _).symm

theorem ActionsWellTyped.endsIn : ∀ {as : List Action}, ActionsWellTyped t.functions locals as →
    ∀ start, ∀ x ∈ actionsEnds t.functions start as,
      EndsIn t.functions start (actionsCode t.functions start as) x
  | [], _, _ => List.forall_mem_nil _
  | _ :: _, ⟨h, hs⟩, start => List.forall_mem_append.2
    ⟨fun x hx => (Action.WellTyped.endsIn h start x hx).within [] _ rfl rfl,
      fun x hx => (ActionsWellTyped.endsIn hs _ x hx).within _ [] (List.append_nil _).symm rfl⟩

end

/-- All expressions of a function end in its code, with something left to do. -/
theorem Function.endsIn (ht : t.WellTyped) {f : Function} (hf : f ∈ t.userFunctions) {start : Nat}
    {x : Nat × Expression} (hx : x ∈ f.ends t.functions start) :
    ∃ pre i post, f.code t.functions start = pre ++ x.2.code t.functions ++ i :: post ∧
      x.1 = start + codeSize (pre ++ x.2.code t.functions) := by
  obtain ⟨-, hbody⟩ := ht.laidOut hf
  obtain ⟨pre, post, hcode, hend⟩ := (hbody.endsIn _ x hx).within _ [] rfl rfl
  rw [List.append_nil] at hcode
  obtain ⟨i, rest, hrest⟩ := List.exists_cons_of_ne_nil
    (List.append_ne_nil_of_right_ne_nil post (epilogue_ne_nil (ht.returnType f hf)))
  refine ⟨pre, i, rest, ?_, hend⟩
  rw [Function.code_of_isUser (t.isUser_userFunctions f hf), hcode, List.append_assoc, hrest]

end

/-! ## Points -/

/-- The code of a function stands at an offset of the program. -/
def Tree.StandsAt (t : Tree) (f : Function) (o : Nat) : Prop :=
  ∃ k : Nat, t.userFunctions[k]? = some f ∧
    t.regions[k]? = some (⟨k + 1, f.frameSize, o⟩, f.code t.functions o)

/-- Between two instructions, a function has cells with marks on the stack. -/
def Tree.At (t : Tree) (x : Nat) (f : Function) (marks : List Bool) : Prop :=
  ∃ o pre i post, t.StandsAt f o ∧ f.code t.functions o = pre ++ i :: post ∧ x = o + codeSize pre ∧
    codeMarks (t.scope f.locals f.returnType) pre f.entryMarks = some marks

/-- What all functions with bodies give back is of their type, if that is the type of truth
    values. -/
def Tree.GivesTruth (t : Tree) : Prop :=
  ∀ f ∈ t.userFunctions, f.GivesTruth

instance (t : Tree) : Decidable t.GivesTruth :=
  inferInstanceAs (Decidable (∀ f ∈ _, Function.GivesTruth f))

theorem append_inj_of_codeSize {pre pre' post post' : List Instruction}
    (h : pre ++ post = pre' ++ post') (hsize : codeSize pre = codeSize pre') : pre = pre' := by
  induction pre generalizing pre' with
  | nil =>
    cases pre' with
    | nil => rfl
    | cons i is =>
      have := i.size_pos
      simp at hsize
      omega
  | cons i is ih =>
    cases pre' with
    | nil =>
      have := i.size_pos
      simp at hsize
      omega
    | cons j js =>
      obtain ⟨rfl, hrest⟩ := List.cons.inj h
      rw [codeSize, codeSize, Nat.add_left_cancel_iff] at hsize
      rw [ih hrest hsize]

section
variable {t : Tree} {f g : Function} {x o : Nat} {marks : List Bool}

theorem Tree.StandsAt.mem (h : t.StandsAt f o) : f ∈ t.userFunctions := by
  obtain ⟨k, hk, -⟩ := h
  exact List.mem_of_getElem? hk

theorem Tree.StandsAt.mem_regions (h : t.StandsAt f o) :
    ∃ s : Symbol, s.offset = o ∧ (s, f.code t.functions o) ∈ t.regions := by
  obtain ⟨k, -, hk⟩ := h
  exact ⟨_, rfl, List.mem_of_getElem? hk⟩

/-- The first function stands at the start of the code. -/
theorem Tree.WellTyped.standsAt_first (ht : t.WellTyped) {others : List Function}
    (hfirst : t.userFunctions = f :: others) : t.StandsAt f 0 := by
  have hregion := ht.region_first hfirst
  rw [List.head?_eq_getElem?] at hregion
  exact ⟨0, by rw [hfirst]; rfl, hregion⟩

theorem Tree.WellTyped.standsAt_of_symbol (ht : t.WellTyped) {s : Symbol}
    (hs : s ∈ t.program.symbols) (hf : f ∈ t.userFunctions) (hid : f.symbol? = some s.id) :
    t.StandsAt f s.offset := by
  rw [t.program_eq_regions] at hs
  obtain ⟨r, hr, rfl⟩ := List.mem_map.1 hs
  obtain ⟨k, hk⟩ := List.mem_iff_getElem?.1 hr
  obtain ⟨g, hg, heq⟩ := ht.function_of_region hk
  obtain ⟨j, hj⟩ := List.mem_iff_getElem?.1 hf
  have hnumber : j + 1 = k + 1 := by
    have hsymbol := (ht.symbol hj).symm.trans hid
    rw [heq] at hsymbol
    exact Option.some.inj hsymbol
  obtain rfl := Nat.succ.inj hnumber
  obtain rfl := Option.some.inj (hg.symm.trans hj)
  exact ⟨j, hj, heq ▸ hk⟩

/-- An offset lies in the code of one function. -/
theorem Tree.StandsAt.unique {o' : Nat} (hf : t.StandsAt f o) (hg : t.StandsAt g o')
    (hle : o ≤ x) (hlt : x < o + codeSize (f.code t.functions o)) (hle' : o' ≤ x)
    (hlt' : x < o' + codeSize (g.code t.functions o')) : f = g ∧ o = o' := by
  obtain ⟨k, hfk, hrk⟩ := hf
  obtain ⟨j, hgj, hrj⟩ := hg
  have hfind := t.tiled_regions.find?_of_mem (List.mem_of_getElem? hrk) hle hlt
  rw [t.tiled_regions.find?_of_mem (List.mem_of_getElem? hrj) hle' hlt'] at hfind
  have hsymbol := Option.some.inj hfind
  obtain rfl : j = k := Nat.succ.inj (congrArg Symbol.id hsymbol)
  exact ⟨Option.some.inj (hfk.symm.trans hgj), (congrArg Symbol.offset hsymbol).symm⟩

theorem Tree.StandsAt.codeAt (ht : t.WellTyped) (hfit : t.Compact) (h : t.StandsAt f o) :
    t.program.CodeAt o (f.code t.functions o) ∧
      o + codeSize (f.code t.functions o) ≤ t.program.code.size := by
  obtain ⟨k, -, hk⟩ := h
  exact ht.codeAt_region hfit (List.mem_of_getElem? hk)

/-- There is one function and one list of marks for an offset. -/
theorem Tree.At.unique {marks' : List Bool} (h : t.At x f marks) (h' : t.At x g marks') :
    f = g ∧ marks = marks' := by
  obtain ⟨o, pre, i, post, hf, hcode, rfl, hmarks⟩ := h
  obtain ⟨o', pre', i', post', hg, hcode', hx, hmarks'⟩ := h'
  have hpos := i.size_pos
  have hpos' := i'.size_pos
  have hsize := congrArg codeSize hcode
  have hsize' := congrArg codeSize hcode'
  rw [codeSize_append, codeSize] at hsize hsize'
  obtain ⟨rfl, rfl⟩ := hf.unique hg (x := o + codeSize pre) (by omega) (by omega) (by omega) (by omega)
  rw [hcode] at hcode'
  obtain rfl := append_inj_of_codeSize hcode' (by omega)
  exact ⟨rfl, Option.some.inj (hmarks.symm.trans hmarks')⟩

/-- A function begins with its arguments on the stack. -/
theorem Tree.StandsAt.entry (ht : t.WellTyped) (h : t.StandsAt f o) : t.At o f f.entryMarks := by
  obtain ⟨s, -, hmem⟩ := h.mem_regions
  have hpos := ht.codeSize_region_pos hmem
  cases hcode : f.code t.functions o with
  | nil =>
    rw [hcode] at hpos
    cases hpos
  | cons i is => exact ⟨o, [], i, is, h, hcode, rfl, rfl⟩

/-- **What the next instruction makes of the marks.**  But for a `ret`, the function goes
    on behind it with the marks after it; a branch may also go to its target. -/
theorem Tree.At.next (ht : t.WellTyped) (hfit : t.Addressable) (hgive : t.GivesTruth)
    (h : t.At x f marks) : ∃ i marks', Instruction.decode t.program.code x = .ok i ∧
      i.marksAfter (t.scope f.locals f.returnType) marks = some marks' ∧
        (i.opcode ≠ .ret → t.At (x + i.size) f marks') ∧
          (i.opcode = .br → t.At i.operand.toNat f []) := by
  obtain ⟨o, pre, i, post, hf, hcode, rfl, hmarks⟩ := h
  have hmem := hf.mem
  obtain ⟨hat, hend⟩ := hf.codeAt ht hfit.compact
  have hwhole := Function.marks ht hfit hmem (hgive f hmem).givenBy o
  rw [hcode, codeMarks_append_of hmarks, codeMarks] at hwhole
  obtain ⟨marks', hafter, hrest⟩ := Option.bind_eq_some_iff.1 hwhole
  have hi : Instruction.decode t.program.code (o + codeSize pre) = .ok i := by
    rw [hcode] at hat
    exact ((codeAt_append _ _ _).1 hat).2.1
  refine ⟨i, marks', hi, hafter, fun hret => ?_, fun hbr => ?_⟩
  · have hpre : codeMarks (t.scope f.locals f.returnType) (pre ++ [i]) f.entryMarks = some marks' := by
      rw [codeMarks_append_of hmarks, codeMarks_singleton, hafter]
    cases post with
    | nil =>
      have hlast := Function.code_getLast? ht hmem o
      rw [hcode, List.getLast?_concat] at hlast
      obtain rfl := Option.some.inj hlast
      exact absurd rfl hret
    | cons j post =>
      refine ⟨o, pre ++ [i], j, post, hf, by simp [hcode], ?_, hpre⟩
      rw [codeSize_append, codeSize, codeSize, Nat.add_zero, Nat.add_assoc]
  · have hcodeSize := hfit.code
    have hi : i ∈ f.code t.functions o := by simp [hcode]
    obtain ⟨pre', j, post', hcode', htarget, hmarks'⟩ :=
      Function.code_branchesTo ht hfit hmem (hgive f hmem).givenBy (by omega) hi hbr
    exact ⟨o, pre', j, post', hf, hcode', htarget, hmarks'⟩

/-- **Where an expression ends, its value is on top of the stack**, marked if it is a
    truth value by its type.  No expression ends where its function begins. -/
theorem Tree.At.of_mem_ends (ht : t.WellTyped) (hfit : t.Addressable) (hgive : t.GivesTruth)
    (hf : t.StandsAt f o) {e : Expression} (he : (x, e) ∈ f.ends t.functions o) :
    ∃ mark marks, t.At x f (mark :: marks) ∧ e.valueType.isBoolean ≤ mark ∧ o < x := by
  have hmem := hf.mem
  obtain ⟨hlaid, hbody⟩ := ht.laidOut hmem
  obtain ⟨pre, i, post, hcode, hx⟩ := Function.endsIn ht hmem he
  have hnode : e ∈ f.nodes := by
    rw [← f.map_ends o]
    exact List.mem_map_of_mem he
  obtain ⟨ty, hty⟩ := hbody.of_mem_nodes e hnode
  have hwhole := Function.marks ht hfit hmem (hgive f hmem).givenBy o
  rw [hcode, List.append_assoc, codeMarks_append] at hwhole
  obtain ⟨marks, hpre, -⟩ := Option.bind_eq_some_iff.1 hwhole
  have hleaves := hty.leaves_value f.returnType ht hfit hlaid.placed (hfit.locals f hmem)
  obtain ⟨mark, hmark, hvalue⟩ := hleaves marks
  refine ⟨mark, marks, ⟨o, pre ++ e.code t.functions, i, post, hf, hcode, hx, ?_⟩, hmark, ?_⟩
  · rw [codeMarks_append_of hpre, hvalue]
  · have hpos := hleaves.codeSize_pos
    simp only [codeSize_append] at hx
    omega

end

end DanishProse
