/-
  Truth values stay truth values while a program runs.

  * `Machine.Sound t m`: the cells that the running function has on the stack fit
    the marks at its place, its locals hold what their types say, and so it is for
    all functions that wait for a call to return (`Waiting`);
  * a step keeps this (`Machine.Sound.step`), whatever room frames have, and so
    does a run (`Machine.Sound.advance`);
  * `truth_values_kept`: wherever the machine is at the end of an expression whose
    type is that of truth values, the top cell is zero or one.  This needs that
    functions give back what they say: nothing checks it (`truth_value_two`).
-/
import Mathlib.Tactic.Common
import DanishProse.Proofs.Isolation
import DanishProse.Proofs.Points
import DanishProse.Proofs.Simulation

namespace DanishProse

/-! ## Cells and marks -/

/-- The cell is zero or one. -/
def Cell.IsTruth (c : Cell) : Prop :=
  c = 0 ∨ c = 1

theorem Cell.isTruth_ofBool (b : Bool) : (ofBool b).IsTruth := by
  cases b
  · exact .inl rfl
  · exact .inr rfl

theorem Cell.isTruth_of_le_one {c : Cell} (h : c ≤ 1) : c.IsTruth := by
  have hle : c.toNat ≤ 1 := h
  rcases Nat.le_one_iff_eq_zero_or_eq_one.1 hle with h | h
  · exact .inl (UInt64.toNat_inj.1 h)
  · exact .inr (UInt64.toNat_inj.1 h)

/-- What an operation on truth values or a comparison leaves is a truth value. -/
theorem OpCode.isTruth_of_value? {op : OpCode} {arguments : List Cell} {c : Cell}
    (hop : op.isLogical = true) (h : op.value? arguments = some (.ok c)) : c.IsTruth := by
  unfold OpCode.value? at h
  split at h
  case h_22 => cases h
  all_goals
    first
    | exact absurd hop Bool.false_ne_true
    | obtain rfl := Except.ok.inj (Option.some.inj h)
      exact Cell.isTruth_ofBool _

/-- Marked cells are truth values. -/
def Fits (marks : List Bool) (cells : List Cell) : Prop :=
  List.Forall₂ (fun mark c => mark = true → Cell.IsTruth c) marks cells

/-- What is asked for is on top. -/
theorem Fits.taken {wanted : List Bool} : ∀ {marks left : List Bool} {cells : List Cell},
    Fits marks cells → taken wanted marks = some left →
      ∃ arguments rest, cells = arguments ++ rest ∧ Fits wanted arguments ∧ Fits left rest := by
  induction wanted with
  | nil =>
    rintro marks left cells h htaken
    obtain rfl := Option.some.inj htaken
    exact ⟨[], cells, rfl, .nil, h⟩
  | cons w wanted ih =>
    rintro marks left cells h htaken
    cases h with
    | nil => cases htaken
    | @cons mark c marks cells hc hcells =>
      rw [DanishProse.taken] at htaken
      split_ifs at htaken with hle
      obtain ⟨arguments, rest, rfl, harguments, hrest⟩ := ih hcells htaken
      exact ⟨c :: arguments, rest, rfl, .cons (fun hw => hc (hle hw)) harguments, hrest⟩

/-! ## Frames -/

/-- The slots of a frame end before a limit, and those of truth values hold such. -/
structure Frame.Holds (σ : Scope) (slots : Array Cell) (limit : Nat) (frame : Frame) : Prop where
  room : frame.base + slotCount frame.size ≤ limit
  truth : ∀ slot, σ.isTruthSlot slot = true → slot * 8 + 8 ≤ frame.size →
    Cell.IsTruth (slots.getD (frame.base + slot) 0)

section
variable {σ : Scope} {slots slots' : Array Cell} {limit : Nat} {frame : Frame}

/-- What a frame holds lies before its limit. -/
theorem Frame.Holds.congr (h : frame.Holds σ slots limit) (hslots : AgreeBelow limit slots slots') :
    frame.Holds σ slots' limit where
  room := h.room
  truth slot hslot hin := by
    have hlt := lt_slotCount hin
    have hroom := h.room
    rw [hslots _ (by omega)]
    exact h.truth slot hslot hin

end

/-! ## Machines -/

/-- Functions wait for calls to return, the last one for a value with a mark.  Each has cells
    on the stack that fit its place, where the value comes on top of them. -/
inductive Waiting (t : Tree) (slots : Array Cell) : Bool → Frame → List Frame → List Cell → Prop
  | bottom {mark : Bool} {frame : Frame} {cells : List Cell} : Waiting t slots mark frame [] cells
  | call {mark : Bool} {frame caller : Frame} {outer : List Frame} {f : Function} {ip : Nat}
      {marks : List Bool} {cells rest : List Cell} : frame.returnOffset = some ip →
      t.At ip f (mark :: marks) → Fits marks cells →
      caller.Holds (t.scope f.locals f.returnType) slots frame.base →
      Waiting t slots f.returnType.isBoolean caller outer rest →
      Waiting t slots mark frame (caller :: outer) (cells ++ rest)

theorem Waiting.congr {t : Tree} {slots slots' : Array Cell} {mark : Bool} {frame : Frame}
    {outer : List Frame} {cells : List Cell} (h : Waiting t slots mark frame outer cells)
    (hslots : AgreeBelow frame.base slots slots') : Waiting t slots' mark frame outer cells := by
  induction h with
  | bottom => exact .bottom
  | call hreturn hat hfits hholds _ ih =>
    have hroom := hholds.room
    exact .call hreturn hat hfits (hholds.congr hslots) (ih (hslots.mono (by omega)))

/-- A function runs, with cells on the stack that have marks: its locals hold what their
    types say, and below it functions wait. -/
def Runs (t : Tree) (f : Function) (marks : List Bool) (stack : List Cell) (frames : CallStack) :
    Prop :=
  ∃ cells rest, stack = cells ++ rest ∧ Fits marks cells ∧
    frames.current.Holds (t.scope f.locals f.returnType) frames.slots frames.slots.size ∧
      Waiting t frames.slots f.returnType.isBoolean frames.current frames.outer rest

/-- A function runs with the marks of its place. -/
def Machine.Sound (t : Tree) (m : Machine) : Prop :=
  ∃ f marks, t.At m.ip f marks ∧ Runs t f marks m.stack.cells m.frames

/-- The top cell is a truth value. -/
def Machine.TruthOnTop (m : Machine) : Prop :=
  ∃ c rest, m.stack.cells = c :: rest ∧ c.IsTruth

namespace Runs
variable {t : Tree} {f g : Function} {marks left : List Bool} {stack : List Cell}
  {frames frames' : CallStack} {c : Cell} {slot : Nat}

theorem push {mark : Bool} (h : Runs t f marks stack frames) (hc : mark = true → c.IsTruth) :
    Runs t f (mark :: marks) (c :: stack) frames := by
  obtain ⟨cells, rest, rfl, hfits, hholds, hwait⟩ := h
  exact ⟨c :: cells, rest, rfl, .cons hc hfits, hholds, hwait⟩

theorem taken {wanted : List Bool} (h : Runs t f marks stack frames)
    (htaken : DanishProse.taken wanted marks = some left) :
    ∃ arguments stack', stack = arguments ++ stack' ∧ Fits wanted arguments ∧
      Runs t f left stack' frames := by
  obtain ⟨cells, rest, rfl, hfits, hholds, hwait⟩ := h
  obtain ⟨arguments, cells', rfl, harguments, hleft⟩ := hfits.taken htaken
  exact ⟨arguments, cells' ++ rest, List.append_assoc _ _ _, harguments,
    cells', rest, rfl, hleft, hholds, hwait⟩

/-- One cell comes off. -/
theorem pop {mark : Bool} (h : Runs t f marks (c :: stack) frames)
    (htaken : DanishProse.taken [mark] marks = some left) :
    (mark = true → c.IsTruth) ∧ Runs t f left stack frames := by
  obtain ⟨_, stack', hstack, harguments, hleft⟩ := h.taken htaken
  obtain ⟨c', _, hc, hnil, rfl⟩ := List.forall₂_cons_left_iff.1 harguments
  obtain rfl := List.forall₂_nil_left_iff.1 hnil
  obtain ⟨rfl, rfl⟩ := List.cons.inj hstack
  exact ⟨hc, hleft⟩

theorem load (h : Runs t f marks stack frames) (hload : frames.load slot = .ok c)
    (hslot : (t.scope f.locals f.returnType).isTruthSlot slot = true) : c.IsTruth := by
  obtain ⟨-, -, -, -, hholds, -⟩ := h
  obtain ⟨hin, rfl⟩ := CallStack.load_eq_ok hload
  exact hholds.truth slot hslot hin

theorem store (h : Runs t f marks stack frames) (hstore : frames.store slot c = .ok frames')
    (hc : (t.scope f.locals f.returnType).isTruthSlot slot = true → c.IsTruth) :
    Runs t f marks stack frames' := by
  obtain ⟨cells, rest, rfl, hfits, hholds, hwait⟩ := h
  obtain ⟨hin, hcurrent, houter, hslots⟩ := CallStack.store_eq_ok hstore
  have hroom := hholds.room
  have hlt := lt_slotCount hin
  refine ⟨cells, rest, rfl, hfits, ⟨?_, fun k hk hkin => ?_⟩, ?_⟩
  · rw [hslots, hcurrent, Array.size_setIfInBounds]
    exact hroom
  · rw [hslots, hcurrent, Array.getD_eq_getD_getElem?, Array.getElem?_setIfInBounds]
    by_cases heq : slot = k
    · subst heq
      rw [if_pos rfl, if_pos (by omega)]
      exact hc hk
    · rw [if_neg (by omega), ← Array.getD_eq_getD_getElem?]
      exact hholds.truth k hk (hcurrent ▸ hkin)
  · rw [hslots, hcurrent, houter]
    exact hwait.congr (.store (Nat.le_add_right _ _) c)

/-- A function that is called runs with its arguments, and the caller waits. -/
theorem call {size ip : Nat} {arguments : List Cell} (h : Runs t f left stack frames)
    (harguments : Fits g.entryMarks arguments) (hpush : frames.push size ip = .ok frames')
    (hat : t.At ip f (g.returnType.isBoolean :: left)) :
    Runs t g g.entryMarks (arguments ++ stack) frames' := by
  obtain ⟨cells, rest, rfl, hfits, hholds, hwait⟩ := h
  obtain ⟨hcurrent, houter, hslots⟩ := CallStack.push_eq_ok hpush
  refine ⟨arguments, cells ++ rest, rfl, harguments, ⟨?_, fun k _ _ => ?_⟩, ?_⟩
  · refine Nat.le_of_eq ?_
    rw [hslots, hcurrent, Array.size_append, Array.size_replicate]
  · rw [hslots, hcurrent, Array.getD_eq_getD_getElem?, Array.getElem?_append_right (Nat.le_add_right _ _),
      Array.getElem?_replicate]
    split_ifs
    · exact .inl rfl
    · exact .inl rfl
  · rw [hslots, hcurrent, houter]
    have hagree : AgreeBelow frames.slots.size frames.slots
        (frames.slots ++ Array.replicate (slotCount size) 0) := .append _
    refine .call rfl hat hfits (hholds.congr hagree) (hwait.congr (hagree.mono ?_))
    exact Nat.le_trans (Nat.le_add_right _ _) hholds.room

/-- A function that returns leaves its value to the one that waits for it. -/
theorem ret (h : Runs t f marks stack frames)
    (htaken : DanishProse.taken [f.returnType.isBoolean] marks = some []) {ip : Nat}
    (hreturn : frames.current.returnOffset = some ip)
    (houter : frames.outer = frames'.current :: frames'.outer)
    (hslots : frames'.slots = frames.slots.shrink frames.current.base) :
    ∃ g marks', t.At ip g marks' ∧ Runs t g marks' stack frames' := by
  obtain ⟨cells, rest, rfl, hfits, hholds, hwait⟩ := h
  obtain ⟨_, _, rfl, harguments, hnil⟩ := hfits.taken htaken
  obtain ⟨c, _, hc, hnone, rfl⟩ := List.forall₂_cons_left_iff.1 harguments
  obtain rfl := List.forall₂_nil_left_iff.1 hnone
  obtain rfl := List.forall₂_nil_left_iff.1 hnil
  have hroom := hholds.room
  have hagree : AgreeBelow frames.current.base frames.slots frames'.slots := hslots ▸ .shrink _
  rw [houter] at hwait
  cases hwait with
  | @call _ _ _ _ g ip' marks' cells rest hreturn' hat hfits hcaller hwait =>
    obtain rfl := Option.some.inj (hreturn.symm.trans hreturn')
    have hlimit := hcaller.room
    refine ⟨g, _, hat, c :: cells, rest, rfl, .cons hc hfits, ?_, hwait.congr (hagree.mono (by omega))⟩
    have hsize : frames'.slots.size = frames.current.base := by
      rw [hslots, Array.size_shrink]
      omega
    rw [hsize]
    exact hcaller.congr hagree

end Runs

/-- The function that a call goes to takes what the call asks for. -/
theorem Tree.WellTyped.callee_of_call? {t : Tree} (ht : t.WellTyped) {locals : List Local}
    {result : Ty} {id : Nat} {wanted : List Bool} {mark : Bool} {s : Symbol}
    (hnone : Native.ofId? id = none) (hcall : (t.scope locals result).call? id = some (wanted, mark))
    (hs : t.program.callee? id = some s) :
    ∃ g, wanted = g.entryMarks ∧ mark = g.returnType.isBoolean ∧ t.At s.offset g g.entryMarks := by
  simp only [Scope.call?, hnone, Option.map_eq_some_iff, Prod.mk.injEq] at hcall
  obtain ⟨g, hfind, rfl, rfl⟩ := hcall
  have hsymbol : g.symbol? = some id := by simpa using List.find?_some hfind
  obtain ⟨k, rfl, hk⟩ := ht.getElem?_of_symbol? (List.mem_of_find?_eq_some hfind) hsymbol
  obtain ⟨o, ho⟩ := ht.region hk
  have hcallee := (ht.lookup_region (List.mem_of_getElem? ho)).1
  obtain rfl := Option.some.inj (hs.symm.trans hcallee)
  exact ⟨g, rfl, rfl, Tree.StandsAt.entry ht ⟨k, hk, ho⟩⟩

section
variable {t : Tree} {layout : FrameLayout} {m m' : Machine} {f : Function} {marks marks' : List Bool}

/-- An operation leaves its value. -/
theorem Runs.operation {p : Program} {i : Instruction} {n : Nat} (harity : i.opcode.arity? = some n)
    (h : Runs t f marks m.stack.cells m.frames)
    (hafter : i.marksAfter (t.scope f.locals f.returnType) marks = some marks')
    (hstep : execute p layout i m = .ok (.next m')) :
    m'.ip = m.ip + i.size ∧ Runs t f marks' m'.stack.cells m'.frames := by
  rw [marksAfter_operation harity] at hafter
  obtain ⟨left, htaken, rfl⟩ := Option.map_eq_some_iff.1 hafter
  obtain ⟨arguments, rest, hstack, harguments, hleft⟩ := h.taken htaken
  have hlen : arguments.length = n := by simpa using harguments.length_eq.symm
  obtain ⟨r, hr⟩ : ∃ r, i.opcode.value? arguments.reverse = some r :=
    OpCode.exists_value? (by rw [List.length_reverse, hlen, harity])
  have hon : i.opcode.onStack? (.ofCells (arguments.reverse.reverse ++ rest)) = _ :=
    OpCode.onStack?_of_value? hr
  rw [List.reverse_reverse, ← hstack, Stack.ofCells_cells] at hon
  obtain ⟨hresult, hip, hframes, -⟩ := next_onStack hon hstep
  cases r with
  | error e => cases hresult
  | ok c =>
    have hpush : (Stack.ofCells rest).push c = .ok m'.stack := hresult
    refine ⟨hip, ?_⟩
    rw [(Stack.push_eq_ok_iff.1 hpush).2, hframes]
    exact hleft.push fun hlogical => OpCode.isTruth_of_value? hlogical hr

/-- **A step keeps a machine sound.** -/
theorem Machine.Sound.step (ht : t.WellTyped) (hfit : t.Addressable) (hgive : t.GivesTruth)
    (h : m.Sound t) (hstep : step t.program layout m = .ok (.next m')) : m'.Sound t := by
  obtain ⟨f, marks, hat, hruns⟩ := h
  obtain ⟨i, marks', hi, hafter, hnext, hbranch⟩ := hat.next ht hfit hgive
  rw [step_of_decode hi] at hstep
  by_cases hret : i.opcode = .ret
  · obtain ⟨op, v, w⟩ := i
    obtain rfl : op = .ret := hret
    obtain ⟨hreturn, hstack, houter, hslots, -⟩ := next_ret hstep
    have htaken : taken [f.returnType.isBoolean] marks = some [] := by
      by_contra hne
      cases (if_neg hne).symm.trans hafter
    rw [← hstack] at hruns
    exact hruns.ret htaken hreturn houter hslots
  replace hnext := hnext hret
  cases harity : i.opcode.arity? with
  | some n =>
    obtain ⟨hip, hruns⟩ := hruns.operation harity hafter hstep
    exact ⟨f, marks', hip ▸ hnext, hruns⟩
  | none =>
    obtain ⟨op, v, w⟩ := i
    cases op
    case ldi =>
      obtain ⟨hip, hcells, hframes, -⟩ := next_ldi hstep
      obtain rfl := Option.some.inj hafter
      refine ⟨f, _, hip ▸ hnext, ?_⟩
      rw [hcells, hframes]
      exact hruns.push fun hle => Cell.isTruth_of_le_one (of_decide_eq_true hle)
    case ldl =>
      obtain ⟨c, hload, hip, hcells, hframes, -⟩ := next_ldl hstep
      obtain rfl := Option.some.inj hafter
      refine ⟨f, _, hip ▸ hnext, ?_⟩
      rw [hcells, hframes]
      exact hruns.push (hruns.load hload)
    case stl =>
      obtain ⟨c, hcells, hstore, hip, -⟩ := next_stl hstep
      rw [hcells] at hruns
      obtain ⟨hc, hleft⟩ := hruns.pop hafter
      exact ⟨f, _, hip ▸ hnext, hleft.store hstore hc⟩
    case pop =>
      obtain ⟨hresult, hip, hframes, -⟩ := next_onStack rfl hstep
      obtain ⟨c, hcells⟩ := Stack.cells_of_pop hresult
      rw [hcells] at hruns
      exact ⟨f, _, hip ▸ hnext, hframes ▸ (hruns.pop hafter).2⟩
    case dup =>
      obtain ⟨hresult, hip, hframes, -⟩ := next_onStack rfl hstep
      obtain ⟨c, rest, hcells, hcells'⟩ := Stack.cells_of_dup hresult
      obtain ⟨mark, hmark, rfl⟩ := Option.map_eq_some_iff.1 hafter
      obtain ⟨left, rfl⟩ := List.head?_eq_some_iff.1 hmark
      have hc := hruns
      rw [hcells] at hc
      obtain ⟨hc, -⟩ := hc.pop (taken_append (.cons (Bool.le_refl mark) .nil) left)
      refine ⟨f, _, hip ▸ hnext, ?_⟩
      rw [hcells', hframes]
      exact hruns.push hc
    case br =>
      obtain ⟨c, hcells, hframes, -, hip⟩ := next_br hstep
      have hsome : marks.length = 1 ∧ marks' = [] := by
        simpa [Instruction.marksAfter, eq_comm] using hafter
      obtain ⟨hlen, rfl⟩ := hsome
      obtain ⟨mark, rfl⟩ := List.length_eq_one_iff.1 hlen
      rw [hcells] at hruns
      obtain ⟨-, hleft⟩ := hruns.pop (taken_append (.cons (Bool.false_le mark) .nil) [])
      split_ifs at hip
      · exact ⟨f, [], hip ▸ hbranch rfl, hframes ▸ hleft⟩
      · exact ⟨f, [], hip ▸ hnext, hframes ▸ hleft⟩
    case call =>
      obtain ⟨⟨wanted, mark⟩, hcall, hafter⟩ := Option.bind_eq_some_iff.1 hafter
      obtain ⟨left, htaken, rfl⟩ := Option.map_eq_some_iff.1 hafter
      obtain ⟨g, c, rest, hg, hcells, hcells', hframes, hip, -⟩ |
        ⟨s, hnone, hs, hstack, hip, -, hpush⟩ := next_call hstep
      · have hprint : wanted = [false] ∧ mark = true := by
          simpa [Scope.call?, hg, eq_comm] using hcall
        obtain ⟨rfl, rfl⟩ := hprint
        rw [hcells] at hruns
        refine ⟨f, _, hip ▸ hnext, ?_⟩
        rw [hcells', hframes]
        exact (hruns.pop htaken).2.push fun _ => .inl rfl
      · obtain ⟨g, rfl, rfl, hentry⟩ := ht.callee_of_call? hnone hcall hs
        obtain ⟨arguments, rest, hrest, harguments, hleft⟩ := hruns.taken htaken
        refine ⟨g, _, hip ▸ hentry, ?_⟩
        rw [hstack, hrest]
        exact hleft.call harguments hpush hnext
    case ret => exact absurd rfl hret
    case nop => cases hafter
    all_goals cases harity

/-- **A run keeps a machine sound.** -/
theorem Machine.Sound.advance (ht : t.WellTyped) (hfit : t.Addressable) (hgive : t.GivesTruth)
    {n : Nat} (h : m.Sound t) (hm : DanishProse.advance t.program layout n m = .running m') :
    m'.Sound t :=
  advance_keeps (fun _ _ h => h.step ht hfit hgive) h hm

/-- A run starts sound if the first function has no parameters. -/
theorem Tree.WellTyped.sound_boot (ht : t.WellTyped) {others : List Function}
    (hfirst : t.userFunctions = f :: others) (hnone : f.parameterTypes = []) :
    (Machine.boot t.program layout).Sound t := by
  have hentry : f.entryMarks = [] := by rw [Function.entryMarks, hnone]; rfl
  refine ⟨f, f.entryMarks, (ht.standsAt_first hfirst).entry ht, [], [], rfl, hentry ▸ .nil, ⟨?_, ?_⟩,
    .bottom⟩
  · exact Nat.le_of_eq (by simp [Machine.boot, CallStack.entry])
  · rintro slot - -
    rw [Array.getD_eq_getD_getElem?]
    simp only [Machine.boot, CallStack.entry, Array.getElem?_replicate]
    split_ifs
    · exact .inl rfl
    · exact .inl rfl

/-- With parameters, a run does not come beyond its start. -/
theorem Tree.WellTyped.ip_of_parameters (ht : t.WellTyped) (hfit : t.Addressable) {others : List Function}
    (hfirst : t.userFunctions = f :: others) (hsome : f.parameterTypes ≠ []) {n : Nat}
    (hm : DanishProse.advance t.program layout n (.boot t.program layout) = .running m) : m.ip = 0 := by
  cases n with
  | zero =>
    cases hm
    rfl
  | succ n =>
    have hf := ht.standsAt_first hfirst
    obtain ⟨slot, is, heq⟩ := Function.code_eq_stl ht hf.mem hsome 0
    have hcode := (hf.codeAt ht hfit.compact).1
    rw [heq] at hcode
    rw [DanishProse.advance] at hm
    split at hm
    · next hstep =>
      rw [step_of_decode hcode.1] at hstep
      obtain ⟨c, hcells, -⟩ := next_stl hstep
      cases hcells
    · cases hm
    · cases hm

/-- **At the end of an expression, its value is a truth value if its type says so.** -/
theorem Tree.WellTyped.isTruth_of_mem_ends (ht : t.WellTyped) (hfit : t.Addressable)
    (hgive : t.GivesTruth) {n o : Nat}
    (hm : DanishProse.advance t.program layout n (.boot t.program layout) = .running m)
    (hf : t.StandsAt f o) {e : Expression} (he : (m.ip, e) ∈ f.ends t.functions o)
    (hvalue : e.valueType = .boolean) : m.TruthOnTop := by
  obtain ⟨mark, marks, hat, hmark, hlt⟩ := Tree.At.of_mem_ends ht hfit hgive hf he
  cases hfirst : t.userFunctions with
  | nil => exact absurd (hfirst ▸ hf.mem) List.not_mem_nil
  | cons first others =>
    by_cases hnone : first.parameterTypes = []
    · obtain ⟨g, marks', hat', cells, rest, hstack, hfits, -⟩ :=
        (ht.sound_boot hfirst hnone).advance ht hfit hgive hm
      obtain ⟨rfl, rfl⟩ := hat.unique hat'
      obtain ⟨c, cells, hc, -, rfl⟩ := List.forall₂_cons_left_iff.1 hfits
      exact ⟨c, cells ++ rest, hstack, hc (hmark (decide_eq_true hvalue))⟩
    · have hip := ht.ip_of_parameters hfit hfirst hnone hm
      omega

end

/-- **Truth values stay truth values.**  Suppose that the functions of a source that say
    that they give back truth values give back such.  Then wherever a run of the
    program is at the end of an expression, and however much room its frames have, the
    top cell is zero or one if the expression has the type of truth values.  An
    assignment counts as an integer, and leaves the value that it stores. -/
theorem truth_values_kept {source : String} {p : Program} {layout : FrameLayout} {n : Nat}
    {m : Machine} {f : Function} {s : Symbol} {e : Expression} (h : compile source = .ok p)
    (hfit : (Analysis.ofSource source).tree.Addressable)
    (hgive : (Analysis.ofSource source).tree.GivesTruth)
    (hm : advance p layout n (.boot p layout) = .running m)
    (hf : f ∈ (Analysis.ofSource source).tree.userFunctions) (hs : s ∈ p.symbols)
    (hid : f.symbol? = some s.id)
    (he : (m.ip, e) ∈ f.ends (Analysis.ofSource source).tree.functions s.offset) :
    (e.type = .boolean → m.TruthOnTop) ∧
      ∀ slot v, e = .assign slot v → e.type = .integer ∧ (v.type = .boolean → m.TruthOnTop) := by
  obtain ⟨ht, rfl, -⟩ := wellTyped_of_compile h
  have hvalue := ht.isTruth_of_mem_ends hfit hgive hm (ht.standsAt_of_symbol hs hf hid) he
  refine ⟨fun htype => hvalue ?_, ?_⟩
  · cases e with
    | assign slot v => cases htype
    | _ => exact htype
  · rintro slot v rfl
    exact ⟨rfl, hvalue⟩

section Sample

/-- A function stores what another one says is a truth value, and prints what that leaves. -/
def storingSource (given : String) : String :=
  "Offentlig funktion f tilbagegiver heltal. Goddag. Lad x være påstand. Print (gem (g) i x). Farvel. " ++
  "Offentlig funktion g tilbagegiver påstand. Goddag. Tilbagegiv " ++ given ++ ". Farvel."

/-- The call of the second function ends at offset 2. -/
def storingProgram (given : UInt8) : Program :=
  ⟨[⟨1, 8, 0⟩, ⟨2, 0, 14⟩],
    #[25, 2, 5, 3, 0, 0x99, 0xef, 0xbe, 0xad, 0xde, 4, 1, 0, 26, 1, given, 26, 1, 0, 26]⟩

theorem analysis_storing_truth :
    let a := Analysis.ofSource (storingSource "sand")
    a.reports = [] ∧ a.tree.program = storingProgram 1 ∧ a.tree.GivesTruth ∧
      a.tree.userFunctions.length = 2 ∧ (∀ f ∈ a.tree.userFunctions, f.locals.length ≤ 1) ∧
      ∃ f ∈ a.tree.userFunctions, f.symbol? = some 1 ∧
        ∃ x ∈ f.ends a.tree.functions 0, x.1 = 2 ∧ x.2.type = .boolean := by
  decide +kernel

/-- When the second function has returned, its truth value is on top. -/
theorem truth_values_kept_storing :
    ∃ m f e, compile (storingSource "sand") = .ok (storingProgram 1) ∧
      advance (storingProgram 1) .derived 3 (.boot (storingProgram 1) .derived) = .running m ∧
        f ∈ (Analysis.ofSource (storingSource "sand")).tree.userFunctions ∧
          (m.ip, e) ∈ f.ends (Analysis.ofSource (storingSource "sand")).tree.functions 0 ∧
            e.type = .boolean ∧ m.TruthOnTop := by
  obtain ⟨hreports, hprogram, hgive, hfunctions, hlocals, f, hf, hid, ⟨x, e⟩, he, rfl, htype⟩ :=
    analysis_storing_truth
  have hcompile : compile (storingSource "sand") = .ok (storingProgram 1) :=
    compile_eq_ok_iff.2 ⟨hreports, hprogram⟩
  have hfit : (Analysis.ofSource (storingSource "sand")).tree.Addressable := by
    refine ⟨?_, fun g hg => Nat.lt_of_le_of_lt (hlocals g hg) (by decide), ?_⟩
    · rw [hfunctions]
      decide
    · rw [hprogram]
      decide
  have hm : ∃ frames, advance (storingProgram 1) .derived 3 (.boot (storingProgram 1) .derived) =
      .running ⟨2, .ofCells [1], frames, []⟩ := ⟨_, rfl⟩
  obtain ⟨frames, hm⟩ := hm
  have hkept := truth_values_kept hcompile hfit hgive hm hf (s := ⟨1, 8, 0⟩) List.mem_cons_self hid he
  exact ⟨_, f, e, hcompile, hm, hf, he, htype, hkept.1 htype⟩

theorem analysis_storing_integer :
    let a := Analysis.ofSource (storingSource "2")
    a.reports = [] ∧ a.tree.program = storingProgram 2 ∧
      (∃ f ∈ a.tree.userFunctions, f.returnType = .boolean ∧
        ∃ e ∈ actionsGivenBack f.body, e.type = .integer) ∧
      ∃ f ∈ a.tree.userFunctions, f.symbol? = some 1 ∧
        (∃ e ∈ f.nodes, e.type = .integer ∧ e.valueType = .boolean) ∧
        ∃ x ∈ f.ends a.tree.functions 0, x.1 = 2 ∧ x.2.type = .boolean := by
  decide +kernel

/-- Nothing is reported on a function that gives back an integer for a truth value.  The
    assignment that stores it counts as an integer, unlike what it stores; and at the end
    of the call, which has the type of truth values, two is on top. -/
theorem truth_value_two :
    let t := (Analysis.ofSource (storingSource "2")).tree
    ∃ p m, compile (storingSource "2") = .ok p ∧
      (∃ f ∈ t.userFunctions, f.returnType = .boolean ∧
        ∃ e ∈ actionsGivenBack f.body, e.type = .integer) ∧
      (∃ f ∈ t.userFunctions, ∃ e ∈ f.nodes, e.type = .integer ∧ e.valueType = .boolean) ∧
      advance p .derived 3 (.boot p .derived) = .running m ∧
      (∃ f ∈ t.userFunctions, ∃ s ∈ p.symbols, f.symbol? = some s.id ∧
        ∃ e, (m.ip, e) ∈ f.ends t.functions s.offset ∧ e.type = .boolean) ∧
      m.stack.cells = [2] := by
  obtain ⟨hreports, hprogram, hgiven, f, hf, hid, hassign, ⟨x, e⟩, he, rfl, htype⟩ :=
    analysis_storing_integer
  have hcompile : compile (storingSource "2") = .ok (storingProgram 2) :=
    compile_eq_ok_iff.2 ⟨hreports, hprogram⟩
  have hm : ∃ frames, advance (storingProgram 2) .derived 3 (.boot (storingProgram 2) .derived) =
      .running ⟨2, .ofCells [2], frames, []⟩ := ⟨_, rfl⟩
  obtain ⟨frames, hm⟩ := hm
  exact ⟨_, _, hcompile, hgiven, ⟨f, hf, hassign⟩, hm,
    ⟨f, hf, ⟨1, 8, 0⟩, List.mem_cons_self, hid, e, he, htype⟩, rfl⟩

end Sample

end DanishProse
