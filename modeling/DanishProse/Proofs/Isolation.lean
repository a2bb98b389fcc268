/-
  Frames that share their slots, as if each had slots of its own.

  * `OwnedFrames` is a stack of frames with an array each, and the operations of a
    call stack on it.  No operation can reach the array of another frame there;
  * `FrameAction` names the operations, `FrameReply` what comes back, and `replies`
    carries out any number of them;
  * in a call stack that is `Tight` each frame begins where the one below it ends,
    and the shared array ends with the last one.  Every operation keeps it so
    (`Tight.perform`);
  * `CallStack.owned` takes the shared array apart, and `Tight.perform_owned` says
    that an operation on the shared array is the operation on the parts;
  * `frames_isolated`: whatever is done to a call stack, the answers are those of
    frames with slots of their own.
-/
import Mathlib.Algebra.GroupWithZero.Nat
import Mathlib.Tactic.Common
import DanishProse.Proofs.Inversion

namespace DanishProse

/-! ## Frames that own their slots -/

/-- A frame with a slot of its own for each eight of its bytes. -/
structure OwnedFrame where
  size : Nat
  returnOffset : Option Nat
  slots : Vector Cell (size / 8)

/-- A frame whose slots are zero. -/
def OwnedFrame.fresh (size : Nat) (returnOffset : Option Nat) : OwnedFrame :=
  ⟨size, returnOffset, .replicate _ 0⟩

/-- The frame of the running function, and the frames below it. -/
structure OwnedFrames where
  current : OwnedFrame
  outer : List OwnedFrame

namespace OwnedFrames

/-- The frame at the bottom alone. -/
def entry (size : Nat) : OwnedFrames :=
  ⟨.fresh size none, []⟩

/-- The number of frames. -/
def depth (o : OwnedFrames) : Nat :=
  o.outer.length + 1

/-- Opens a frame, unless there are too many. -/
def push (o : OwnedFrames) (size returnOffset : Nat) : Except Fault OwnedFrames :=
  if CallStack.capacity ≤ o.depth then .error .callStackOverflow
  else .ok ⟨.fresh size (some returnOffset), o.current :: o.outer⟩

/-- Closes the current frame, unless it is the one at the bottom.  It is said to have
    begun behind all slots of the frames below it. -/
def pop (o : OwnedFrames) : Option (Frame × OwnedFrames) :=
  match o with
  | ⟨_, []⟩ => none
  | ⟨f, caller :: outer⟩ =>
    some (⟨((caller :: outer).map fun g => slotCount g.size).sum, f.size, f.returnOffset⟩, ⟨caller, outer⟩)

/-- The value of a local of the current frame. -/
def load (o : OwnedFrames) (slot : Nat) : Except Fault Cell :=
  if h : slot < o.current.size / 8 then .ok o.current.slots[slot]
  else .error (.localOutOfFrame slot o.current.size)

/-- Gives a local of the current frame a value. -/
def store (o : OwnedFrames) (slot : Nat) (value : Cell) : Except Fault OwnedFrames :=
  if slot < o.current.size / 8 then
    .ok { o with current := { o.current with slots := o.current.slots.setIfInBounds slot value } }
  else .error (.localOutOfFrame slot o.current.size)

end OwnedFrames

/-! ## Operations one after the other -/

/-- An operation on frames. -/
inductive FrameAction where
  | push (size returnOffset : Nat)
  | pop
  | load (slot : Nat)
  | store (slot : Nat) (value : Cell)

/-- What comes back from an operation. -/
inductive FrameReply where
  | done
  | value (c : Cell)
  | closed (frame : Option Frame)
  | fault (f : Fault)

/-- The answer of an operation that leaves other frames behind, if it does anything. -/
def FrameReply.ofUpdate {α : Type} (a : α) : Except Fault α → FrameReply × α
  | .ok b => (.done, b)
  | .error f => (.fault f, a)

/-- The answer of an operation that closes a frame, if there is one to close. -/
def FrameReply.ofClosing {α : Type} (a : α) : Option (Frame × α) → FrameReply × α
  | some (frame, b) => (.closed (some frame), b)
  | none => (.closed none, a)

/-- The answer of an operation that only looks. -/
def FrameReply.ofValue : Except Fault Cell → FrameReply
  | .ok c => .value c
  | .error f => .fault f

/-- Carries out an operation on a call stack. -/
def CallStack.perform (s : CallStack) : FrameAction → FrameReply × CallStack
  | .push size returnOffset => FrameReply.ofUpdate s (s.push size returnOffset)
  | .pop => FrameReply.ofClosing s s.pop
  | .load slot => (FrameReply.ofValue (s.load slot), s)
  | .store slot value => FrameReply.ofUpdate s (s.store slot value)

/-- Carries out an operation on frames that own their slots. -/
def OwnedFrames.perform (o : OwnedFrames) : FrameAction → FrameReply × OwnedFrames
  | .push size returnOffset => FrameReply.ofUpdate o (o.push size returnOffset)
  | .pop => FrameReply.ofClosing o o.pop
  | .load slot => (FrameReply.ofValue (o.load slot), o)
  | .store slot value => FrameReply.ofUpdate o (o.store slot value)

/-- The answers of operations one after the other, and what they leave behind. -/
def replies {α : Type} (perform : α → FrameAction → FrameReply × α) :
    α → List FrameAction → List FrameReply × α
  | a, [] => ([], a)
  | a, x :: xs =>
    let r := perform a x
    let more := replies perform r.2 xs
    (r.1 :: more.1, more.2)

/-! ## Arrays that agree -/

/-- Two lists of slots agree before a limit. -/
def AgreeBelow (limit : Nat) (slots slots' : Array Cell) : Prop :=
  ∀ j < limit, slots'.getD j 0 = slots.getD j 0

section
variable {slots slots' : Array Cell} {limit : Nat}

theorem lt_slotCount {slot size : Nat} (h : slot * 8 + 8 ≤ size) : slot < slotCount size := by
  unfold slotCount
  omega

theorem AgreeBelow.append (more : Array Cell) : AgreeBelow slots.size slots (slots ++ more) := by
  intro j hj
  rw [Array.getD_eq_getD_getElem?, Array.getElem?_append_left hj, ← Array.getD_eq_getD_getElem?]

theorem AgreeBelow.shrink (n : Nat) : AgreeBelow n slots (slots.shrink n) := by
  intro j hj
  rw [Array.getD_eq_getD_getElem?, Array.getD_eq_getD_getElem?, Array.shrink_eq_take,
    Array.take_eq_extract, Array.getElem?_extract]
  split_ifs with h
  · simp
  · rw [Array.getElem?_eq_none (by omega)]

theorem AgreeBelow.store {n j : Nat} (h : n ≤ j) (c : Cell) :
    AgreeBelow n slots (slots.setIfInBounds j c) := by
  intro k hk
  rw [Array.getD_eq_getD_getElem?, Array.getElem?_setIfInBounds, if_neg (by omega),
    ← Array.getD_eq_getD_getElem?]

theorem AgreeBelow.mono {n : Nat} (h : n ≤ limit) (hslots : AgreeBelow limit slots slots') :
    AgreeBelow n slots slots' :=
  fun j hj => hslots j (Nat.lt_of_lt_of_le hj h)

end

/-! ## Frames one behind the other -/

/-- Frames, the last one first, each of which begins where the one below it ends; the
    last one ends at a limit. -/
def Tight : Nat → List Frame → Prop
  | limit, [] => limit = 0
  | limit, f :: fs => f.base + slotCount f.size = limit ∧ Tight f.base fs

/-- The frames of a call stack lie tight in its slots, and there are not too many. -/
structure CallStack.Tight (s : CallStack) : Prop where
  frames : DanishProse.Tight s.slots.size (s.current :: s.outer)
  room : s.depth ≤ capacity

/-- A frame with its part of the shared slots. -/
def Frame.owned (slots : Array Cell) (f : Frame) : OwnedFrame :=
  ⟨f.size, f.returnOffset, .ofFn fun i => slots.getD (f.base + i) 0⟩

/-- A call stack with its slots taken apart. -/
def CallStack.owned (s : CallStack) : OwnedFrames :=
  ⟨s.current.owned s.slots, s.outer.map (Frame.owned s.slots)⟩

section
variable {f : Frame} {fs : List Frame} {slots slots' : Array Cell} {limit : Nat}

theorem Frame.owned_congr (h : AgreeBelow limit slots slots') (hf : f.base + slotCount f.size ≤ limit) :
    f.owned slots' = f.owned slots := by
  unfold Frame.owned
  congr 2
  funext i
  have hi := i.isLt
  refine h _ ?_
  unfold slotCount at hf
  omega

/-- What lies before a limit only depends on the slots before it. -/
theorem Tight.map_owned (ht : Tight limit fs) (h : AgreeBelow limit slots slots') :
    fs.map (Frame.owned slots') = fs.map (Frame.owned slots) := by
  induction fs generalizing limit with
  | nil => rfl
  | cons f fs ih =>
    obtain ⟨hf, hfs⟩ := ht
    have hle : f.base ≤ limit := by omega
    rw [List.map_cons, List.map_cons, Frame.owned_congr h (Nat.le_of_eq hf), ih hfs (h.mono hle)]

/-- Frames that lie tight end where their slots add up to. -/
theorem Tight.limit_eq (ht : Tight limit fs) : limit = (fs.map fun f => slotCount f.size).sum := by
  induction fs generalizing limit with
  | nil => exact ht
  | cons f fs ih =>
    obtain ⟨hf, hfs⟩ := ht
    rw [List.map_cons, List.sum_cons, ← ih hfs]
    omega

end

namespace CallStack
variable {s : CallStack}

theorem depth_owned (s : CallStack) : s.owned.depth = s.depth := by
  rw [s.depth_eq, OwnedFrames.depth, owned, List.length_map]

/-- A slot may be used if the frame owns it. -/
theorem inFrame_iff (s : CallStack) (slot : Nat) : s.inFrame slot ↔ slot < s.current.size / 8 := by
  unfold inFrame
  omega

/-- It makes no difference to a frame of less than 2³² bytes if offsets stop at the
    largest one that 64 bits can say. -/
theorem inFrame_iff_clamped {s : CallStack} (h : s.current.size < 2 ^ 32) (slot : Nat) :
    s.inFrame slot ↔ min (min (slot * 8) (2 ^ 64 - 1) + 8) (2 ^ 64 - 1) ≤ s.current.size := by
  unfold inFrame
  omega

theorem tight_entry (size : Nat) : (entry size).Tight := by
  refine ⟨⟨?_, rfl⟩, ?_⟩
  · simp [entry]
  · show 1 ≤ capacity
    decide

theorem getD_replicate_zero (n j : Nat) : (Array.replicate n (0 : Cell)).getD j 0 = 0 := by
  rw [Array.getD_eq_getD_getElem?, Array.getElem?_replicate]
  split_ifs <;> rfl

/-- New slots are zero, whatever lies before them. -/
theorem owned_fresh (slots : Array Cell) (size n : Nat) (returnOffset : Option Nat) :
    Frame.owned (slots ++ Array.replicate n 0) ⟨slots.size, size, returnOffset⟩ =
      .fresh size returnOffset := by
  unfold Frame.owned OwnedFrame.fresh
  congr 1
  refine Vector.ext fun i hi => ?_
  rw [Vector.getElem_ofFn, Vector.getElem_replicate, Array.getD_eq_getD_getElem?,
    Array.getElem?_append_right (Nat.le_add_right _ _), Nat.add_sub_cancel_left,
    ← Array.getD_eq_getD_getElem?, getD_replicate_zero]

theorem owned_entry (size : Nat) : (entry size).owned = .entry size := by
  have hfresh := owned_fresh #[] size (slotCount size) none
  rw [Array.empty_append] at hfresh
  rw [OwnedFrames.entry, ← hfresh]
  rfl

/-! ## Operations on call stacks -/

/-- **What is used of the shared slots is there.** -/
theorem Tight.inBounds (h : s.Tight) {slot : Nat} (hslot : s.inFrame slot) :
    s.current.base + slot < s.slots.size := by
  have hlt := lt_slotCount hslot
  have hend := h.frames.1
  omega

theorem load_owned (s : CallStack) (slot : Nat) : s.owned.load slot = s.load slot := by
  have hin := s.inFrame_iff slot
  by_cases hslot : slot < s.current.size / 8
  · rw [load, if_pos (hin.2 hslot)]
    refine (dif_pos hslot).trans (congrArg Except.ok ?_)
    exact Vector.getElem_ofFn hslot
  · rw [load, if_neg (fun h => hslot (hin.1 h))]
    exact dif_neg hslot

/-- A slot of a frame is stored to in the part of the frame. -/
theorem owned_store {f : Frame} {slots : Array Cell} {slot : Nat} (h : f.base + slot < slots.size)
    (c : Cell) : f.owned (slots.setIfInBounds (f.base + slot) c) =
      { f.owned slots with slots := (f.owned slots).slots.setIfInBounds slot c } := by
  unfold Frame.owned
  congr 1
  refine Vector.ext fun i hi => ?_
  simp only [Vector.getElem_setIfInBounds, Vector.getElem_ofFn, Array.getD_eq_getD_getElem?,
    Array.getElem?_setIfInBounds, Nat.add_left_cancel_iff]
  split_ifs
  · rfl
  · rfl

theorem Tight.store_owned (h : s.Tight) (slot : Nat) (c : Cell) :
    s.owned.store slot c = (s.store slot c).map owned := by
  have hin := s.inFrame_iff slot
  unfold store OwnedFrames.store
  by_cases hslot : slot < s.current.size / 8
  · have hstore := owned_store (h.inBounds (hin.2 hslot)) c
    have hbelow : s.outer.map (Frame.owned (s.slots.setIfInBounds (s.current.base + slot) c)) =
        s.outer.map (Frame.owned s.slots) :=
      h.frames.2.map_owned (.store (Nat.le_add_right _ slot) c)
    rw [if_pos (hin.2 hslot)]
    refine (if_pos hslot).trans (congrArg Except.ok ?_)
    exact congrArg₂ OwnedFrames.mk hstore.symm hbelow.symm
  · rw [if_neg (fun h => hslot (hin.1 h))]
    exact if_neg hslot

theorem Tight.push_owned (h : s.Tight) (size returnOffset : Nat) :
    s.owned.push size returnOffset = (s.push size returnOffset).map owned := by
  unfold push OwnedFrames.push isFull
  rw [depth_owned]
  by_cases hfull : capacity ≤ s.depth
  · simp [hfull, Except.map]
  · obtain ⟨current, outer, depth, slots, hdepth⟩ := s
    have hold := h.frames.map_owned (.append (Array.replicate (slotCount size) 0))
    rw [List.map_cons, List.map_cons] at hold
    obtain ⟨hcurrent, houter⟩ := List.cons.inj hold
    simp only [hfull, decide_false, if_false, Bool.false_eq_true, Except.map, opened, owned, owned_fresh,
      List.map_cons, hcurrent, houter]

theorem Tight.pop_owned (h : s.Tight) :
    s.owned.pop = s.pop.map fun r => (r.1, r.2.owned) := by
  obtain ⟨current, _ | ⟨caller, outer⟩, depth, slots, hdepth⟩ := s
  · rfl
  · have hold : (caller :: outer).map (Frame.owned (slots.shrink current.base)) =
        (caller :: outer).map (Frame.owned slots) := h.frames.2.map_owned (.shrink current.base)
    have hbase := h.frames.2.limit_eq
    rw [List.map_cons, List.map_cons] at hold
    obtain ⟨hcaller, houter⟩ := List.cons.inj hold
    have hsum : ((caller :: outer).map (Frame.owned slots)).map (fun g => slotCount g.size) =
        (caller :: outer).map fun g => slotCount g.size := List.map_map
    simp only [pop, Option.map_some, owned, hcaller, houter]
    rw [List.map_cons, OwnedFrames.pop, ← List.map_cons, hsum, ← hbase]
    rfl

/-! ## Frames stay tight -/

/-- A call stack is tight if its frames are, and there are not too many of them. -/
theorem tight_of {limit : Nat} {fs : List Frame} (hframes : DanishProse.Tight limit fs)
    (hfs : s.current :: s.outer = fs) (hsize : s.slots.size = limit) (hroom : fs.length ≤ capacity) :
    s.Tight := by
  subst hfs hsize
  exact ⟨hframes, s.depth_eq ▸ hroom⟩

theorem Tight.length_le (h : s.Tight) : (s.current :: s.outer).length ≤ capacity :=
  Nat.le_trans (Nat.le_of_eq s.depth_eq.symm) h.room

theorem Tight.push (h : s.Tight) {size returnOffset : Nat} {s' : CallStack}
    (hpush : s.push size returnOffset = .ok s') : s'.Tight := by
  obtain ⟨hcurrent, houter, hslots⟩ := push_eq_ok hpush
  have hroom : ¬ s.isFull = true := by
    intro hfull
    rw [CallStack.push, if_pos hfull] at hpush
    cases hpush
  rw [isFull, decide_eq_true_eq, s.depth_eq] at hroom
  have hframes : DanishProse.Tight (s.slots.size + slotCount size)
      (⟨s.slots.size, size, some returnOffset⟩ :: s.current :: s.outer) := ⟨rfl, h.frames⟩
  refine tight_of hframes (by rw [hcurrent, houter]) ?_ (Nat.lt_of_not_le hroom)
  rw [hslots, Array.size_append, Array.size_replicate]

theorem Tight.pop (h : s.Tight) {frame : Frame} {s' : CallStack} (hpop : s.pop = some (frame, s')) :
    s'.Tight := by
  obtain ⟨-, houter, hslots⟩ := pop_eq_some hpop
  obtain ⟨hend, hframes⟩ := h.frames
  have hroom := h.length_le
  rw [houter] at hframes
  rw [houter, List.length_cons] at hroom
  refine tight_of hframes rfl ?_ (Nat.le_of_succ_le hroom)
  rw [hslots, Array.size_shrink]
  omega

theorem Tight.store (h : s.Tight) {slot : Nat} {c : Cell} {s' : CallStack}
    (hstore : s.store slot c = .ok s') : s'.Tight := by
  obtain ⟨-, hcurrent, houter, hslots⟩ := store_eq_ok hstore
  refine tight_of h.frames (by rw [hcurrent, houter]) ?_ h.length_le
  rw [hslots, Array.size_setIfInBounds]

/-- **An operation keeps frames tight.** -/
theorem Tight.perform (h : s.Tight) (a : FrameAction) : (s.perform a).2.Tight := by
  cases a with
  | push size returnOffset =>
    rw [CallStack.perform]
    cases hpush : s.push size returnOffset with
    | error f => exact h
    | ok s' => exact h.push hpush
  | pop =>
    rw [CallStack.perform]
    cases hpop : s.pop with
    | none => exact h
    | some r => exact h.pop hpop
  | load slot => exact h
  | store slot value =>
    rw [CallStack.perform]
    cases hstore : s.store slot value with
    | error f => exact h
    | ok s' => exact h.store hstore

/-- **An operation on the shared slots is the operation on the slots that frames own.** -/
theorem Tight.perform_owned (h : s.Tight) (a : FrameAction) :
    s.owned.perform a = ((s.perform a).1, (s.perform a).2.owned) := by
  cases a with
  | push size returnOffset =>
    rw [CallStack.perform, OwnedFrames.perform, h.push_owned]
    cases s.push size returnOffset <;> rfl
  | pop =>
    rw [CallStack.perform, OwnedFrames.perform, h.pop_owned]
    cases s.pop <;> rfl
  | load slot => rw [CallStack.perform, OwnedFrames.perform, load_owned]
  | store slot value =>
    rw [CallStack.perform, OwnedFrames.perform, h.store_owned]
    cases s.store slot value <;> rfl

/-- What is left behind by operations on a call stack is tight, and their answers are
    those of frames that own their slots. -/
theorem Tight.replies_owned (h : s.Tight) (actions : List FrameAction) :
    (replies CallStack.perform s actions).2.Tight ∧
      replies OwnedFrames.perform s.owned actions =
        ((replies CallStack.perform s actions).1, (replies CallStack.perform s actions).2.owned) := by
  induction actions generalizing s with
  | nil => exact ⟨h, rfl⟩
  | cons a actions ih =>
    obtain ⟨htight, hreplies⟩ := ih (h.perform a)
    refine ⟨htight, ?_⟩
    rw [replies, replies, h.perform_owned a]
    simp only [hreplies]

end CallStack

/-! ## Frames below a call -/

/-- What operations leave behind of a call stack. -/
def CallStack.after (s : CallStack) (actions : List FrameAction) : CallStack :=
  (replies perform s actions).2

/-- While a frame is open, nothing happens to those below it. -/
theorem OwnedFrames.suffix_perform {below : List OwnedFrame} {o : OwnedFrames} (h : below <:+ o.outer)
    (a : FrameAction) (hdepth : below.length < (o.perform a).2.depth) :
    below <:+ (o.perform a).2.outer := by
  cases a with
  | push size returnOffset =>
    simp only [perform, push]
    split_ifs
    · exact h
    · exact h.trans (List.suffix_cons _ _)
  | pop =>
    obtain ⟨current, _ | ⟨caller, outer⟩⟩ := o
    · exact h
    · change below.length < outer.length + 1 at hdepth
      rcases List.suffix_cons_iff.1 h with rfl | h
      · simp at hdepth
      · exact h
  | load slot => exact h
  | store slot value =>
    simp only [perform, store]
    split_ifs
    · exact h
    · exact h

theorem OwnedFrames.suffix_replies {below : List OwnedFrame} {o : OwnedFrames}
    {actions : List FrameAction} (h : below <:+ o.outer)
    (hdepth : ∀ n ≤ actions.length, below.length < (replies perform o (actions.take n)).2.depth) :
    below <:+ (replies perform o actions).2.outer := by
  induction actions generalizing o with
  | nil => exact h
  | cons a actions ih =>
    refine ih (suffix_perform h a ?_) fun n hn => ?_
    · have hfirst := hdepth 1 (by simp)
      rwa [List.take_succ_cons, List.take_zero] at hfirst
    · have hnext := hdepth (n + 1) (Nat.succ_le_succ hn)
      rwa [List.take_succ_cons] at hnext

namespace CallStack
variable {s : CallStack}

/-- A frame that is opened comes on top of the others, and its slots are zero. -/
theorem Tight.owned_of_push (h : s.Tight) {size returnOffset : Nat} {s' : CallStack}
    (hpush : s.push size returnOffset = .ok s') :
    s'.owned = ⟨.fresh size (some returnOffset), s.owned.current :: s.owned.outer⟩ := by
  have hown := h.push_owned size returnOffset
  rw [hpush, OwnedFrames.push] at hown
  split_ifs at hown
  · cases hown
  · exact (Except.ok.inj hown).symm

/-- **A call that returns leaves the frames of its callers as they were**, whatever it
    has done in between. -/
theorem Tight.restored (h : s.Tight) {size returnOffset : Nat} {s₁ s₂ : CallStack} {frame : Frame}
    {actions : List FrameAction} (hpush : s.push size returnOffset = .ok s₁)
    (hopen : ∀ n ≤ actions.length, s.depth < (s₁.after (actions.take n)).depth)
    (hpop : (s₁.after actions).pop = some (frame, s₂)) (hdepth : s₂.depth = s.depth) :
    s₂.owned = s.owned := by
  have h₁ := h.push hpush
  have hafter (actions : List FrameAction) :
      (replies OwnedFrames.perform s₁.owned actions).2 = (s₁.after actions).owned :=
    congrArg Prod.snd (h₁.replies_owned actions).2
  have hbelow : s₁.owned.outer = s.owned.current :: s.owned.outer := by
    rw [h.owned_of_push hpush]
  have hlen : (s.owned.current :: s.owned.outer).length = s.depth := by
    rw [← depth_owned, OwnedFrames.depth, List.length_cons]
  -- the frames that were there lie below all that was done
  have hsuffix : (s.owned.current :: s.owned.outer) <:+ (s₁.after actions).owned.outer := by
    rw [← hafter]
    refine OwnedFrames.suffix_replies (hbelow ▸ List.suffix_refl _) fun n hn => ?_
    rw [hlen, hafter, depth_owned]
    exact hopen n hn
  have hclosed := (h₁.replies_owned actions).1.pop_owned
  change (s₁.after actions).owned.pop = (s₁.after actions).pop.map _ at hclosed
  rw [hpop] at hclosed
  generalize (s₁.after actions).owned = o at hsuffix hclosed
  obtain ⟨current, _ | ⟨caller, outer⟩⟩ := o
  · cases hclosed
  · have hown : (⟨caller, outer⟩ : OwnedFrames) = s₂.owned := congrArg Prod.snd (Option.some.inj hclosed)
    have hsame : (caller :: outer).length = s.depth := by
      rw [← hdepth, ← depth_owned, ← hown, OwnedFrames.depth, List.length_cons]
    obtain ⟨hcaller, houter⟩ := List.cons.inj (hsuffix.eq_of_length (hlen.trans hsame.symm))
    rw [← hown, ← hcaller, ← houter]

end CallStack

/-! ## Isolation -/

/-- What a frame may expect of a call stack. -/
structure CallStack.Isolated (s : CallStack) : Prop where
  /-- Slots that may be used are there. -/
  inBounds : ∀ slot, s.inFrame slot → s.current.base + slot < s.slots.size
  /-- Slots may be used if they lie within the bytes of the frame. -/
  load : ∀ slot, if slot * 8 + 8 ≤ s.current.size then ∃ c, s.load slot = .ok c
    else s.load slot = .error (.localOutOfFrame slot s.current.size)
  /-- What is stored is seen in its slot, and nowhere else. -/
  store : ∀ slot c, if slot * 8 + 8 ≤ s.current.size then
      ∃ s', s.store slot c = .ok s' ∧ s'.owned.outer = s.owned.outer ∧
        ∀ other, s'.load other = if other = slot then .ok c else s.load other
    else s.store slot c = .error (.localOutOfFrame slot s.current.size)
  /-- A frame is opened unless there are too many, and its slots are zero. -/
  push : ∀ size returnOffset, if s.depth = 0x10000 then
      s.push size returnOffset = .error .callStackOverflow
    else ∃ s', s.push size returnOffset = .ok s' ∧ s'.owned.outer = s.owned.current :: s.owned.outer ∧
      ∀ slot, slot * 8 + 8 ≤ size → s'.load slot = .ok 0
  /-- A frame is closed unless it is the one at the bottom. -/
  pop : s.pop = none ↔ s.depth = 1
  /-- Its caller finds all frames as they were. -/
  restored : ∀ {size returnOffset : Nat} {s₁ s₂ : CallStack} {frame : Frame}
    {actions : List FrameAction}, s.push size returnOffset = .ok s₁ →
    (∀ n ≤ actions.length, s.depth < (s₁.after (actions.take n)).depth) →
    (s₁.after actions).pop = some (frame, s₂) → s₂.depth = s.depth → s₂.owned = s.owned

namespace CallStack
variable {s : CallStack}

theorem load_eq (s : CallStack) (slot : Nat) : s.load slot =
    if slot * 8 + 8 ≤ s.current.size then .ok (s.slots.getD (s.current.base + slot) 0)
    else .error (.localOutOfFrame slot s.current.size) := rfl

theorem Tight.load_store (h : s.Tight) {slot : Nat} {c : Cell} {s' : CallStack}
    (hstore : s.store slot c = .ok s') (other : Nat) :
    s'.load other = if other = slot then .ok c else s.load other := by
  obtain ⟨hin, hcurrent, -, hslots⟩ := store_eq_ok hstore
  have hbounds := h.inBounds hin
  rw [load_eq, load_eq, hcurrent, hslots]
  by_cases hother : other = slot
  · subst hother
    rw [if_pos hin, if_pos rfl, Array.getD_eq_getD_getElem?, Array.getElem?_setIfInBounds, if_pos rfl,
      if_pos hbounds]
    rfl
  · have hne : s.current.base + slot ≠ s.current.base + other := by omega
    rw [if_neg hother, Array.getD_eq_getD_getElem?, Array.getElem?_setIfInBounds, if_neg hne,
      ← Array.getD_eq_getD_getElem?]

/-- **The frames of a tight call stack are isolated.** -/
theorem Tight.isolated (h : s.Tight) : s.Isolated where
  inBounds _ := h.inBounds
  load slot := by
    rw [load_eq]
    split_ifs with hin
    · exact ⟨_, rfl⟩
    · rfl
  store slot c := by
    split_ifs with hin
    · obtain ⟨s', hstore⟩ : ∃ s', s.store slot c = .ok s' := ⟨_, if_pos hin⟩
      refine ⟨s', hstore, ?_, h.load_store hstore⟩
      obtain ⟨-, -, houter, hslots⟩ := store_eq_ok hstore
      simp only [owned, houter, hslots]
      exact h.frames.2.map_owned (.store (Nat.le_add_right _ slot) c)
    · exact if_neg hin
  push size returnOffset := by
    have hfull : s.isFull = true ↔ s.depth = capacity := by
      rw [isFull, decide_eq_true_eq]
      exact ⟨fun hle => Nat.le_antisymm h.room hle, Nat.le_of_eq ∘ Eq.symm⟩
    split_ifs with hdepth
    · rw [CallStack.push, if_pos (hfull.2 hdepth)]
    · obtain ⟨s', hpush⟩ : ∃ s', s.push size returnOffset = .ok s' :=
        ⟨_, if_neg fun hf => hdepth (hfull.1 hf)⟩
      have hown := h.owned_of_push hpush
      refine ⟨s', hpush, by rw [hown], fun slot hslot => ?_⟩
      have hlt : slot < size / 8 := by omega
      rw [← load_owned, hown]
      refine (dif_pos hlt).trans (congrArg Except.ok ?_)
      exact Vector.getElem_replicate hlt
  pop := by
    obtain ⟨current, _ | ⟨caller, outer⟩, depth, slots, rfl⟩ := s
    · simp [CallStack.pop]
    · simp [CallStack.pop]
  restored := h.restored

end CallStack

/-- **Frames are isolated.**  Whatever is done to a call stack, what comes back is the same
    as from frames with slots of their own, and so is what is left behind; in the
    shared slots nothing is used that is not there. -/
theorem frames_isolated (size : Nat) (actions : List FrameAction) :
    let shared := replies CallStack.perform (.entry size) actions
    let separate := replies OwnedFrames.perform (.entry size) actions
    shared.1 = separate.1 ∧ shared.2.owned = separate.2 ∧ shared.2.Isolated := by
  obtain ⟨htight, hreplies⟩ := (CallStack.tight_entry size).replies_owned actions
  rw [CallStack.owned_entry] at hreplies
  exact ⟨(congrArg Prod.fst hreplies).symm, (congrArg Prod.snd hreplies).symm, htight.isolated⟩

end DanishProse
