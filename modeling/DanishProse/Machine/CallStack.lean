/-
  Frames of function calls, and the slots of their locals.

  All frames keep their locals in one array of slots, each frame behind the one
  that called it; `base` is the first slot of a frame.  A frame of some bytes
  has a slot for each eight of them, rounded up, but a slot may only be used if
  it lies within the bytes as a whole.  New slots are zero, and the slots of a
  frame are given up when it returns.

  The frame at the bottom stays, and at most `CallStack.capacity` frames are
  open at a time.
-/
import DanishProse.Machine.Cell
import DanishProse.Machine.Fault

namespace DanishProse

/-- A call that has not returned. -/
structure Frame where
  base : Nat
  /-- The bytes of its locals. -/
  size : Nat
  /-- Where the caller goes on; nowhere for the frame at the bottom. -/
  returnOffset : Option Nat
deriving DecidableEq

/-- The slots that a frame of some bytes takes. -/
def slotCount (size : Nat) : Nat :=
  (size + 7) / 8

/-- The frame of the running function, the frames below it, and the slots of all
    of them. -/
structure CallStack where
  current : Frame
  /-- The callers, the last one first. -/
  outer : List Frame
  /-- The number of frames. -/
  depth : Nat
  slots : Array Cell
  depth_eq : depth = outer.length + 1

namespace CallStack

/-- The most frames that may be open. -/
def capacity : Nat := 0x10000

/-- The frame at the bottom alone. -/
def entry (size : Nat) : CallStack :=
  ⟨⟨0, size, none⟩, [], 1, Array.replicate (slotCount size) 0, rfl⟩

/-- No other frame can be opened. -/
def isFull (s : CallStack) : Bool :=
  capacity ≤ s.depth

/-- The call stack with another frame on top. -/
def opened (s : CallStack) (size returnOffset : Nat) : CallStack :=
  match s with
  | ⟨current, outer, depth, slots, h⟩ =>
    let base := slots.size
    ⟨⟨base, size, some returnOffset⟩, current :: outer, depth + 1,
      slots ++ Array.replicate (slotCount size) 0, by simp [h]⟩

/-- Opens a frame, unless there are too many. -/
def push (s : CallStack) (size returnOffset : Nat) : Except Fault CallStack :=
  if s.isFull then .error .callStackOverflow else .ok (s.opened size returnOffset)

/-- Closes the current frame, unless it is the one at the bottom. -/
def pop (s : CallStack) : Option (Frame × CallStack) :=
  match s with
  | ⟨_, [], _, _, _⟩ => none
  | ⟨current, caller :: outer, depth, slots, h⟩ =>
    some (current, ⟨caller, outer, depth - 1, slots.shrink current.base, by simp [h]⟩)

/-- The slot lies within the bytes of the current frame. -/
def inFrame (s : CallStack) (slot : Nat) : Prop :=
  slot * 8 + 8 ≤ s.current.size

instance (s : CallStack) (slot : Nat) : Decidable (s.inFrame slot) :=
  inferInstanceAs (Decidable (_ ≤ _))

/-- The value of a local. -/
def load (s : CallStack) (slot : Nat) : Except Fault Cell :=
  if s.inFrame slot then .ok (s.slots.getD (s.current.base + slot) 0)
  else .error (.localOutOfFrame slot s.current.size)

/-- Gives a local a value. -/
def store (s : CallStack) (slot : Nat) (value : Cell) : Except Fault CallStack :=
  if s.inFrame slot then
    match s with
    | ⟨current, outer, depth, slots, h⟩ =>
      .ok ⟨current, outer, depth, slots.setIfInBounds (current.base + slot) value, h⟩
  else .error (.localOutOfFrame slot s.current.size)

end CallStack

end DanishProse
