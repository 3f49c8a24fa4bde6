import Whiteout.Error
import Whiteout.Tree.Basic

/-!
# The host

What the host adds to a request without being asked: it keeps permission bits from a new entry,
hands special bits of a directory down to the directories made in it, takes special bits off a file
that is given away or written to, and may give up in the middle of a write. The special bits are
set-user-ID, set-group-ID and the sticky bit. An entry that the library makes is given to the
identity a request acts as; the root user and the root group leave it with the process.
-/

namespace Whiteout

structure Identity where
  uid : Nat
  gid : Nat
  deriving DecidableEq, Repr

namespace Identity

def isPrivileged (id : Identity) : Bool := id.uid == 0 || id.gid == 0

/-- The number that stands for an owner or a group left as it is. -/
def unchanged : Nat := Nat.pow 2 32 - 1

def changesNothing (id : Identity) : Bool := id.uid == unchanged && id.gid == unchanged

end Identity

class Host where
  /-- Whose process makes the requests. -/
  process : Identity
  /-- The home directory that the host's accounts name for the process. -/
  accountHome : Option Bytes
  umask : Nat
  /-- The special bits that a directory takes over from the one it is made in. -/
  inherits : Nat
  /-- Why the entry at a place may not be given to an identity, if so. -/
  refusal? : Location → Identity → Option Errno
  /-- The special bits that a file with these permission bits loses when it is given away. -/
  takenByGiving : Nat → Nat
  takenByWriting : Nat → Nat
  /-- After how many bytes a write of the content to a place breaks off, and why, if it does. -/
  breaksOff? : Location → Bytes → Option (Nat × IoError)

namespace Host

def without (bits taken : Nat) : Nat := bits ^^^ (bits &&& taken)

def granted [Host] (mode : Nat) : Nat := without mode umask

theorem without_of_disjoint {bits taken : Nat} (h : bits &&& taken = 0) :
    without bits taken = bits := by
  rw [without, h, Nat.xor_zero]

@[simp] theorem without_zero (bits : Nat) : without bits 0 = bits :=
  without_of_disjoint (Nat.and_zero bits)

@[simp] theorem zero_without (taken : Nat) : without 0 taken = 0 := by simp [without]

@[simp] theorem without_without (bits taken : Nat) :
    without (without bits taken) taken = without bits taken := by
  refine Nat.eq_of_testBit_eq fun i => ?_
  simp only [without, Nat.testBit_xor, Nat.testBit_and]
  cases bits.testBit i <;> cases taken.testBit i <;> rfl

/-- A host that grants what is asked, hands nothing down and takes nothing, run as the superuser;
no entry may be given to another identity. -/
@[reducible] def plain : Host where
  process := ⟨0, 0⟩
  accountHome := none
  umask := 0
  inherits := 0
  refusal? := fun _ id => if id.changesNothing then none else some .notPermitted
  takenByGiving := fun _ => 0
  takenByWriting := fun _ => 0
  breaksOff? := fun _ _ => none

end Host

end Whiteout
