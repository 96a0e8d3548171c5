import FuguexPeripheral.Interrupt.Basic
import FuguexPeripheral.Pcode

/-!
# The interrupt backend

Model of `src/backend/interrupt.rs`: the flags of one interrupt line and the place
where its routine is found.
-/

namespace FuguexPeripheral.Backend

open ByteStore

/-! ## Handlers -/

/-- An overrider that never fires. -/
structure EmptyInterruptHandlerOverrider where
  deriving DecidableEq, Repr

instance {S Op : Type*} : InterruptHandlerOverrider EmptyInterruptHandlerOverrider S Op where
  fire o _ state _ _ := ⟨.ok none, o, state⟩

/-- The address of a routine, the address of a pointer to it, or a function. -/
inductive InterruptHandler (I : Type*)
  | routine (a : Address)
  | vector (a : Address)
  | override (o : I)
  deriving DecidableEq, Repr

namespace InterruptHandler

variable {I : Type*} {O : Order}

def getRoutineAddress (h : InterruptHandler I) (state : PCodeState O) : Option Address :=
  match h with
  | .routine a => some a
  | .vector a => some (state.readU32 a).toNat
  | .override _ => none

end InterruptHandler

/-! ## Interrupts -/

structure Interrupt where
  name : String
  enabled : Bool
  triggered : Bool
  triggerCount : Nat
  priority : Int32
  deriving DecidableEq, Repr

namespace Interrupt

def new (name : String) : Interrupt :=
  { name := name, enabled := false, triggered := false, triggerCount := 0, priority := 0 }

def setTriggered (i : Interrupt) (val : Bool) : Interrupt :=
  { i with triggered := val }

def isTriggered (i : Interrupt) : Bool :=
  i.triggered

def setEnable (i : Interrupt) (val : Bool) : Interrupt :=
  { i with enabled := val }

def isEnabled (i : Interrupt) : Bool :=
  i.enabled

end Interrupt

end FuguexPeripheral.Backend
