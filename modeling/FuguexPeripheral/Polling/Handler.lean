import FuguexPeripheral.Pcode

/-!
# Polling handlers

Model of `src/polling/mod.rs`: a peripheral that the firmware polls serves the reads and the
writes of an address range. `Input` and `Output` are `Address` wherever the source uses the
trait.
-/

namespace FuguexPeripheral.Polling

open ByteStore

/-- The error of a polling handler. -/
inductive Error
  | invalidRegister (name : String)
  | handleInputFailed
  | handleOutputFailed
  | initFailed
  | handlerError (component : String)
  deriving DecidableEq, Repr

/-- What a call of a handler that does not panic leaves behind, and what it returns. -/
structure Handled (P : Type) (O : Order) where
  peripheral : P
  state : PCodeState O
  result : Except Error Unit

/-- The trait `PollingPeripheralHandler`. A call that panics is `Except.error`. -/
class PollingPeripheralHandler (P : Type) (O : Order) (Panic : outParam Type) where
  init : P → PCodeState O → Except Panic (Handled P O)
  handleInput : P → PCodeState O → Address → Nat → Except Panic (Handled P O)
  handleOutput : P → PCodeState O → Address → List UInt8 → Nat → Except Panic (Handled P O)

end FuguexPeripheral.Polling
