import FuguexPeripheral.Basic
import FuguexPeripheral.Runs

/-!
# The interrupt wrapper

Model of `src/interrupt/mod.rs`. An `InterruptWrapper` sits between the emulator
and an `InterruptHandlerOverrider`. Before every instruction the emulator calls
`hook_architectural_step`, which pops the return stack and the handler stack when
execution is back at a recorded address, asks the overrider whether to fire, and
on `Some(handler)` pushes both stacks and branches.

* A `Vec` used as a stack is a list whose head is the last element of the `Vec`.
* `Result` of the hook is `Except`; the wrapper it leaves behind is part of the
  result in both cases, since `?` returns after the stacks were popped.
* `StepResult.call` records whether the step called `fire`, with which count and
  what was answered. The code does not store it: it is what an observer of the
  overrider sees.
-/

namespace FuguexPeripheral

/-! ## Status -/

inductive Status
  | disabled
  | fired (n : Nat)
  | pending
  deriving DecidableEq, Repr

namespace Status

def fire : Status → Status
  | .disabled => .disabled
  | .fired n => .fired (n + 1)
  | .pending => .fired 1

/-- `Fired(n - 1)` on a `usize`: the subtraction would overflow on `Fired(0)`,
which `unfire_applied` of `StackAgreement` shows is never reached. -/
def unfire : Status → Status
  | .disabled => .disabled
  | .pending => .pending
  | .fired 1 => .pending
  | .fired n => .fired (n - 1)

def hasFired : Status → Bool
  | .fired _ => true
  | _ => false

end Status

/-! ## The overrider -/

inductive InterruptError
  | defaultError
  deriving DecidableEq, Repr

/-- What `fire` leaves behind: its answer, and the overrider and the emulator
state, both of which it may change. -/
structure Fire (I S : Type*) where
  answer : Except InterruptError (Option Address)
  overrider : I
  state : S

/-- The trait `InterruptHandlerOverrider`, over any emulator state `S` and any
decoded instruction `Op` (`StepState`). -/
class InterruptHandlerOverrider (I S Op : Type*) where
  fire : I → (triggerCount : Nat) → S → Address → Op → Fire I S

/-! ## The wrapper -/

inductive HookStepAction
  | pass
  | branch (count : Nat) (target : Address)
  deriving DecidableEq, Repr

structure HookOutcome where
  action : HookStepAction
  stateChanged : Bool
  deriving DecidableEq, Repr

structure InterruptWrapper (I : Type*) where
  interrupt : I
  status : Status
  handlerStack : List Address
  returnsStack : List Address
  allowNesting : Bool

/-- One call of `fire`: the count it was given and its answer. -/
structure FireCall where
  count : Nat
  answer : Except InterruptError (Option Address)

structure StepResult (I S : Type*) where
  wrapper : InterruptWrapper I
  state : S
  outcome : Except InterruptError HookOutcome
  call : Option FireCall

namespace InterruptWrapper

variable {I S Op : Type*}

def isDisabled (w : InterruptWrapper I) : Bool :=
  w.status == .disabled

def disable (w : InterruptWrapper I) : InterruptWrapper I :=
  { w with status := .disabled }

def enable (w : InterruptWrapper I) : InterruptWrapper I :=
  if w.isDisabled then
    { w with status := if w.returnsStack.isEmpty then .pending else .fired w.returnsStack.length }
  else w

def isPending (w : InterruptWrapper I) : Bool :=
  w.status == .pending

def hasFired (w : InterruptWrapper I) : Bool :=
  w.status.hasFired

/-- Nothing in the step consults it: see `quiet_while_disabled_iff` and `never_nests_iff`. -/
def canFire (w : InterruptWrapper I) : Bool :=
  (w.status.hasFired && w.allowNesting) || w.isPending

def new (interrupt : I) (allowNesting : Bool) : InterruptWrapper I :=
  { interrupt := interrupt, status := .pending, handlerStack := [], returnsStack := [],
    allowNesting := allowNesting }

/-- The test of the return pop: the wrapper has fired and `address` is the last
recorded return address. -/
def atReturn (w : InterruptWrapper I) (address : Address) : Bool :=
  w.hasFired && (w.returnsStack.head? == some address)

/-- The test of the handler pop. -/
def atHandler (w : InterruptWrapper I) (address : Address) : Bool :=
  w.hasFired && (w.handlerStack.head? == some address)

/-- "We are back at the point we got fired from; pop". -/
def popReturn (w : InterruptWrapper I) (address : Address) : InterruptWrapper I :=
  if w.atReturn address then
    { w with returnsStack := w.returnsStack.tail, status := w.status.unfire }
  else w

/-- The count handed to `fire`. -/
def triggerCount (w : InterruptWrapper I) : Nat :=
  match w.status with
  | .fired v => v
  | _ => 0

/-- `Some(handler_address)`: record the handler and the return point, and branch. -/
def pushHandler (w : InterruptWrapper I) (address handlerAddress : Address) :
    InterruptWrapper I :=
  { w with
    handlerStack := handlerAddress :: w.handlerStack
    returnsStack := address :: w.returnsStack
    status := w.status.fire }

/-- The tail of the step, once both pops are done: ask the overrider and act on
its answer. -/
def consult [InterruptHandlerOverrider I S Op] (w : InterruptWrapper I) (state : S)
    (address : Address) (operation : Op) : StepResult I S :=
  let f := InterruptHandlerOverrider.fire w.interrupt w.triggerCount state address operation
  let call : FireCall := ⟨w.triggerCount, f.answer⟩
  let w := { w with interrupt := f.overrider }
  match f.answer with
  | .error e => ⟨w, f.state, .error e, some call⟩
  | .ok none => ⟨w, f.state, .ok ⟨.pass, false⟩, some call⟩
  | .ok (some handlerAddress) =>
    ⟨w.pushHandler address handlerAddress, f.state, .ok ⟨.branch 1 handlerAddress, true⟩,
      some call⟩

def hookArchitecturalStep [InterruptHandlerOverrider I S Op] (w : InterruptWrapper I) (state : S)
    (address : Address) (operation : Op) : StepResult I S :=
  let w := w.popReturn address
  -- the handler's first instruction: no call of `fire`, no nesting on this address
  if w.atHandler address then
    ⟨{ w with handlerStack := w.handlerStack.tail }, state, .ok ⟨.pass, false⟩, none⟩
  else
    w.consult state address operation

end InterruptWrapper

/-! ## Runs -/

/-- The arguments of one `hook_architectural_step`. -/
structure StepInput (S Op : Type*) where
  state : S
  address : Address
  operation : Op

inductive InterruptEvent (S Op : Type*)
  | step (x : StepInput S Op)
  | enable
  | disable

namespace InterruptWrapper

variable {I S Op : Type*} [InterruptHandlerOverrider I S Op]

def stepOn (w : InterruptWrapper I) (x : StepInput S Op) : StepResult I S :=
  w.hookArchitecturalStep x.state x.address x.operation

def apply (w : InterruptWrapper I) : InterruptEvent S Op → InterruptWrapper I
  | .step x => (w.stepOn x).wrapper
  | .enable => w.enable
  | .disable => w.disable

@[simp] theorem apply_step (w : InterruptWrapper I) (x : StepInput S Op) :
    w.apply (.step x) = (w.stepOn x).wrapper := rfl

/-- The wrapper a sequence of events leads to from `new`. -/
def reached (interrupt : I) (allowNesting : Bool) (es : List (InterruptEvent S Op)) :
    InterruptWrapper I :=
  es.foldl apply (new interrupt allowNesting)

/-- The events of a run from `new`, each with the wrapper it was applied to. -/
def history (interrupt : I) (allowNesting : Bool) (es : List (InterruptEvent S Op)) :
    List (InterruptWrapper I × InterruptEvent S Op) :=
  Runs.trace apply (new interrupt allowNesting) es

theorem run_history (interrupt : I) (allowNesting : Bool) (es : List (InterruptEvent S Op)) :
    Runs.Run (fun w e w' => w' = w.apply e) (new interrupt allowNesting)
      (history interrupt allowNesting es) (reached interrupt allowNesting es) :=
  Runs.run_trace apply (new interrupt allowNesting) es

theorem history_append (interrupt : I) (allowNesting : Bool)
    (es₁ es₂ : List (InterruptEvent S Op)) :
    history interrupt allowNesting (es₁ ++ es₂) =
      history interrupt allowNesting es₁ ++
        Runs.trace apply (reached interrupt allowNesting es₁) es₂ :=
  Runs.trace_append apply (new interrupt allowNesting) es₁ es₂

end InterruptWrapper

/-! ## An executable overrider -/

/-- An overrider that gives a fixed list of answers, one at a call, and `None`
once they are used up. It looks at neither the count nor the state. -/
structure AnswerQueue where
  answers : List (Option Address)
  deriving DecidableEq, Repr

instance : InterruptHandlerOverrider AnswerQueue Unit Unit where
  fire q _ state _ _ := ⟨.ok q.answers.head?.join, ⟨q.answers.tail⟩, state⟩

end FuguexPeripheral
