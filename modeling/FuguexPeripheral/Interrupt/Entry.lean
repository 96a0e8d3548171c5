import FuguexPeripheral.Interrupt.StackAgreement

/-!
# Handler entries

A step that answers `Branch` sends the emulator to the handler, so the next step is at its
first instruction. The wrapper keeps the address on the handler stack to let that one step
pass. With an emulator that goes where it is sent, the stack holds nothing else.

Results:
1. `entering_step`: what a step leaves on the handler stack.
2. `consulted_iff`: the overrider is asked at every step but the entries.
-/

namespace FuguexPeripheral

open Runs

namespace InterruptWrapper

open StackLemmas

variable {I S Op : Type*} [InterruptHandlerOverrider I S Op]

/-- Where a step sends the emulator. -/
def target (w : InterruptWrapper I) (x : StepInput S Op) : Option Address :=
  match (w.stepOn x).outcome with
  | .ok ⟨.branch _ handlerAddress, _⟩ => some handlerAddress
  | _ => none

end InterruptWrapper

open InterruptWrapper

/-- A wrapper in an emulator: the wrapper, and where the last step sent the emulator. -/
structure Emulation (I : Type*) where
  wrapper : InterruptWrapper I
  sent : Option Address

namespace Emulation

variable {I S Op : Type*} [InterruptHandlerOverrider I S Op]

/-- The emulator goes where it was sent, and no handler interrupts its own first
instruction. -/
def Step (m : Emulation I) (x : StepInput S Op) (m' : Emulation I) : Prop :=
  (∀ h, m.sent = some h → x.address = h) ∧ m.wrapper.target x ≠ some x.address ∧
    m' = ⟨(m.wrapper.stepOn x).wrapper, m.wrapper.target x⟩

/-- The handler stack holds the handler that the emulator was sent to, whose return address
is another. -/
structure Entering (m : Emulation I) : Prop where
  enabled : m.wrapper.status ≠ .disabled
  handlers : m.wrapper.handlerStack = m.sent.toList
  fired : m.sent.isSome = true → m.wrapper.hasFired = true
  returns : ∀ h, m.sent = some h → m.wrapper.returnsStack.head? ≠ some h

namespace EntryLemmas

open InterruptWrapper.StackLemmas

theorem hasFired_fire {s : Status} (h : s ≠ .disabled) : s.fire.hasFired = true := by
  cases s with
  | disabled => exact absurd rfl h
  | pending => rfl
  | fired n => rfl

theorem entering_unsent {w : InterruptWrapper I} (henabled : w.status ≠ .disabled)
    (hstack : w.handlerStack = []) : Entering ⟨w, none⟩ where
  enabled := henabled
  handlers := hstack
  fired := by simp
  returns := by simp

/-- At the handler the stack is popped, and the overrider is not asked. -/
theorem entering_handler {w : InterruptWrapper I} {x : StepInput S Op} {h : Address}
    (hw : Entering ⟨w, some h⟩) (hat : x.address = h) :
    Entering ⟨(w.stepOn x).wrapper, w.target x⟩ ∧ (w.stepOn x).call = none := by
  obtain ⟨henabled, hhandlers, hfired, hreturns⟩ := hw
  have hatHandler : (w.popReturn x.address).atHandler x.address = true := by
    rw [hat, popReturn_of_not (by simp [atReturn, hreturns h rfl]), atHandler, hfired rfl,
      hhandlers]
    simp
  rcases stepOn_cases w x with ⟨-, hcall, hout, hw⟩ | ⟨hnot, -, -⟩
  · have htarget : w.target x = none := by rw [target, hout]
    rw [htarget, hw]
    refine ⟨entering_unsent (fun hd => henabled (popReturn_disabled.mp hd)) ?_, hcall⟩
    rw [show w.handlerStack = [h] from hhandlers]
    rfl
  · rw [hatHandler] at hnot
    cases hnot

/-- With an empty stack the overrider is asked, and where it sends the emulator is pushed. -/
theorem entering_asked {w : InterruptWrapper I} {x : StepInput S Op}
    (hw : Entering ⟨w, none⟩) (haway : w.target x ≠ some x.address) :
    Entering ⟨(w.stepOn x).wrapper, w.target x⟩ ∧ (w.stepOn x).call ≠ none := by
  obtain ⟨henabled, hhandlers, -, -⟩ := hw
  have hstatus : (w.popReturn x.address).status ≠ .disabled := fun hd =>
    henabled (popReturn_disabled.mp hd)
  have hstack : (w.popReturn x.address).handlerStack = [] := by
    rw [popReturn_handlerStack]
    exact hhandlers
  rcases stepOn_cases w x with ⟨hat, -, -, -⟩ | ⟨-, hcall, i, hanswer⟩
  · rw [atHandler, hstack] at hat
    simp at hat
  · refine ⟨?_, by simp [hcall]⟩
    -- the overrider fails, has nothing, or names a handler
    rcases hanswer with ⟨e, -, hout, hw⟩ | ⟨-, hout, hw⟩ | ⟨h, -, hout, hw⟩
    · have htarget : w.target x = none := by rw [target, hout]
      rw [htarget, hw]
      exact entering_unsent hstatus hstack
    · have htarget : w.target x = none := by rw [target, hout]
      rw [htarget, hw]
      exact entering_unsent hstatus hstack
    · have htarget : w.target x = some h := by rw [target, hout]
      rw [htarget] at haway ⊢
      rw [hw]
      have hfire := hasFired_fire hstatus
      refine ⟨?_, congrArg (h :: ·) hstack, fun _ => hfire, ?_⟩
      · intro hdisabled
        rw [show (w.popReturn x.address).status.fire = .disabled from hdisabled] at hfire
        cases hfire
      · rintro h' ⟨⟩ hhead
        exact haway hhead.symm

theorem entering_step {m m' : Emulation I} {x : StepInput S Op} (h : Entering m)
    (hs : Step m x m') :
    Entering m' ∧ ((m.wrapper.stepOn x).call = none ↔ m.sent.isSome = true) := by
  obtain ⟨hgoes, haway, rfl⟩ := hs
  obtain ⟨w, sent⟩ := m
  cases sent with
  | some h' =>
    obtain ⟨hnext, hcall⟩ := entering_handler h (hgoes h' rfl)
    exact ⟨hnext, iff_of_true hcall rfl⟩
  | none =>
    obtain ⟨hnext, hcall⟩ := entering_asked h haway
    exact ⟨hnext, iff_of_false hcall (by simp)⟩

end EntryLemmas

open EntryLemmas

/-- For every overrider and every run of an enabled wrapper in an emulator that goes where it
is sent: the handler stack is empty, but right after a branch, where it holds the handler; and
the overrider is asked exactly at the steps that are not the first of a handler. -/
theorem consulted_iff {i : I} {nesting : Bool} {tr : List (Emulation I × StepInput S Op)}
    {m : Emulation I} (h : Run Step ⟨InterruptWrapper.new i nesting, none⟩ tr m) :
    m.wrapper.handlerStack = m.sent.toList ∧
      ∀ q x, (q, x) ∈ tr → q.wrapper.handlerStack = q.sent.toList ∧
        ((q.wrapper.stepOn x).call = none ↔ q.sent.isSome = true) := by
  have hinit : Entering (⟨InterruptWrapper.new i nesting, none⟩ : Emulation I) :=
    entering_unsent (by simp [InterruptWrapper.new]) rfl
  obtain ⟨hend, hall⟩ := h.invariant_mem Entering hinit fun q x r _ hq hs =>
    (entering_step hq hs).1
  refine ⟨hend.handlers, fun q x hm => ⟨(hall q x hm).handlers, ?_⟩⟩
  obtain ⟨_, _, r, _, _, hs, _⟩ := h.mem hm
  exact (entering_step (hall q x hm) hs).2

/-- A wrapper that is about to branch from `0x10` to `0x20`. -/
def once : InterruptWrapper AnswerQueue :=
  InterruptWrapper.new ⟨[some 0x20]⟩ true

theorem consulted_iff_once :
    ((once.stepOn ⟨(), 0x10, ()⟩).wrapper.stepOn ⟨(), 0x20, ()⟩).call = none := by
  have hrun : Run Step ⟨once, none⟩
      [(⟨once, none⟩, ⟨(), 0x10, ()⟩),
        (⟨(once.stepOn ⟨(), 0x10, ()⟩).wrapper, some 0x20⟩, ⟨(), 0x20, ()⟩)] _ :=
    .cons ⟨by simp, by decide, rfl⟩ (.cons ⟨by rintro h ⟨⟩; rfl, by decide, rfl⟩ (.nil _))
  exact ((consulted_iff hrun).2 ⟨(once.stepOn ⟨(), 0x10, ()⟩).wrapper, some 0x20⟩ ⟨(), 0x20, ()⟩
    (.tail _ (.head _))).2.mpr rfl

end Emulation

end FuguexPeripheral
