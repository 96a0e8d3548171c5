import FuguexPeripheral.Interrupt.StackAgreement

/-!
# Well-bracketed runs

A `Block` is a finite sequence of items: plain steps, and interrupts that are
served in one or more rounds, each with a nested block as the handler's body. Its
`script` is the sequence of steps it stands for, with what `fire` answers at each,
and `seen` is what must be observed of them.

`block_runs`: every block, at every nesting depth, leaves the status and both
stacks as they were, branches once per round to that round's handler, does not
consult `fire` at a handler's entry, and hands every other call the nesting depth.
The induction is over the block; it carries the status and the return stack that
the block starts from.
-/

namespace FuguexPeripheral

/-! ## Well-bracketed runs -/

mutual
/-- A finite sequence of items: plain steps and interrupts. -/
inductive Block
  | nil
  | plain (address : Address) (rest : Block)
  | interrupt (address : Address) (rounds : Rounds) (rest : Block)

/-- The rounds of one interrupt: a handler and the nested block of its body. -/
inductive Rounds
  | last (handler : Address) (body : Block)
  | more (handler : Address) (body : Block) (next : Rounds)
end

/-- One step of a script: where it is, and what `fire` answers there. The entry of
a handler constrains no answer. -/
structure Cue where
  address : Address
  answer : Option (Option Address)

/-- What is seen of one step: the count `fire` was given, if it was called, and
the outcome of the hook. -/
structure Seen where
  count : Option Nat
  outcome : Except InterruptError HookOutcome

mutual
/-- The side conditions of a block whose innermost pending return address is
`pending`. -/
def Block.Bracketed (pending : Option Address) : Block → Prop
  | .nil => True
  | .plain a rest => some a ≠ pending ∧ rest.Bracketed pending
  | .interrupt a rounds rest =>
    some a ≠ pending ∧ rounds.Bracketed a ∧ rest.Bracketed pending

def Rounds.Bracketed (a : Address) : Rounds → Prop
  | .last h body => h ≠ a ∧ body.Bracketed (some a)
  | .more h body next => h ≠ a ∧ body.Bracketed (some a) ∧ next.Bracketed a
end

mutual
/-- The steps of a block: an interrupt at `a` is its rounds, closed by a step at
`a` where `fire` returns `None`. -/
def Block.script : Block → List Cue
  | .nil => []
  | .plain a rest => ⟨a, some none⟩ :: rest.script
  | .interrupt a rounds rest => rounds.script a ++ (⟨a, some none⟩ :: rest.script)

/-- A round: the step at `a` that fires, the step at the handler, the body. -/
def Rounds.script (a : Address) : Rounds → List Cue
  | .last h body => ⟨a, some (some h)⟩ :: ⟨h, none⟩ :: body.script
  | .more h body next => ⟨a, some (some h)⟩ :: ⟨h, none⟩ :: (body.script ++ next.script a)
end

mutual
/-- What a block run at nesting depth `depth` must show. -/
def Block.seen (depth : Nat) : Block → List Seen
  | .nil => []
  | .plain _ rest => ⟨some depth, .ok ⟨.pass, false⟩⟩ :: rest.seen depth
  | .interrupt _ rounds rest =>
    rounds.seen depth ++ (⟨some depth, .ok ⟨.pass, false⟩⟩ :: rest.seen depth)

def Rounds.seen (depth : Nat) : Rounds → List Seen
  | .last h body =>
    ⟨some depth, .ok ⟨.branch 1 h, true⟩⟩ :: ⟨none, .ok ⟨.pass, false⟩⟩ :: body.seen (depth + 1)
  | .more h body next =>
    ⟨some depth, .ok ⟨.branch 1 h, true⟩⟩ :: ⟨none, .ok ⟨.pass, false⟩⟩ ::
      (body.seen (depth + 1) ++ next.seen depth)
end

mutual
/-- The handlers of a block, round by round. -/
def Block.handlers : Block → List Address
  | .nil => []
  | .plain _ rest => rest.handlers
  | .interrupt _ rounds rest => rounds.handlers ++ rest.handlers

def Rounds.handlers : Rounds → List Address
  | .last h body => h :: body.handlers
  | .more h body next => h :: (body.handlers ++ next.handlers)
end

/-- The target of a step that branches. -/
def Seen.target (s : Seen) : Option Address :=
  match s.outcome with
  | .ok ⟨.branch _ h, _⟩ => some h
  | _ => none

mutual
/-- The branches to be seen are one per round, to that round's handler. -/
theorem Block.targets_seen (depth : Nat) (b : Block) :
    (b.seen depth).filterMap Seen.target = b.handlers := by
  cases b with
  | nil => rfl
  | plain a rest => exact rest.targets_seen depth
  | interrupt a rounds rest =>
    rw [Block.seen, Block.handlers, List.filterMap_append, rounds.targets_seen depth]
    exact congrArg _ (rest.targets_seen depth)

theorem Rounds.targets_seen (depth : Nat) (r : Rounds) :
    (r.seen depth).filterMap Seen.target = r.handlers := by
  cases r with
  | last h body => exact congrArg (h :: ·) (body.targets_seen (depth + 1))
  | more h body next =>
    have hbody := body.targets_seen (depth + 1)
    have hnext := next.targets_seen depth
    rw [Rounds.handlers, ← hbody, ← hnext, ← List.filterMap_append]
    rfl
end

namespace InterruptWrapper

open StackLemmas

variable {I S Op : Type*} [InterruptHandlerOverrider I S Op]

/-- What is seen of each step of a run. -/
def observe (w : InterruptWrapper I) : List (StepInput S Op) → List Seen
  | [] => []
  | x :: xs =>
    ⟨(w.stepOn x).call.map FireCall.count, (w.stepOn x).outcome⟩ :: observe (w.stepOn x).wrapper xs

/-- The run from `w` follows a script: its steps are at the script's addresses, and
where the wrapper calls `fire`, the answer is the script's. -/
def Follows (w : InterruptWrapper I) : List (StepInput S Op) → List Cue → Prop
  | [], [] => True
  | x :: xs, c :: cs => x.address = c.address ∧
      (∀ call ans, (w.stepOn x).call = some call → c.answer = some ans → call.answer = .ok ans) ∧
      Follows (w.stepOn x).wrapper xs cs
  | _, _ => False

namespace BracketLemmas

theorem follows_append {w : InterruptWrapper I} {xs : List (StepInput S Op)} {cs₁ cs₂ : List Cue}
    (h : Follows w xs (cs₁ ++ cs₂)) :
    ∃ xs₁ xs₂, xs = xs₁ ++ xs₂ ∧ Follows w xs₁ cs₁ ∧ Follows (stepAll w xs₁) xs₂ cs₂ := by
  induction cs₁ generalizing w xs with
  | nil => exact ⟨[], xs, rfl, trivial, h⟩
  | cons c cs₁ ih =>
    cases xs with
    | nil => exact absurd h id
    | cons x xs =>
      obtain ⟨hx, hans, hrest⟩ := h
      obtain ⟨xs₁, xs₂, rfl, h₁, h₂⟩ := ih hrest
      exact ⟨x :: xs₁, xs₂, rfl, ⟨hx, hans, h₁⟩, h₂⟩

theorem observe_append (w : InterruptWrapper I) (xs ys : List (StepInput S Op)) :
    observe w (xs ++ ys) = observe w xs ++ observe (stepAll w xs) ys := by
  induction xs generalizing w with
  | nil => rfl
  | cons x xs ih => exact congrArg _ (ih _)

theorem stepAll_append (w : InterruptWrapper I) (xs ys : List (StepInput S Op)) :
    stepAll w (xs ++ ys) = stepAll (stepAll w xs) ys :=
  List.foldl_append

/-- The statuses a block may run under, with the return stack they agree with. -/
def Ready (s : Status) (rs : List Address) : Prop :=
  (s = .pending ∧ rs = []) ∨ (s = .fired rs.length ∧ 1 ≤ rs.length)

theorem ready_of_agree {w : InterruptWrapper I} (h : w.Agree) (hd : w.status ≠ .disabled) :
    Ready w.status w.returnsStack := by
  unfold Agree at h
  cases hs : w.status with
  | disabled => exact absurd hs hd
  | pending => rw [hs] at h; exact .inl ⟨rfl, h⟩
  | fired n => rw [hs] at h; exact .inr ⟨by rw [← h.1], h.1 ▸ h.2⟩

/-- Firing and returning from a ready status are inverse to each other. -/
theorem ready_fire {s : Status} {rs : List Address} (h : Ready s rs) (a : Address) :
    s.fire = .fired (a :: rs).length ∧ s.fire.unfire = s := by
  rcases h with ⟨rfl, rfl⟩ | ⟨rfl, hpos⟩
  · exact ⟨rfl, rfl⟩
  · refine ⟨rfl, ?_⟩
    cases rs with
    | nil => exact absurd hpos (by decide)
    | cons b rs => rfl

theorem ready_push {s : Status} {rs : List Address} (h : Ready s rs) (a : Address) :
    Ready s.fire (a :: rs) :=
  .inr ⟨(ready_fire h a).1, Nat.le_add_left _ _⟩

theorem ready_triggerCount {w : InterruptWrapper I} {s : Status} {hs rs : List Address}
    (ht : tracking w = (s, hs, rs)) (hr : Ready s rs) : w.triggerCount = rs.length := by
  simp only [tracking, Prod.mk.injEq] at ht
  unfold triggerCount
  rcases hr with ⟨rfl, rfl⟩ | ⟨rfl, -⟩
  · rw [ht.1]; rfl
  · rw [ht.1]

/-- A step elsewhere does not pop the return stack. -/
theorem popReturn_elsewhere {w : InterruptWrapper I} {s : Status} {hs rs : List Address}
    {a : Address} (ht : tracking w = (s, hs, rs)) (ha : some a ≠ rs.head?) :
    tracking (w.popReturn a) = (s, hs, rs) := by
  have hr : w.returnsStack = rs := by
    simp only [tracking, Prod.mk.injEq] at ht
    exact ht.2.2
  have hat : w.atReturn a = false := by
    cases hat : w.atReturn a with
    | false => rfl
    | true =>
      obtain ⟨-, rest, hrest⟩ := atReturn_iff.mp hat
      rw [hr] at hrest
      rw [hrest] at ha
      exact absurd rfl ha
  rw [popReturn_of_not hat, ht]

/-- A step back at the interrupted address pops it. -/
theorem popReturn_back {w : InterruptWrapper I} {s : Status} {hs rs : List Address} {a : Address}
    (ht : tracking w = (s.fire, hs, a :: rs)) (hr : Ready s rs) :
    tracking (w.popReturn a) = (s, hs, rs) := by
  simp only [tracking, Prod.mk.injEq] at ht
  obtain ⟨h1, h2, h3⟩ := ht
  have hat : w.atReturn a = true := by
    refine atReturn_iff.mpr ⟨?_, rs, h3⟩
    rw [hasFired, h1, (ready_fire hr a).1]
    rfl
  rw [popReturn, if_pos hat, tracking, h1, h2, h3, (ready_fire hr a).2]
  rfl

/-- A step that finds the handler stack empty calls `fire` with the depth, and
either changes nothing more or records the interrupt. -/
theorem step_consults {w : InterruptWrapper I} {x : StepInput S Op} {s : Status}
    {rs : List Address} (ht : tracking (w.popReturn x.address) = (s, [], rs)) (hr : Ready s rs) :
    ∃ call, (w.stepOn x).call = some call ∧ call.count = rs.length ∧
      (call.answer = .ok none → (w.stepOn x).outcome = .ok ⟨.pass, false⟩ ∧
        tracking (w.stepOn x).wrapper = (s, [], rs)) ∧
      ∀ h, call.answer = .ok (some h) → (w.stepOn x).outcome = .ok ⟨.branch 1 h, true⟩ ∧
        tracking (w.stepOn x).wrapper = (s.fire, [h], x.address :: rs) := by
  have hcount := ready_triggerCount ht hr
  simp only [tracking, Prod.mk.injEq] at ht
  obtain ⟨h1, h2, h3⟩ := ht
  rcases stepOn_cases w x with ⟨hh, -, -, -⟩ | ⟨-, hcall, i, hans⟩
  · obtain ⟨-, rest, hrest⟩ := atHandler_iff.mp hh
    rw [h2] at hrest
    cases hrest
  · refine ⟨_, hcall, hcount, ?_, ?_⟩
    · intro hnone
      rcases hans with ⟨e, he, -, -⟩ | ⟨-, ho, hw⟩ | ⟨h, he, -, -⟩
      · cases hnone.symm.trans he
      · rw [ho, hw, ← h1, ← h2, ← h3]
        exact ⟨rfl, rfl⟩
      · cases hnone.symm.trans he
    · intro h hsome
      rcases hans with ⟨e, he, -, -⟩ | ⟨he, -, -⟩ | ⟨h', he, ho, hw⟩
      · cases hsome.symm.trans he
      · cases hsome.symm.trans he
      · cases hsome.symm.trans he
        rw [ho, hw, ← h1, ← h2, ← h3]
        exact ⟨rfl, rfl⟩

/-- The first step of a handler is passed without a call of `fire`. -/
theorem step_entry {w : InterruptWrapper I} {x : StepInput S Op} {s : Status} {a : Address}
    {rs : List Address} (ht : tracking w = (s.fire, [x.address], a :: rs)) (hr : Ready s rs)
    (hne : x.address ≠ a) :
    (w.stepOn x).call = none ∧ (w.stepOn x).outcome = .ok ⟨.pass, false⟩ ∧
      tracking (w.stepOn x).wrapper = (s.fire, [], a :: rs) := by
  have hpop := popReturn_elsewhere ht (fun h => hne (Option.some.inj h))
  simp only [tracking, Prod.mk.injEq] at hpop
  obtain ⟨h1, h2, h3⟩ := hpop
  have hat : (w.popReturn x.address).atHandler x.address = true := by
    refine atHandler_iff.mpr ⟨?_, [], h2⟩
    rw [hasFired, h1, (ready_fire hr a).1]
    rfl
  rcases stepOn_cases w x with ⟨-, hcall, ho, hw⟩ | ⟨hh, -⟩
  · refine ⟨hcall, ho, ?_⟩
    rw [popReturn_handlerStack] at h2
    rw [hw, tracking, h1, h2, h3]
    rfl
  · rw [hat] at hh
    cases hh

/-- A step of a script where `fire` returns `None`. -/
theorem none_step {w : InterruptWrapper I} {xs : List (StepInput S Op)} {cs : List Cue}
    {s : Status} {rs : List Address} {a : Address}
    (ht : tracking (w.popReturn a) = (s, [], rs)) (hr : Ready s rs)
    (hf : Follows w xs (⟨a, some none⟩ :: cs)) :
    ∃ x ys, xs = x :: ys ∧ Follows (w.stepOn x).wrapper ys cs ∧
      tracking (w.stepOn x).wrapper = (s, [], rs) ∧
      observe w xs =
        ⟨some rs.length, .ok ⟨.pass, false⟩⟩ :: observe (w.stepOn x).wrapper ys := by
  cases xs with
  | nil => exact absurd hf id
  | cons x ys =>
    obtain ⟨rfl, hans, hrest⟩ := hf
    obtain ⟨call, hcall, hcount, hnone, -⟩ := step_consults ht hr
    obtain ⟨ho, hw⟩ := hnone (hans call none hcall rfl)
    refine ⟨x, ys, rfl, hrest, hw, ?_⟩
    rw [observe, hcall, ho, Option.map_some, hcount]

/-- The two steps that open a round. -/
theorem round_opens {w : InterruptWrapper I} {xs : List (StepInput S Op)} {cs : List Cue}
    {s : Status} {rs : List Address} {a h : Address}
    (ht : tracking (w.popReturn a) = (s, [], rs)) (hr : Ready s rs) (hne : h ≠ a)
    (hf : Follows w xs (⟨a, some (some h)⟩ :: ⟨h, none⟩ :: cs)) :
    ∃ (w' : InterruptWrapper I) (ys : List (StepInput S Op)), Follows w' ys cs ∧
      tracking w' = (s.fire, [], a :: rs) ∧
      stepAll w xs = stepAll w' ys ∧
      observe w xs = ⟨some rs.length, .ok ⟨.branch 1 h, true⟩⟩ :: ⟨none, .ok ⟨.pass, false⟩⟩ ::
        observe w' ys := by
  rcases xs with - | ⟨x, - | ⟨y, ys⟩⟩
  · exact absurd hf id
  · exact absurd hf.2.2 id
  · obtain ⟨rfl, hans, rfl, -, hrest⟩ := hf
    obtain ⟨call, hcall, hcount, -, hsome⟩ := step_consults ht hr
    obtain ⟨ho, hw⟩ := hsome y.address (hans call _ hcall rfl)
    obtain ⟨hcall', ho', hw'⟩ := step_entry hw hr hne
    refine ⟨_, ys, hrest, hw', rfl, ?_⟩
    rw [observe, observe, hcall, ho, hcall', ho', Option.map_some, hcount]
    rfl

mutual
theorem block_run (b : Block) {w : InterruptWrapper I} {xs : List (StepInput S Op)} {s : Status}
    {rs : List Address} (ht : tracking w = (s, [], rs)) (hr : Ready s rs)
    (hb : b.Bracketed rs.head?) (hf : Follows w xs b.script) :
    observe w xs = b.seen rs.length ∧ tracking (stepAll w xs) = (s, [], rs) := by
  cases b with
  | nil =>
    cases xs with
    | nil => exact ⟨rfl, ht⟩
    | cons x xs => exact absurd hf id
  | plain a rest =>
    obtain ⟨hne, hrest⟩ := hb
    obtain ⟨x, ys, rfl, hfys, hw, hobs⟩ := none_step (popReturn_elsewhere ht hne) hr hf
    obtain ⟨ihobs, ihtr⟩ := block_run rest hw hr hrest hfys
    rw [hobs, ihobs]
    exact ⟨rfl, ihtr⟩
  | interrupt a rounds rest =>
    obtain ⟨hne, hrounds, hrest⟩ := hb
    obtain ⟨xs₁, xs₂, rfl, hf₁, hf₂⟩ := follows_append hf
    obtain ⟨hobs₁, htr₁⟩ := rounds_run rounds (popReturn_elsewhere ht hne) hr hrounds hf₁
    -- the closing step is the return of the last round
    obtain ⟨x, ys, rfl, hfys, hw, hobs₂⟩ := none_step (popReturn_back htr₁ hr) hr hf₂
    obtain ⟨ihobs, ihtr⟩ := block_run rest hw hr hrest hfys
    rw [observe_append, hobs₁, hobs₂, ihobs, stepAll_append]
    exact ⟨rfl, ihtr⟩

theorem rounds_run (r : Rounds) {w : InterruptWrapper I} {xs : List (StepInput S Op)}
    {s : Status} {rs : List Address} {a : Address}
    (ht : tracking (w.popReturn a) = (s, [], rs)) (hr : Ready s rs)
    (hb : r.Bracketed a) (hf : Follows w xs (r.script a)) :
    observe w xs = r.seen rs.length ∧ tracking (stepAll w xs) = (s.fire, [], a :: rs) := by
  cases r with
  | last h body =>
    obtain ⟨hne, hbody⟩ := hb
    obtain ⟨w', ys, hf', hw', hall, hobs⟩ := round_opens ht hr hne hf
    obtain ⟨ihobs, ihtr⟩ := block_run body hw' (ready_push hr a) hbody hf'
    rw [hobs, ihobs, hall]
    exact ⟨rfl, ihtr⟩
  | more h body next =>
    obtain ⟨hne, hbody, hnext⟩ := hb
    obtain ⟨w', ys, hf', hw', hall, hobs⟩ := round_opens ht hr hne hf
    obtain ⟨ys₁, ys₂, rfl, hf₁, hf₂⟩ := follows_append hf'
    obtain ⟨hobs₁, htr₁⟩ := block_run body hw' (ready_push hr a) hbody hf₁
    -- the next round starts where the body returns
    obtain ⟨hobs₂, htr₂⟩ := rounds_run next (popReturn_back htr₁ hr) hr hnext hf₂
    rw [hobs, hall, observe_append, stepAll_append, hobs₁, hobs₂]
    exact ⟨rfl, htr₂⟩
end

end BracketLemmas

open BracketLemmas

/-- Every block run by a wrapper that is not disabled and has an empty handler
stack, at every nesting depth: the wrapper ends with the status and the stacks it
started with, and what is seen is `Block.seen`, that is: `fire` is given the
nesting depth wherever it is called, it is not called at a handler's entry, and the
branches are one per round, to that round's handler. -/
theorem block_runs (i : I) (nesting : Bool) (es : List (InterruptEvent S Op)) (b : Block)
    (xs : List (StepInput S Op)) (hd : (reached i nesting es).status ≠ .disabled)
    (hempty : (reached i nesting es).handlerStack = [])
    (hb : b.Bracketed (reached i nesting es).returnsStack.head?)
    (hf : Follows (reached i nesting es) xs b.script) :
    tracking (stepAll (reached i nesting es) xs) = tracking (reached i nesting es) ∧
    observe (reached i nesting es) xs = b.seen (reached i nesting es).returnsStack.length ∧
    (observe (reached i nesting es) xs).filterMap Seen.target = b.handlers := by
  have hagree := agree_reached i nesting es
  generalize reached i nesting es = w at hd hempty hb hf hagree ⊢
  have ht : tracking w = (w.status, [], w.returnsStack) := by rw [tracking, hempty]
  obtain ⟨hobs, htr⟩ := block_run b ht (ready_of_agree hagree hd) hb hf
  refine ⟨htr.trans ht.symm, hobs, ?_⟩
  rw [hobs, b.targets_seen]

/-- An interrupt whose handler is interrupted after its first instruction. -/
def nestedBlock : Block :=
  .interrupt 0x10 (.last 0x20 (.interrupt 0x24 (.last 0x40 .nil) .nil)) .nil

theorem block_runs_nested :
    let w : InterruptWrapper AnswerQueue :=
      reached ⟨[some 0x20, some 0x40]⟩ true ([] : List (InterruptEvent Unit Unit))
    let xs : List (StepInput Unit Unit) :=
      [⟨(), 0x10, ()⟩, ⟨(), 0x20, ()⟩, ⟨(), 0x24, ()⟩, ⟨(), 0x40, ()⟩, ⟨(), 0x24, ()⟩,
        ⟨(), 0x10, ()⟩]
    tracking (stepAll w xs) = tracking w ∧
    observe w xs = nestedBlock.seen w.returnsStack.length ∧
    (observe w xs).filterMap Seen.target = nestedBlock.handlers := by
  refine block_runs _ true [] nestedBlock _ (by decide) rfl ?_ ?_
  · simp [nestedBlock, Block.Bracketed, Rounds.Bracketed, reached, new]
  · have consulted : ∀ {c : FireCall} {o : Option Address}, c.answer = .ok o →
        ∀ call ans, some c = some call → some o = some ans → call.answer = .ok ans := by
      rintro c o h call ans ⟨⟩ ⟨⟩
      exact h
    exact ⟨rfl, consulted rfl, rfl, by simp, rfl, consulted rfl, rfl,
      by simp, rfl, consulted rfl, rfl, consulted rfl, trivial⟩

end InterruptWrapper

end FuguexPeripheral
