import FuguexPeripheral.V850.FifoStatus

/-!
# The FIFO status before the first message

`init` sets the FIFO-empty bit of RFSTS0. It then writes zero to the same address, where the
comment beside it names the global status register.

Results:
1. `readU32_init`: RFSTS0 after `init`.
2. `step_quiet`: what a read away from the message registers does to RFSTS0.
3. `showsEmpty_iff`: the bit is set once RFSTS0 itself was read, and not before.
-/

namespace FuguexPeripheral.V850

open ByteStore Fallible Masks RSCan

variable {api : SocketCan} {O : Order}

/-- The RFSTS0 word in memory has the FIFO-empty bit. -/
def System.ShowsEmpty (s : System api O) : Prop :=
  bit (s.state.readU32 Reg.rfsts0.addr) 0 = true

/-- An address other than RFPTR0, RFID0 and the data registers. -/
def isQuiet (address : Address) : Prop :=
  address ≠ Reg.rfptr0.addr ∧ address ≠ Reg.rfid0.addr ∧ ¬ isRfdf address

/-- `init` and then reads of the firmware. -/
def idleRun (reads : List Address) : List (Event O) :=
  .init :: reads.map .input

/-- From `new_queued` the bit is set after `init` and after every later read. -/
def NoPhantom (api : SocketCan) (m : PCodeState O) (reads : List Address) : Prop :=
  ∀ first, first <+: reads → ∃ s : System api O,
    System.run ⟨newQueued api, m⟩ (idleRun first) = .ok s ∧ s.ShowsEmpty

namespace PhantomMessageLemmas

/-- The status is zero after `init`: the bit that it sets is written over. -/
theorem readU32_init (m : PCodeState O) : (RSCan.init m).readU32 Reg.rfsts0.addr = 0 := by
  have hgsts : Reg.rfsts0.addr + 4 ≤ Reg.gsts.addr ∨ Reg.gsts.addr + 4 ≤ Reg.rfsts0.addr := by
    decide
  rw [RSCan.init, PCodeState.readU32_writeU32_of_disjoint _ _ hgsts,
    PCodeState.readU32_writeU32]

/-- A read of RFSTS0 sets the bit, and the other reads leave the word as it is. -/
theorem step_quiet {s : System api O} {address : Address} (hempty : s.can.dataQueue = [])
    (h : isQuiet address) : ∃ t, s.step (.input address) = .ok t ∧ t.can = s.can ∧
      (t.ShowsEmpty ↔ address = Reg.rfsts0.addr ∨ s.ShowsEmpty) := by
  by_cases hrfsts0 : address = Reg.rfsts0.addr
  · subst hrfsts0
    refine ⟨⟨s.can, s.state.writeU32 Reg.rfsts0.addr 0x01⟩, ?_, rfl, ?_⟩
    · rw [System.step, handleInput_rfsts0, inputRfsts0_of_empty _ hempty]
      rfl
    · simp [System.ShowsEmpty, bit_one]
  · have hkept : ∀ (r : Reg) (v : UInt32), Reg.rfsts0.addr + 4 ≤ r.addr ∨
        r.addr + 4 ≤ Reg.rfsts0.addr →
        (System.ShowsEmpty ⟨s.can, s.state.writeU32 r.addr v⟩ ↔ s.ShowsEmpty) := by
      intro r v hr
      simp only [System.ShowsEmpty, PCodeState.readU32_writeU32_of_disjoint s.state v hr]
    obtain ⟨hrfptr0, hrfid0, hrfdf⟩ := h
    simp only [hrfsts0, false_or]
    by_cases hc0sts : address = Reg.c0sts.addr
    · refine ⟨⟨s.can, s.state.writeU32 Reg.c0sts.addr 0x80⟩, ?_, rfl,
        hkept .c0sts 0x80 (by decide)⟩
      simp [System.step, handleInput, hc0sts, Reg.addr_inj, Except.map]
    · by_cases hc0erfl : address = Reg.c0erfl.addr
      · refine ⟨⟨s.can, s.state.writeU32 Reg.c0erfl.addr 0x0⟩, ?_, rfl,
          hkept .c0erfl 0x0 (by decide)⟩
        simp [System.step, handleInput, hc0erfl, Reg.addr_inj, Except.map]
      · refine ⟨s, ?_, rfl, Iff.rfl⟩
        simp [System.step, handleInput, *, Except.map]

theorem run_quiet {s : System api O} {reads : List Address} (hempty : s.can.dataQueue = [])
    (h : ∀ address ∈ reads, isQuiet address) : ∃ t, s.run (reads.map .input) = .ok t ∧
      (t.ShowsEmpty ↔ Reg.rfsts0.addr ∈ reads ∨ s.ShowsEmpty) := by
  induction reads generalizing s with
  | nil => exact ⟨s, rfl, by simp⟩
  | cons address reads ih =>
    obtain ⟨r, hstep, hcan, hr⟩ := step_quiet hempty (h address List.mem_cons_self)
    obtain ⟨t, hrun, ht⟩ := ih (s := r) (by rw [hcan, hempty])
      fun x hx => h x (List.mem_cons_of_mem _ hx)
    refine ⟨t, ?_, ?_⟩
    · rw [List.map_cons, System.run, List.foldlM_cons, hstep]
      exact hrun
    · rw [ht, hr, List.mem_cons, ← or_assoc, or_comm (a := Reg.rfsts0.addr ∈ reads),
        eq_comm (a := address)]

end PhantomMessageLemmas

open PhantomMessageLemmas

/-- With nothing enqueued the bit is set exactly if RFSTS0 was read since `init`. So it is
never set from `init` on. -/
theorem showsEmpty_iff (m : PCodeState O) {reads : List Address}
    (h : ∀ address ∈ reads, isQuiet address) :
    (∃ s : System api O, System.run ⟨newQueued api, m⟩ (idleRun reads) = .ok s ∧
      (s.ShowsEmpty ↔ Reg.rfsts0.addr ∈ reads)) ∧ ¬ NoPhantom api m reads := by
  have hclear : ¬ System.ShowsEmpty (⟨newQueued api, RSCan.init m⟩ : System api O) := by
    rw [System.ShowsEmpty, readU32_init, bit_zero]
    exact Bool.false_ne_true
  constructor
  · obtain ⟨t, hrun, ht⟩ := run_quiet (s := ⟨newQueued api, RSCan.init m⟩) rfl h
    refine ⟨t, hrun, ?_⟩
    rw [ht, or_iff_left hclear]
  · intro hall
    obtain ⟨s, hrun, hs⟩ := hall [] List.nil_prefix
    cases hrun
    exact hclear hs

theorem showsEmpty_iff_rfsts0 :
    (∃ s : System SocketCan.plain .be, System.run ⟨newQueued SocketCan.plain, blank .be⟩
      (idleRun [Reg.c0sts.addr, Reg.rfsts0.addr]) = .ok s ∧
      (s.ShowsEmpty ↔ Reg.rfsts0.addr ∈ [Reg.c0sts.addr, Reg.rfsts0.addr])) ∧
    ¬ NoPhantom SocketCan.plain (blank .be) [Reg.c0sts.addr, Reg.rfsts0.addr] :=
  showsEmpty_iff (blank .be) fun address haddress => by
    rcases List.mem_pair.mp haddress with rfl | rfl <;> exact ⟨by decide, by decide, by decide⟩

/-- After `init` alone RFSTS0 shows a message that is not there. -/
theorem not_noPhantom_init : ¬ NoPhantom SocketCan.plain (blank .le) [] := by
  intro hall
  obtain ⟨s, hrun, hs⟩ := hall [] List.nil_prefix
  cases hrun
  rw [System.ShowsEmpty, readU32_init, bit_zero] at hs
  cases hs

end FuguexPeripheral.V850
