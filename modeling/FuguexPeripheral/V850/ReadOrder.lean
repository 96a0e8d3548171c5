import FuguexPeripheral.Commuting
import FuguexPeripheral.V850.Clones

/-!
# The order of reads

In queued mode a read refreshes the bytes of one register and leaves the queue. Reads of
different registers refresh different bytes, and a read that is repeated refreshes them to
the same.

Results:
1. `step_input`: a read as the replacement of one register, or a panic.
2. `run_reads`: a list of reads as a loop over their registers.
3. `reads_commute`: what a list of reads leaves depends on the set of its registers only.
-/

namespace FuguexPeripheral.V850

open ByteStore Fallible RSCan

variable {api : SocketCan} {O : Order}

/-! ## Registers that a read refreshes -/

/-- The register that a read of `address` refreshes. The two data registers are refreshed
together. -/
def served (address : Address) : Option Reg :=
  if address = Reg.c0sts.addr then some .c0sts
  else if address = Reg.c0erfl.addr then some .c0erfl
  else if address = Reg.rfsts0.addr then some .rfsts0
  else if address = Reg.rfptr0.addr then some .rfptr0
  else if address = Reg.rfid0.addr then some .rfid0
  else if isRfdf address then some .rfdf00
  else none

/-- The registers that a read refreshes. -/
def servedRegs : List Reg :=
  [.c0sts, .c0erfl, .rfsts0, .rfptr0, .rfid0, .rfdf00]

/-- The number of bytes that a read of the register refreshes. -/
def Reg.width : Reg → Nat
  | .rfdf00 => 8
  | _ => 4

/-- The value that a read gives the register, in place of `old`. -/
def refreshed (can : RSCan api) (r : Reg) (old : Nat) : Nat :=
  let content := can.contents.headD (0, [])
  match r with
  | .c0sts => 0x80
  | .c0erfl => 0
  | .rfsts0 => (statusWord (UInt32.ofNat old) can.contents.length).toNat
  | .rfptr0 => ((8 : UInt32) <<< 28).toNat
  | .rfid0 => (rfidWord content.1).toNat
  | .rfdf00 => (UInt64.ofNat (decode .le content.2)).toNat
  | _ => old

/-- The register shows the message at the head of the queue. -/
def Reg.ofMessage : Reg → Bool
  | .rfptr0 | .rfid0 | .rfdf00 => true
  | _ => false

/-- A read of the register does not panic. -/
def Readable (can : RSCan api) (r : Reg) : Prop :=
  (r = .rfsts0 → can.contents.length < 256) ∧ (r.ofMessage = true → can.contents ≠ [])

/-- The state after a read that refreshes the register. -/
def refresh (can : RSCan api) (state : PCodeState O) (r : Reg) : PCodeState O :=
  state.modify r.addr r.width (refreshed can r)

namespace ReadOrderLemmas

theorem mem_servedRegs {address : Address} {r : Reg} (h : served address = some r) :
    r ∈ servedRegs := by
  unfold served at h
  split_ifs at h <;> (cases h; decide)

/-- Different registers have different bytes. -/
theorem disjoint_of_ne {r r' : Reg} (hr : r ∈ servedRegs) (hr' : r' ∈ servedRegs) (hne : r ≠ r') :
    r.addr + r.width ≤ r'.addr ∨ r'.addr + r'.width ≤ r.addr := by
  have hall : ∀ r ∈ servedRegs, ∀ r' ∈ servedRegs, r ≠ r' →
      r.addr + r.width ≤ r'.addr ∨ r'.addr + r'.width ≤ r.addr := by decide
  exact hall r hr r' hr' hne

open FifoStatusLemmas Masks in
/-- The status is the same when it is refreshed again. -/
theorem statusWord_statusWord (old : UInt32) (n : Nat) :
    statusWord (statusWord old n) n = statusWord old n := by
  by_cases hne : n = 0
  · subst hne
    rfl
  · refine ext_bit fun i hi => ?_
    rw [bit_statusWord hne hi, bit_statusWord hne hi]
    generalize decide (i ≠ 0 ∧ ¬ (8 ≤ i ∧ i < 16)) = kept
    generalize (decide (8 ≤ i) && n.testBit (i - 8)) = count
    cases bit old i <;> cases kept <;> cases count <;> rfl

/-- A register that is refreshed again stays as it is. -/
theorem refreshed_refreshed (can : RSCan api) (r : Reg) (hr : r ∈ servedRegs) (old : Nat) :
    refreshed can r (refreshed can r old % 2 ^ (8 * r.width)) = refreshed can r old := by
  by_cases hstatus : r = .rfsts0
  · subst hstatus
    have hword : UInt32.ofNat ((statusWord (UInt32.ofNat old) can.contents.length).toNat %
        2 ^ (8 * Reg.rfsts0.width)) = statusWord (UInt32.ofNat old) can.contents.length := by
      have hlt : (statusWord (UInt32.ofNat old) can.contents.length).toNat <
          2 ^ (8 * Reg.rfsts0.width) := UInt32.toNat_lt _
      rw [Nat.mod_eq_of_lt hlt, UInt32.ofNat_toNat]
    simp only [refreshed, hword, statusWord_statusWord]
  · simp only [servedRegs, List.mem_cons, List.not_mem_nil, or_false] at hr
    rcases hr with rfl | rfl | rfl | rfl | rfl | rfl
    all_goals first
      | rfl
      | exact absurd rfl hstatus

variable {s : System api O} {address : Address} {r : Reg}

theorem step_of_not_served (h : served address = none) : s.step (.input address) = .ok s := by
  unfold served at h
  split_ifs at h
  simp [System.step, handleInput, *, Except.map]

theorem step_of_readable (h : Stocked s.can) (ha : served address = some r)
    (hr : Readable s.can r) :
    s.step (.input address) = .ok ⟨s.can, refresh s.can s.state r⟩ := by
  have hlength : s.can.contents.length = s.can.dataQueue.length := by simp [RSCan.contents]
  -- the three registers that show the message at the head
  have hshown : ∀ {address : Address}, (Event.input address : Event O).NeedsMessage →
      s.can.contents ≠ [] → s.step (.input address) =
        .ok ⟨s.can, Content.shown (s.can.contents.headD (0, [])) address s.state⟩ := by
    intro address hneeds hne
    obtain ⟨content, rest, hcontents⟩ := List.exists_cons_of_ne_nil hne
    rw [step_shown h hcontents hneeds, hcontents, List.headD_cons]
  unfold served at ha
  split_ifs at ha with h₁ h₂ h₃ h₄ h₅ h₆
  · cases ha
    subst h₁
    simp [System.step, handleInput, Reg.addr_inj, Except.map]
    rfl
  · cases ha
    subst h₂
    simp [System.step, handleInput, Reg.addr_inj, Except.map]
    rfl
  · cases ha
    subst h₃
    rw [FifoStatusLemmas.step_rfsts0 (hlength ▸ hr.1 rfl), refresh, PCodeState.modify, refreshed,
      hlength]
    rfl
  · cases ha
    subst h₄
    have hne : Reg.rfptr0.addr ≠ Reg.rfid0.addr := by decide
    rw [hshown (.inl rfl) (hr.2 rfl), Content.shown, if_neg hne, if_pos rfl]
    rfl
  · cases ha
    subst h₅
    rw [hshown (.inr (.inl rfl)) (hr.2 rfl), Content.shown, if_pos rfl]
    rfl
  · cases ha
    rw [hshown (.inr (.inr h₆)) (hr.2 rfl), Content.shown, if_neg h₅, if_neg h₄]
    rfl

theorem not_step_of_not_readable (h : Stocked s.can) (ha : served address = some r)
    (hr : ¬ Readable s.can r) (t : System api O) : s.step (.input address) ≠ .ok t := by
  have hlength : s.can.contents.length = s.can.dataQueue.length := by simp [RSCan.contents]
  have hempty : r.ofMessage = true → (Event.input address : Event O).NeedsMessage →
      r ≠ .rfsts0 → s.step (.input address) ≠ .ok t := by
    intro hmessage hneeds hne
    refine not_step_of_empty h ?_ hneeds t
    by_contra hcontents
    exact hr ⟨fun heq => absurd heq hne, fun _ => hcontents⟩
  unfold served at ha
  split_ifs at ha with h₁ h₂ h₃ h₄ h₅ h₆
  · cases ha
    exact absurd ⟨(by cases ·), (by cases ·)⟩ hr
  · cases ha
    exact absurd ⟨(by cases ·), (by cases ·)⟩ hr
  · cases ha
    subst h₃
    -- RFSTS0 fails on the number of messages, which does not fit its eight bits
    have hle : 256 ≤ s.can.dataQueue.length := by
      refine Nat.not_lt.mp fun hlt => hr ⟨fun _ => hlength ▸ hlt, (by cases ·)⟩
    rw [FifoStatusLemmas.step_rfsts0_of_le hle]
    exact fun heq => by cases heq
  · cases ha
    exact hempty rfl (.inl h₄) (by decide)
  · cases ha
    exact hempty rfl (.inr (.inl h₅)) (by decide)
  · cases ha
    exact hempty rfl (.inr (.inr h₆)) (by decide)

/-- A list of reads is a loop over their registers, and goes on when each can be read. -/
theorem run_reads (h : Stocked s.can) (l : List Address) (t : System api O) :
    s.run (l.map Event.input) = .ok t ↔ (∀ r ∈ l.filterMap served, Readable s.can r) ∧
      t = ⟨s.can, (l.filterMap served).foldl (refresh s.can) s.state⟩ := by
  induction l generalizing s with
  | nil => exact ⟨fun heq => (by cases heq; exact ⟨fun _ hr => absurd hr List.not_mem_nil, rfl⟩),
      fun heq => heq.2 ▸ rfl⟩
  | cons address l ih =>
    rw [List.map_cons, System.run, List.foldlM_cons]
    cases ha : served address with
    | none =>
      rw [step_of_not_served ha, List.filterMap_cons_none ha]
      exact ih h
    | some r =>
      rw [List.filterMap_cons_some ha, List.forall_mem_cons, List.foldl_cons]
      by_cases hr : Readable s.can r
      · rw [step_of_readable h ha hr, and_assoc, and_iff_right hr]
        exact ih (s := ⟨s.can, refresh s.can s.state r⟩) h
      · refine ⟨fun heq => ?_, fun heq => absurd heq.1.1 hr⟩
        obtain ⟨r', hstep, -⟩ := exists_of_bind_eq_ok heq
        exact absurd hstep (not_step_of_not_readable h ha hr r')

end ReadOrderLemmas

open ReadOrderLemmas

/-- The firmware may read the registers in any order and as often as it likes: two lists of
reads that refresh the same registers leave the same, or both panic. -/
theorem reads_commute {s : System api O} (h : Stocked s.can) {l l' : List Address}
    (hsame : ∀ r, r ∈ l.filterMap served ↔ r ∈ l'.filterMap served) (t : System api O) :
    s.run (l.map Event.input) = .ok t ↔ s.run (l'.map Event.input) = .ok t := by
  have hserved : ∀ r ∈ l.filterMap served, r ∈ servedRegs := by
    intro r hr
    obtain ⟨address, -, ha⟩ := List.mem_filterMap.mp hr
    exact mem_servedRegs ha
  have hloop : (l.filterMap served).foldl (refresh s.can) s.state =
      (l'.filterMap served).foldl (refresh s.can) s.state := by
    refine Commuting.foldl_congr_of_mem_iff (fun r hr r' hr' state => ?_)
      (fun r hr state => ?_) hsame s.state
    · by_cases hne : r = r'
      · rw [hne]
      · exact PCodeState.modify_comm state _ _ (disjoint_of_ne (hserved r hr) (hserved r' hr') hne)
    · exact PCodeState.modify_idem state r.addr (refreshed_refreshed s.can r (hserved r hr))
  rw [run_reads h, run_reads h, hloop]
  refine and_congr_left fun _ => ?_
  exact forall_congr' fun r => by rw [hsame r]

/-- The identifier is read twice, and the data through either register. -/
theorem reads_commute_oneQueued : ∃ t,
    oneQueued.run ([Reg.rfid0.addr, Reg.rfdf00.addr, Reg.rfid0.addr].map Event.input) = .ok t ∧
    oneQueued.run ([Reg.rfdf10.addr, Reg.rfid0.addr].map Event.input) = .ok t := by
  have hstocked : Stocked oneQueued.can := ⟨rfl, by decide⟩
  have hleft : [Reg.rfid0.addr, Reg.rfdf00.addr, Reg.rfid0.addr].filterMap served =
      [.rfid0, .rfdf00, .rfid0] := by decide
  have hright : [Reg.rfdf10.addr, Reg.rfid0.addr].filterMap served = [.rfdf00, .rfid0] := by decide
  have hreadable : ∀ r ∈ [Reg.rfid0, .rfdf00, .rfid0], Readable oneQueued.can r :=
    fun r _ => ⟨fun _ => (by decide : 1 < 256), fun _ => List.cons_ne_nil _ _⟩
  have hrun := (run_reads (s := oneQueued) hstocked
    [Reg.rfid0.addr, Reg.rfdf00.addr, Reg.rfid0.addr] _).mpr ⟨hleft ▸ hreadable, rfl⟩
  refine ⟨_, hrun, (reads_commute hstocked (fun r => ?_) _).mp hrun⟩
  rw [hleft, hright]
  simp only [List.mem_cons, List.not_mem_nil, or_false]
  exact ⟨fun h => h.elim .inr fun h => h.elim .inl .inr, fun h => h.elim (.inr ∘ .inl) .inl⟩

end FuguexPeripheral.V850
