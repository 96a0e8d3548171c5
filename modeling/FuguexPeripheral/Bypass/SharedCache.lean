import FuguexPeripheral.Interleaving
import FuguexPeripheral.Bypass.CacheKeys
import FuguexPeripheral.Bypass.Session

/-!
# Clones that share the cached results

`clone` of a `DummyPeripheral` copies every field but `solving_results`, which is behind an
`Arc`. So emulators whose hooks are clones of one peripheral have sessions, ranges and
solvers of their own, and one cache. Their hooks are called in any order. A call that panics
does so before it writes to the cache, and the other emulators go on.

Results:
1. `hookOperationStep_withResults`, `results_of_step`: what a call reads of the cache, and
   what it writes there.
2. `runs_alone`: an emulator runs as if it were alone when the others cache nothing that it
   looks up.
3. `settled_of_run`: an entry of which nobody has a session open is final.
-/

namespace FuguexPeripheral

open ByteStore Runs Interleaving

/-- An emulator with a clone as its hook. The cache of the clone is not its own, so what the
record holds in its place counts for nothing. -/
abbrev Emulator (X : SymExprApi) (O : Order) :=
  DummyPeripheral X × PCodeState O

namespace DummyPeripheral

variable {X : SymExprApi} {O : Order}

/-- The peripheral with these results behind the `Arc`. -/
def withResults (h : DummyPeripheral X) (results : Address → Option SolvingResult) :
    DummyPeripheral X :=
  { h with solvingResults := results }

end DummyPeripheral

/-- What happens to an emulator: its hook is called or configured, or it computes. -/
inductive EmulatorEvent (O : Order)
  | operation (operation : PCodeOp)
  | architectural
  | addAddressRange (range : Address × Address)
  | enableCache (enable : Bool)
  | addDefaultReg (name : String) (value : Nat)
  | execute (state : PCodeState O)

def EmulatorEvent.apply {X : SymExprApi} {O : Order} (env : SolverEnv X) (m : Emulator X O) :
    EmulatorEvent O → Except Panic (Emulator X O)
  | .operation op => m.1.hookOperationStep env m.2 op
  | .architectural => .ok (m.1.hookArchitecturalStep, m.2)
  | .addAddressRange range => .ok (m.1.addAddressRange range, m.2)
  | .enableCache enable => .ok (m.1.enableSolvingResultCache enable, m.2)
  | .addDefaultReg name value => .ok (m.1.addDefaultReg name value, m.2)
  | .execute state => .ok (m.1, state)

/-- What happens to its peripheral, in the state of its emulator. -/
def EmulatorEvent.toPeripheral {O : Order} (s : PCodeState O) :
    EmulatorEvent O → Option (PeripheralEvent O)
  | .operation op => some (.operation s op)
  | .architectural => some .architectural
  | .addAddressRange range => some (.addAddressRange range)
  | .enableCache enable => some (.enableCache enable)
  | .addDefaultReg name value => some (.addDefaultReg name value)
  | .execute _ => none

/-- One emulator does something, with the shared results in its hook. -/
def Calls {X : SymExprApi} {O : Order} (env : SolverEnv X)
    (results : Address → Option SolvingResult) (m : Emulator X O) (e : EmulatorEvent O)
    (results' : Address → Option SolvingResult) (m' : Emulator X O) : Prop :=
  ∃ hook state, e.apply env (m.1.withResults results, m.2) = .ok (hook, state) ∧
    results' = hook.solvingResults ∧ m' = (hook.withResults fun _ => none, state)

/-- The shared results, and the emulators. -/
abbrev Emulators (κ : Type) (X : SymExprApi) (O : Order) :=
  World κ (Address → Option SolvingResult) (Emulator X O)

namespace DummyPeripheral

variable {X : SymExprApi} {O : Order} {env : SolverEnv X} {h h' : DummyPeripheral X}
  {s s' : PCodeState O}

/-- The hook looks up these addresses in the cache, and caches results for them only. -/
def LooksIn (h : DummyPeripheral X) (D : Address → Prop) : Prop :=
  h.solvingResultsCacheEnable = true → ∀ a, InRange h.addressRangeList a → D a

/-- An open session is one for an address in range. -/
def OpenInRange (h : DummyPeripheral X) : Prop :=
  h.solvingStarted = true → InRange h.addressRangeList h.lastMemReadEvent.readAddress

/-- A session is open for a load from the address. -/
def Polling (h : DummyPeripheral X) (A : Address) : Prop :=
  h.solvingStarted = true ∧ h.lastMemReadEvent.readAddress = A

/-! ## What a call reads of the cache -/

namespace SharedCacheLemmas

variable {D : Address → Prop} {f g : Address → Option SolvingResult}

theorem cached_of_enabled (henabled : h.solvingResultsCacheEnable = true) (A : Address) :
    (h.withResults f).cached A = f A :=
  if_pos henabled

theorem cached_withResults (hD : h.LooksIn D) (hg : ∀ a, D a → h.solvingResults a = g a)
    {a : Address} (hin : InRange h.addressRangeList a) :
    (h.withResults g).cached a = h.cached a := by
  show (if h.solvingResultsCacheEnable = true then g a else none) = _
  unfold cached
  split
  next henabled => exact (hg a (hD henabled a hin)).symm
  next => rfl

theorem onLoad_withResults (hD : h.LooksIn D) (hg : ∀ a, D a → h.solvingResults a = g a)
    {source destination : Operand} (hload : h.onLoad s source destination = .ok (h', s')) :
    (h.withResults g).onLoad s source destination = .ok (h'.withResults g, s') ∧
      h'.solvingResults = h.solvingResults := by
  rcases onLoad_cases hload with ⟨hout, rfl, rfl⟩ | ⟨hin, r, n, hr, hn, rfl, rfl⟩ |
    ⟨hin, hmiss, rfl, rfl⟩
  · refine ⟨?_, rfl⟩
    rw [onLoad, loadLoop_eq]
    exact if_neg hout
  · exact ⟨onLoad_hit hin ((cached_withResults hD hg hin).trans hr) hn, rfl⟩
  · exact ⟨onLoad_miss hin ((cached_withResults hD hg hin).trans hmiss), rfl⟩

theorem checkLoop_withResults (h : DummyPeripheral X) (g : Address → Option SolvingResult)
    (s : PCodeState O) (destination condition : Operand) :
    (h.withResults g).checkLoop s destination condition =
      ((h.checkLoop s destination condition).1.withResults g,
        (h.checkLoop s destination condition).2) := by
  unfold checkLoop withResults
  dsimp only
  split_ifs <;> rfl

theorem countFunCall_withResults (h : DummyPeripheral X) (g : Address → Option SolvingResult)
    (change : Int32) :
    (h.withResults g).countFunCall change = (h.countFunCall change).withResults g := by
  unfold countFunCall withResults
  dsimp only
  split_ifs <;> rfl

theorem onStore_withResults (h : DummyPeripheral X) (g : Address → Option SolvingResult)
    (s : PCodeState O) (destination : Operand) :
    (h.withResults g).onStore s destination = (h.onStore s destination).withResults g := by
  unfold onStore withResults
  dsimp only
  split_ifs <;> rfl

/-- The solutions are written and cached in the same way. -/
theorem writeSolutions_withResults (solutions : List (Address × Option Nat))
    (hg : ∀ a, D a → h.solvingResults a = g a) :
    ∃ g', solutions.foldl writeSolution (h.withResults g, s) =
        ((solutions.foldl writeSolution (h, s)).1.withResults g',
          (solutions.foldl writeSolution (h, s)).2) ∧
      ∀ a, D a → (solutions.foldl writeSolution (h, s)).1.solvingResults a = g' a := by
  induction solutions generalizing h g s with
  | nil => exact ⟨g, rfl, hg⟩
  | cons kv solutions ih =>
    have hone : ∃ g', writeSolution (h.withResults g, s) kv =
          ((writeSolution (h, s) kv).1.withResults g', (writeSolution (h, s) kv).2) ∧
        ∀ a, D a → (writeSolution (h, s) kv).1.solvingResults a = g' a := by
      obtain ⟨A, value⟩ := kv
      cases value with
      | none => exact ⟨g, rfl, hg⟩
      | some v =>
        cases henabled : h.solvingResultsCacheEnable with
        | false =>
          refine ⟨g, ?_, ?_⟩
          · unfold writeSolution withResults
            simp only [henabled, Bool.false_eq_true, if_false]
          · unfold writeSolution
            simpa only [henabled, Bool.false_eq_true, if_false] using hg
        | true =>
          -- both put the same entry at the address of the session, also outside `D`
          refine ⟨((h.withResults g).cacheResult v).solvingResults, ?_, fun a ha => ?_⟩
          · unfold writeSolution withResults cacheResult
            simp only [henabled, if_true]
          · unfold writeSolution cacheResult withResults
            simp only [henabled, if_true]
            by_cases hsame : a = h.lastMemReadEvent.readAddress
            · rw [hsame, Function.update_self, Function.update_self]
            · rw [Function.update_of_ne hsame, Function.update_of_ne hsame]
              exact hg a ha
    obtain ⟨g₁, heq, hg₁⟩ := hone
    obtain ⟨g', heq', hg'⟩ := ih (s := (writeSolution (h, s) kv).2) hg₁
    refine ⟨g', ?_, hg'⟩
    rw [List.foldl_cons, heq]
    exact heq'

theorem onCBranch_withResults (hg : ∀ a, D a → h.solvingResults a = g a)
    {destination condition : Operand}
    (hbranch : h.onCBranch env s destination condition = .ok (h', s')) :
    ∃ g', (h.withResults g).onCBranch env s destination condition = .ok (h'.withResults g', s') ∧
      ∀ a, D a → h'.solvingResults a = g' a := by
  unfold onCBranch at hbranch ⊢
  rw [checkLoop_withResults]
  have hfields := (checkLoop_fields h s destination condition).2.2.2
  split at hbranch
  next h₁ heq =>
    rw [heq] at hfields ⊢
    cases hbranch
    exact ⟨g, rfl, fun a ha => (congrFun hfields a).trans (hg a ha)⟩
  next h₁ call heq =>
    rw [heq] at hfields ⊢
    dsimp only
    split at hbranch
    next => cases hbranch
    next solver hsolve =>
      cases hbranch
      exact ⟨g, rfl, fun a ha => (congrFun hfields a).trans (hg a ha)⟩
    next result solver hsolve =>
      obtain ⟨g', heq', hg'⟩ := writeSolutions_withResults (D := D) (g := g)
        (h := { h₁ with solver := solver })
        (env.resultOrder (result.entries.map fun e => (e.1, e.2)))
        fun a ha => (congrFun hfields a).trans (hg a ha)
      rw [Except.ok.inj hbranch] at heq' hg'
      exact ⟨g', congrArg Except.ok heq', hg'⟩

theorem onOperation_withResults (hD : h.LooksIn D) (hg : ∀ a, D a → h.solvingResults a = g a)
    {op : PCodeOp} (harm : h.onOperation env s op = .ok (h', s')) :
    ∃ g', (h.withResults g).onOperation env s op = .ok (h'.withResults g', s') ∧
      ∀ a, D a → h'.solvingResults a = g' a := by
  cases op with
  | load source destination =>
    obtain ⟨heq, hkept⟩ := onLoad_withResults hD hg harm
    exact ⟨g, heq, fun a ha => (congrFun hkept a).trans (hg a ha)⟩
  | cbranch destination condition => exact onCBranch_withResults hg harm
  | store source destination =>
    cases harm
    have hkept : (h.onStore s destination).solvingResults = h.solvingResults := by
      unfold onStore
      split <;> rfl
    exact ⟨g, congrArg (fun h => Except.ok (h, s)) (onStore_withResults h g s destination),
      fun a ha => (congrFun hkept a).trans (hg a ha)⟩
  | icall destination =>
    cases harm
    exact ⟨g, congrArg (fun h => Except.ok (h, s)) (countFunCall_withResults h g 1),
      fun a ha => (congrFun (countFunCall_fields h 1).2.2.2 a).trans (hg a ha)⟩
  | ret destination =>
    cases harm
    exact ⟨g, congrArg (fun h => Except.ok (h, s)) (countFunCall_withResults h g (-1)),
      fun a ha => (congrFun (countFunCall_fields h (-1)).2.2.2 a).trans (hg a ha)⟩
  | copy | branch | ibranch | call | subpiece | binary | unary | skip | other =>
    cases harm
    exact ⟨g, rfl, hg⟩

theorem track_withResults {h₁ : DummyPeripheral X} {op : PCodeOp}
    (g : Address → Option SolvingResult) (htrack : h.track s op = .ok h₁) :
    (h.withResults g).track s op = .ok (h₁.withResults g) ∧
      h₁.solvingResults = h.solvingResults := by
  unfold track at htrack ⊢
  split at htrack
  next ht =>
    split at htrack
    next solver hadd =>
      cases htrack
      rw [if_pos (show (h.withResults g).tracking = true from ht)]
      rw [show (h.withResults g).solver.addPcode op s = .ok solver from hadd]
      exact ⟨rfl, rfl⟩
    next => cases htrack
  next ht =>
    cases htrack
    exact ⟨if_neg ht, rfl⟩

/-- A call of the hook does the same with other results, if they are the same where it looks. -/
theorem hookOperationStep_withResults (hD : h.LooksIn D)
    (hg : ∀ a, D a → h.solvingResults a = g a) {op : PCodeOp}
    (hstep : h.hookOperationStep env s op = .ok (h', s')) :
    ∃ g', (h.withResults g).hookOperationStep env s op = .ok (h'.withResults g', s') ∧
      ∀ a, D a → h'.solvingResults a = g' a := by
  unfold hookOperationStep at hstep
  split at hstep
  next => cases hstep
  next h₁ s₁ harm =>
    split at hstep
    next => cases hstep
    next h₂ htrack =>
      cases hstep
      obtain ⟨g', harm', hg'⟩ := onOperation_withResults hD hg harm
      obtain ⟨htrack', hkept⟩ := track_withResults g' htrack
      refine ⟨g', ?_, fun a ha => (congrFun hkept a).trans (hg' a ha)⟩
      unfold hookOperationStep
      rw [harm']
      dsimp only
      rw [htrack']
      rfl

theorem apply_withResults (hD : h.LooksIn D) (hg : ∀ a, D a → h.solvingResults a = g a)
    {e : EmulatorEvent O} (happly : e.apply env (h, s) = .ok (h', s')) :
    ∃ g', e.apply env (h.withResults g, s) = .ok (h'.withResults g', s') ∧
      ∀ a, D a → h'.solvingResults a = g' a := by
  cases e with
  | operation op => exact hookOperationStep_withResults hD hg happly
  | architectural | addAddressRange | enableCache | addDefaultReg | execute =>
    cases happly
    exact ⟨g, rfl, hg⟩

/-! ## What a call writes to the cache -/

theorem writeSolutions_results_of_ne {solutions : List (Address × Option Nat)}
    {hs : DummyPeripheral X × PCodeState O} {A : Address}
    (hne : A ≠ hs.1.lastMemReadEvent.readAddress) :
    (solutions.foldl writeSolution hs).1.solvingResults A = hs.1.solvingResults A := by
  induction solutions generalizing hs with
  | nil => rfl
  | cons kv solutions ih =>
    obtain ⟨results, hresults⟩ := writeSolutions_hook [kv] hs
    have hfields : (writeSolution hs kv).1 = { hs.1 with solvingResults := results } := hresults
    rw [List.foldl_cons, ih (by rw [hfields]; exact hne)]
    unfold writeSolution
    split
    next => rfl
    next v hv =>
      dsimp only
      split
      next =>
        unfold cacheResult
        dsimp only
        rw [Function.update_of_ne hne]
      next => rfl

theorem step_of_apply {e : EmulatorEvent O} (happly : e.apply env (h, s) = .ok (h', s')) :
    h' = h ∨ ∃ p, e.toPeripheral s = some p ∧ Step env h p h' := by
  cases e with
  | operation op => exact .inr ⟨_, rfl, congrArg (Except.map Prod.fst) happly⟩
  | architectural | addAddressRange | enableCache | addDefaultReg =>
    cases happly
    exact .inr ⟨_, rfl, rfl⟩
  | execute state =>
    cases happly
    exact .inl rfl

/-- A result is cached under the address of an open session, and only if the cache is on. -/
theorem results_of_apply {e : EmulatorEvent O} (happly : e.apply env (h, s) = .ok (h', s'))
    {A : Address} (hne : h.solvingResultsCacheEnable = true → h.solvingStarted = true →
      A ≠ h.lastMemReadEvent.readAddress) : h'.solvingResults A = h.solvingResults A := by
  rcases step_of_apply happly with rfl | ⟨p, -, hstep⟩
  · rfl
  · rcases CacheKeyLemmas.step_results hstep with heq | ⟨s, destination, condition, result, solver,
      -, hcall, -, heq⟩
    · exact congrFun heq A
    · rw [heq]
      cases henabled : h.solvingResultsCacheEnable with
      | false => rw [CacheKeyLemmas.writeSolutions_disabled henabled]; rfl
      | true =>
        have hstarted := (checkLoop_call (congrArg Prod.snd hcall)).1
        exact writeSolutions_results_of_ne (hne henabled hstarted)

theorem inRange_of_step {p : PeripheralEvent O} (hstep : Step env h p h') {a : Address}
    (hin : InRange h.addressRangeList a) : InRange h'.addressRangeList a := by
  cases p with
  | operation s op =>
    obtain ⟨s', hstep⟩ := step_operation hstep
    obtain ⟨h₁, solver, harm, -, rfl⟩ := hookOperationStep_cases hstep
    exact (TargetLemmas.onOperation_targets harm).1 ▸ hin
  | addAddressRange range =>
    cases hstep
    exact TargetLemmas.inRange_append hin
  | architectural | enableCache | addDefaultReg =>
    cases hstep
    exact hin

theorem load_of_opened {p : PeripheralEvent O} {event : MemReadEvent}
    (hopened : h.opened p = some event) :
    ∃ s source destination, p = .operation s (.load source destination) ∧
      event.readAddress = s.getAddress source ∧ InRange h.addressRangeList event.readAddress ∧
      h.cached event.readAddress = none := by
  unfold opened at hopened
  split at hopened
  next s source destination =>
    split at hopened
    next hmiss =>
      cases hopened
      exact ⟨s, source, destination, rfl, rfl, hmiss⟩
    next => cases hopened
  next => cases hopened

theorem openInRange_of_apply (hopen : h.OpenInRange) {e : EmulatorEvent O}
    (happly : e.apply env (h, s) = .ok (h', s')) : h'.OpenInRange := by
  rcases step_of_apply happly with rfl | ⟨p, -, hstep⟩
  · exact hopen
  · intro hstarted
    refine inRange_of_step hstep ?_
    rcases step_session hstep hstarted with ⟨event, hopened, hevent, -⟩ | hcont
    · obtain ⟨-, -, -, -, -, hin, -⟩ := load_of_opened hopened
      exact hevent ▸ hin
    · exact hcont.event ▸ hopen hcont.started

theorem calls_congr {m m' : Emulator X O} {f' : Address → Option SolvingResult}
    (hD : m.1.LooksIn D) (hfg : ∀ a, D a → f a = g a) {e : EmulatorEvent O}
    (hcalls : Calls env f m e f' m') : ∃ g', Calls env g m e g' m' ∧ ∀ a, D a → f' a = g' a := by
  obtain ⟨hook, state, happly, rfl, rfl⟩ := hcalls
  obtain ⟨g', happly', hg'⟩ := apply_withResults (h := m.1.withResults f) hD hfg happly
  exact ⟨g', ⟨_, _, happly', rfl, rfl⟩, hg'⟩

/-- A result is cached for an address only by an emulator with a session open for it. -/
theorem results_of_calls {m m' : Emulator X O} {f' : Address → Option SolvingResult} {A : Address}
    (hidle : ¬ m.1.Polling A) {e : EmulatorEvent O} (hcalls : Calls env f m e f' m') :
    f' A = f A := by
  obtain ⟨hook, state, happly, rfl, -⟩ := hcalls
  refine results_of_apply (h := m.1.withResults f) happly fun _ hstarted => ?_
  rintro rfl
  exact hidle ⟨hstarted, rfl⟩

/-- An emulator with its cache on opens no session for an address that is cached. -/
theorem settled_of_calls {m m' : Emulator X O} {f' : Address → Option SolvingResult} {A : Address}
    {r : SolvingResult} (hm : f A = some r ∧ ¬ m.1.Polling A) {e : EmulatorEvent O}
    (henabled : ∀ source destination, e = .operation (.load source destination) →
      m.2.getAddress source = A → m.1.solvingResultsCacheEnable = true)
    (hcalls : Calls env f m e f' m') : f' A = some r ∧ ¬ m'.1.Polling A := by
  refine ⟨(results_of_calls hm.2 hcalls).trans hm.1, ?_⟩
  obtain ⟨hook, state, happly, rfl, rfl⟩ := hcalls
  rintro ⟨hstarted, hread⟩
  rcases step_of_apply happly with rfl | ⟨p, hp, hstep⟩
  · exact hm.2 ⟨hstarted, hread⟩
  -- a session that is open now was opened by this load, which the cache would have served
  · rcases step_session hstep hstarted with ⟨event, hopened, hevent, -⟩ | hcont
    · have hreads : event.readAddress = A := hevent ▸ hread
      obtain ⟨s, source, destination, rfl, hsource, -, hmiss⟩ := load_of_opened hopened
      rw [hreads] at hsource hmiss
      have he : e = .operation (.load source destination) ∧ m.2 = s := by
        cases e with
        | operation op =>
          cases hp
          exact ⟨rfl, rfl⟩
        | architectural | addAddressRange | enableCache | addDefaultReg | execute => cases hp
      obtain ⟨rfl, rfl⟩ := he
      rw [cached_of_enabled (henabled source destination rfl hsource.symm), hm.1] at hmiss
      cases hmiss
    · exact hm.2 ⟨hcont.started, hcont.event ▸ hread⟩

end SharedCacheLemmas

end DummyPeripheral

/-! ## Runs of the emulators -/

section Runs

open DummyPeripheral SharedCacheLemmas

variable {κ : Type} {X : SymExprApi} {O : Order} {env : SolverEnv X} {s t : Emulators κ X O}
  {tr : List (Emulators κ X O × Event κ (EmulatorEvent O))}

/-- An emulator runs as if it were alone with the cache when the others cache nothing that it
looks up: `D` holds of the addresses that it looks up, and the ranges of the others have none
of them, except while their cache is off. What it looks up may be cached before. -/
theorem runs_alone [DecidableEq κ] (h : Run (Interleaving.Step (Calls env)) s tr t) (j : κ)
    {D : Address → Prop} (hopen : ∀ k, (s.own k).1.OpenInRange)
    (hlooks : ∀ q x, (q, x) ∈ tr → (q.own j).1.LooksIn D) (hend : (t.own j).1.LooksIn D)
    (hothers : ∀ q x, (q, x) ∈ tr → ∀ k, k ≠ j → (q.own k).1.LooksIn fun a => ¬ D a)
    (hkeep : ∀ q x, (q, x) ∈ tr → ¬ x.replaces j)
    {results : Address → Option SolvingResult} (hs : ∀ a, D a → s.shared a = results a) :
    ∃ tr' results', Run (Solo (Calls env)) (results, s.own j) tr' (results', t.own j) ∧
      tr'.map Prod.snd = tr.filterMap (fun x => x.2.view j) ∧
      (∀ a, D a → t.shared a = results' a) ∧
      ∀ e, (∃ r m, Calls env t.shared (t.own j) e r m) ↔
        ∃ r m, Calls env results' (t.own j) e r m := by
  have hopens := (Interleaving.invariant (fun _ _ m => m.1.OpenInRange) h hopen
    (fun q i e f m _ hJ ⟨hook, state, happly, _, hm⟩ =>
      hm ▸ (openInRange_of_apply (h := (q.own i).1.withResults q.shared) hJ happly :))
    (fun _ _ _ _ _ _ _ _ _ hJ _ => hJ) fun _ _ _ _ hJ => hJ).2
  -- what a party looks up and what it may cache, beside the cache itself
  let Apart (k : κ) (_ : Address → Option SolvingResult) (m : Emulator X O) : Prop :=
    m.1.OpenInRange ∧ (k = j → m.1.LooksIn D) ∧ (k ≠ j → m.1.LooksIn fun a => ¬ D a)
  have hapart : ∀ q x, (q, x) ∈ tr → ∀ k, Apart k q.shared (q.own k) := fun q x hm k =>
    ⟨hopens q x hm k, fun hk => hk ▸ hlooks q x hm, hothers q x hm k⟩
  -- another party may cache only at the address of its session, which is outside `D`
  have hquiet : ∀ k f m e f' m' (g : Address → Option SolvingResult), k ≠ j → Apart k f m →
      Calls env f m e f' m' → (∀ a, D a → f a = g a) → ∀ a, D a → f' a = g a := by
    rintro k f m e f' m' g hk ⟨hopen, -, houtside⟩ ⟨hook, state, happly, rfl, -⟩ hfg a ha
    refine (results_of_apply happly fun henabled hstarted => ?_).trans (hfg a ha)
    rintro rfl
    exact houtside hk henabled _ (hopen hstarted) ha
  obtain ⟨tr', results', hrun, hview, hagree⟩ := alone Apart (fun f g => ∀ a, D a → f a = g a) j h
    hapart (fun f m e f' m' g hJ hcalls hfg => calls_congr (hJ.2.1 rfl) hfg hcalls) hquiet hkeep hs
  refine ⟨tr', results', hrun, hview, hagree, fun e => ⟨?_, ?_⟩⟩
  · rintro ⟨r, m, hcalls⟩
    obtain ⟨r', hcalls', -⟩ := calls_congr hend hagree hcalls
    exact ⟨r', m, hcalls'⟩
  · rintro ⟨r, m, hcalls⟩
    obtain ⟨r', hcalls', -⟩ := calls_congr hend (fun a ha => (hagree a ha).symm) hcalls
    exact ⟨r', m, hcalls'⟩

/-- An entry is final once nobody has a session open for its address: whoever loads from there
gets it, and nobody replaces it. The emulators that load from there have their cache on. Such a
load leaves 4 or 8 bytes of the value, as its size is, in little endian, and none otherwise. -/
theorem settled_of_run (h : Run (Interleaving.Step (Calls env)) s tr t) {A : Address}
    {r : SolvingResult} (hentry : s.shared A = some r) (hidle : ∀ k, ¬ (s.own k).1.Polling A)
    (henabled : ∀ q i source destination,
      (q, .act i (.operation (.load source destination))) ∈ tr →
      (q.own i).2.getAddress source = A → (q.own i).1.solvingResultsCacheEnable = true) :
    ∀ k, t.shared A = some r ∧ ¬ (t.own k).1.Polling A ∧
      ∀ source destination results m, (t.own k).2.getAddress source = A →
        InRange (t.own k).1.addressRangeList A → (t.own k).1.solvingResultsCacheEnable = true →
        Calls env t.shared (t.own k) (.operation (.load source destination)) results m →
        results = t.shared ∧ m.2 = (t.own k).2.setValues A ((encode O 8 r.value).take
          (if O = .le ∧ (destination.size = 4 ∨ destination.size = 8) then destination.size
            else 0)) := by
  let Settled (_ : κ) (f : Address → Option SolvingResult) (m : Emulator X O) : Prop :=
    f A = some r ∧ ¬ m.1.Polling A
  have hsettled := (Interleaving.invariant Settled h (fun k => ⟨hentry, hidle k⟩)
    (fun q i e f m hm hJ hcalls => settled_of_calls hJ (fun source destination he hsource =>
      henabled q i source destination (he ▸ hm) hsource) hcalls)
    (fun q i k e f m _ _ hJ hJ' hcalls => ⟨(results_of_calls hJ.2 hcalls).trans hJ.1, hJ'.2⟩)
    fun q i k _ hJ => hJ).1
  refine fun k => ⟨(hsettled k).1, (hsettled k).2, fun source destination results m hsource hin
    henabled hcalls => ?_⟩
  obtain ⟨hook, state, happly, rfl, rfl⟩ := hcalls
  obtain ⟨h₁, solver, harm, -, rfl⟩ := hookOperationStep_cases happly
  have hhit := (cached_of_enabled (f := t.shared) henabled A).trans (hsettled k).1
  rcases onLoad_cases harm with ⟨hout, -, -⟩ | ⟨-, r', n, hr', hn, rfl, rfl⟩ | ⟨-, hmiss, -, -⟩
  · exact absurd (hsource ▸ hin) hout
  · rw [hsource] at hr' ⊢
    cases hhit.symm.trans hr'
    exact ⟨rfl, by rw [← cachedSlice_eq hn]⟩
  · rw [hsource] at hmiss
    cases hhit.symm.trans hmiss

end Runs

/-! ## Two emulators -/

namespace DummyPeripheral

namespace SharedCacheLemmas

open SessionLemmas

/-- An emulator that is about to load from the first address of its range. -/
def polls (a : Address) : Emulator termApi .le :=
  ({ new with addressRangeList := [(a, a + 0xff)], solvingResultsCacheEnable := true },
    pollState.setValue pollRegister a)

def pollLoad : PCodeOp :=
  .load pollRegister (.register "r1" 4 4)

/-- The emulator after the call of its hook. -/
noncomputable def polled (results : Address → Option SolvingResult) (a : Address) :
    Emulator termApi .le :=
  match (EmulatorEvent.operation pollLoad).apply pollEnv
    ((polls a).1.withResults results, (polls a).2) with
  | .ok m => (m.1.withResults fun _ => none, m.2)
  | .error _ => polls a

theorem calls_pollLoad {results : Address → Option SolvingResult} {a : Address}
    (hok : ((EmulatorEvent.operation pollLoad).apply pollEnv
      ((polls a).1.withResults results, (polls a).2)).toBool = true) :
    Calls pollEnv results (polls a) (.operation pollLoad) results (polled results a) ∧
      (polled results a).1.addressRangeList = [(a, a + 0xff)] := by
  unfold polled
  split
  next m heq =>
    refine ⟨⟨m.1, m.2, heq, funext fun A => ?_, rfl⟩, ?_⟩
    · exact (results_of_apply heq fun _ hstarted => by cases hstarted).symm
    · obtain ⟨h₁, solver, harm, -, hm⟩ := hookOperationStep_cases heq
      show m.1.addressRangeList = _
      rw [hm]
      exact (TargetLemmas.onOperation_targets harm).1
  next heq =>
    rw [heq] at hok
    cases hok

/-- The addresses that the first emulator polls, and those that the second does. -/
def start (first : Bool) : Address :=
  if first then 0x100 else 0x200

noncomputable def afterFirst (first : Bool) : Emulator termApi .le :=
  if first then polled (fun _ => none) (start first) else polls (start first)

noncomputable def twoPolls :
    List (Emulators Bool termApi .le × Event Bool (EmulatorEvent .le)) :=
  [(⟨fun _ => none, fun first => polls (start first)⟩, .act true (.operation pollLoad)),
    (⟨fun _ => none, afterFirst⟩, .act false (.operation pollLoad))]

theorem calls_polled (first : Bool) :
    Calls pollEnv (fun _ => none) (polls (start first)) (.operation pollLoad) (fun _ => none)
        (polled (fun _ => none) (start first)) ∧
      (polled (fun _ => none) (start first)).1.addressRangeList =
        [(start first, start first + 0xff)] := by
  cases first with
  | true => exact calls_pollLoad (by decide +kernel)
  | false => exact calls_pollLoad (by decide +kernel)

theorem run_twoPolls : Run (Interleaving.Step (Calls pollEnv))
    ⟨fun _ => none, fun first => polls (start first)⟩ twoPolls
    ⟨fun _ => none, fun first => polled (fun _ => none) (start first)⟩ := by
  refine .cons (t := ⟨fun _ => none, afterFirst⟩) (.act true _ ?_ ?_)
    (.cons (.act false _ ?_ ?_) (.nil _))
  · exact (calls_polled true).1
  · rintro (- | -) hne
    · rfl
    · exact absurd rfl hne
  · exact (calls_polled false).1
  · rintro (- | -) hne
    · exact absurd rfl hne
    · rfl

theorem ranges_twoPolls {q : Emulators Bool termApi .le} {x : Event Bool (EmulatorEvent .le)}
    (hm : (q, x) ∈ twoPolls) (first : Bool) :
    (q.own first).1.addressRangeList = [(start first, start first + 0xff)] := by
  simp only [twoPolls, List.mem_cons, List.not_mem_nil, or_false, Prod.mk.injEq] at hm
  rcases hm with ⟨rfl, -⟩ | ⟨rfl, -⟩
  · rfl
  · cases first with
    | true => exact (calls_polled true).2
    | false => rfl

theorem looksIn_of_range {h : DummyPeripheral termApi} {a : Address} {D : Address → Prop}
    (hranges : h.addressRangeList = [(a, a + 0xff)]) (hD : ∀ x, a ≤ x → x ≤ a + 0xff → D x) :
    h.LooksIn D := by
  rintro - x ⟨r, hr, hx⟩
  rw [hranges] at hr
  cases List.mem_singleton.mp hr
  exact hD x hx.1 hx.2

end SharedCacheLemmas

end DummyPeripheral

open DummyPeripheral SharedCacheLemmas SessionLemmas

/-- Two emulators that poll ranges of their own, each in a step. -/
theorem runs_alone_twoPolls : ∃ tr' results', Run (Solo (Calls pollEnv))
    (fun _ => none, polls 0x100) tr' (results', polled (fun _ => none) 0x100) ∧
    tr'.map Prod.snd = [.operation pollLoad] := by
  have hs : ∀ a : Address, 0x100 ≤ a ∧ a ≤ 0x1ff →
      (none : Option SolvingResult) = (fun _ => none : Address → Option SolvingResult) a :=
    fun _ _ => rfl
  obtain ⟨tr', results', hrun, hview, -⟩ := runs_alone run_twoPolls true
    (fun _ hstarted => by cases hstarted)
    (fun q x hm => looksIn_of_range (ranges_twoPolls hm true) fun _ h₁ h₂ => ⟨h₁, h₂⟩)
    (looksIn_of_range (calls_polled true).2 fun _ h₁ h₂ => ⟨h₁, h₂⟩)
    (fun q x hm k hk => by
      cases k with
      | true => exact absurd rfl hk
      | false =>
        refine looksIn_of_range (ranges_twoPolls hm false) fun y hy _ hin => ?_
        exact absurd (hy.trans hin.2) (by decide))
    (fun q x hm => by
      simp only [twoPolls, List.mem_cons, List.not_mem_nil, or_false, Prod.mk.injEq] at hm
      rcases hm with ⟨-, rfl⟩ | ⟨-, rfl⟩ <;> exact fun hreplaces => hreplaces)
    hs
  exact ⟨tr', results', hrun, hview⟩

namespace DummyPeripheral

namespace SharedCacheLemmas

/-- The result 5 for the location that both emulators poll. -/
def oneEntry : Address → Option SolvingResult :=
  Function.update (fun _ => none) 0x100 (some ⟨0x100, 5, 4⟩)

end SharedCacheLemmas

end DummyPeripheral

/-- Two emulators that poll one location, for which there is an entry: the first loads from
there, and then the second does. -/
theorem settled_of_run_oneEntry :
    oneEntry 0x100 = some ⟨0x100, 5, 4⟩ ∧
      (polled oneEntry 0x100).2 = (polls 0x100).2.setValues 0x100 ((encode .le 8 5).take 4) := by
  have hcalls : Calls pollEnv oneEntry (polls 0x100) (.operation pollLoad) oneEntry
      (polled oneEntry 0x100) := (calls_pollLoad (by decide +kernel)).1
  have hrun : Run (Interleaving.Step (Calls pollEnv)) ⟨oneEntry, fun _ => polls 0x100⟩
      [(⟨oneEntry, fun _ => polls 0x100⟩, .act true (.operation pollLoad))]
      ⟨oneEntry, fun first => if first then polled oneEntry 0x100 else polls 0x100⟩ := by
    refine .cons (.act true _ hcalls ?_) (.nil _)
    rintro (- | -) hne
    · rfl
    · exact absurd rfl hne
  have hsettled := settled_of_run hrun (A := 0x100) (r := ⟨0x100, 5, 4⟩) rfl
    (fun _ hpolling => by cases hpolling.1)
    (fun q i source destination hm _ => by
      cases List.mem_singleton.mp hm
      rfl) false
  exact ⟨hsettled.1, (hsettled.2.2 _ _ _ _ (by decide +kernel) (by decide +kernel) rfl hcalls).2⟩

end FuguexPeripheral
