import Mathlib.Algebra.BigOperators.Group.List.Basic
import Mathlib.Data.List.Induction

/-!
# Runs of a transition system

A component is driven by events, one after another. `Run step s tr t` is such a
run: it starts in `s`, ends in `t`, and its trace `tr` pairs every event with
the state in which it was taken. Statements about "the step taken while ..."
are then statements about the pairs of a trace.

Results:
1. `Run.split`, `Run.append`, `Run.at`: a trace is cut at any point.
2. `Run.history`: an invariant that links the state to the whole past is kept by
   every run when every single step keeps it.
3. `Run.invariant`, `Run.invariant_mem`: the special case of a plain state invariant, and
   of one that only the steps of the trace keep.
4. `Run.next_of_mem`, `Run.exists_fall`, `Run.filter`: the state after a step of the trace,
   the step at which a property ends, and steps that can be left out.
5. `Run.unique`: the runs of determined steps.
6. `Run.project`: a part of the state that has its own inputs runs on its own.
7. `Run.queue`, `Run.conserved`: what a first-in first-out queue holds, and what was taken
   from it.
8. `Run.balance`: the same for a measure.
9. `run_trace`, `trace_append`, `run_tracePartial`, `exists_run_iff`: the traces of a
   deterministic step function are runs, for a partial one as far as it gets.
10. `outputs_congr`: bisimilar states put out the same.
-/

namespace Runs

variable {σ ε : Type*} {step : σ → ε → σ → Prop}

/-- `Run step s tr t`: the events of `tr`, taken in order, lead from `s` to `t`,
and each is paired with the state it was taken in. -/
inductive Run (step : σ → ε → σ → Prop) : σ → List (σ × ε) → σ → Prop
  | nil (s : σ) : Run step s [] s
  | cons {s t u : σ} {e : ε} {tr : List (σ × ε)} :
      step s e t → Run step t tr u → Run step s ((s, e) :: tr) u

theorem Run.split {s u : σ} {tr₁ tr₂ : List (σ × ε)} (h : Run step s (tr₁ ++ tr₂) u) :
    ∃ t, Run step s tr₁ t ∧ Run step t tr₂ u := by
  induction tr₁ generalizing s with
  | nil => exact ⟨s, .nil s, h⟩
  | cons x tr₁ ih =>
    cases h with
    | cons hs hr =>
      obtain ⟨t, h₁, h₂⟩ := ih hr
      exact ⟨t, .cons hs h₁, h₂⟩

theorem Run.append {s t u : σ} {tr₁ tr₂ : List (σ × ε)} (h₁ : Run step s tr₁ t)
    (h₂ : Run step t tr₂ u) : Run step s (tr₁ ++ tr₂) u := by
  induction h₁ with
  | nil _ => exact h₂
  | cons hstep _ ih => exact .cons hstep (ih h₂)

/-- The step recorded at any position of a trace really was taken, from the
state that the trace before it leads to. -/
theorem Run.at {s q u : σ} {e : ε} {tr₁ tr₂ : List (σ × ε)}
    (h : Run step s (tr₁ ++ (q, e) :: tr₂) u) :
    Run step s tr₁ q ∧ ∃ t, step q e t ∧ Run step t tr₂ u := by
  obtain ⟨t, h₁, h₂⟩ := h.split
  cases h₂ with
  | cons hs hr => exact ⟨h₁, _, hs, hr⟩

/-- An invariant `J` of the past and the state holds at the end of every run when
it holds initially and every step keeps it. -/
theorem Run.history {init s : σ} {tr : List (σ × ε)} (J : List (σ × ε) → σ → Prop)
    (base : J [] init)
    (pres : ∀ past q e t, Run step init past q → J past q → step q e t → J (past ++ [(q, e)]) t)
    (h : Run step init tr s) : J tr s := by
  induction tr using List.reverseRecOn generalizing s with
  | nil => cases h with | nil => exact base
  | append_singleton past x ih =>
    obtain ⟨q, e⟩ := x
    obtain ⟨hpast, t, hs, hr⟩ := h.at
    cases hr with
    | nil => exact pres past q e _ hpast (ih hpast) hs

theorem Run.invariant {s t : σ} {tr : List (σ × ε)} (I : σ → Prop)
    (pres : ∀ q e r, I q → step q e r → I r) (h : Run step s tr t) (hs : I s) : I t := by
  induction h with
  | nil _ => exact hs
  | cons hstep _ ih => exact ih (pres _ _ _ hs hstep)

/-- Every step of a trace was taken, after a run and before one. -/
theorem Run.mem {s u q : σ} {e : ε} {tr : List (σ × ε)} (h : Run step s tr u) (hm : (q, e) ∈ tr) :
    ∃ tr₁ tr₂ t, tr = tr₁ ++ (q, e) :: tr₂ ∧ Run step s tr₁ q ∧ step q e t ∧ Run step t tr₂ u := by
  obtain ⟨tr₁, tr₂, rfl⟩ := List.append_of_mem hm
  obtain ⟨h₁, t, hs, h₂⟩ := h.at
  exact ⟨tr₁, tr₂, t, rfl, h₁, hs, h₂⟩

/-- An invariant that the steps of the trace keep holds in every state of the run. -/
theorem Run.invariant_mem {s t : σ} {tr : List (σ × ε)} (I : σ → Prop) (h : Run step s tr t)
    (hs : I s) (pres : ∀ q e r, (q, e) ∈ tr → I q → step q e r → I r) :
    I t ∧ ∀ q e, (q, e) ∈ tr → I q := by
  induction h with
  | nil s => exact ⟨hs, fun _ _ hm => absurd hm List.not_mem_nil⟩
  | @cons s t u e tr hstep _ ih =>
    have ht := pres s e t List.mem_cons_self hs hstep
    obtain ⟨hu, hrest⟩ := ih ht fun q e r hm => pres q e r (List.mem_cons_of_mem _ hm)
    refine ⟨hu, fun q e' hm => ?_⟩
    cases hm with
    | head => exact hs
    | tail _ hm => exact hrest q e' hm

/-- What holds in every state of a run holds after each of its steps. -/
theorem Run.next_of_mem {s u q : σ} {e : ε} {tr : List (σ × ε)} {I : σ → Prop}
    (h : Run step s tr u) (hall : ∀ q e, (q, e) ∈ tr → I q) (hend : I u) (hm : (q, e) ∈ tr) :
    ∃ r, step q e r ∧ I r := by
  obtain ⟨tr₁, tr₂, r, rfl, -, hstep, hrest⟩ := h.mem hm
  refine ⟨r, hstep, ?_⟩
  cases hrest with
  | nil => exact hend
  | cons => exact hall r _ (List.mem_append_right _ (.tail _ (.head _)))

/-- Where a property holds at the start and fails at the end, one step ends it. -/
theorem Run.exists_fall {s t : σ} {tr : List (σ × ε)} (P : σ → Prop) (h : Run step s tr t)
    (hs : P s) (ht : ¬ P t) : ∃ q e r, (q, e) ∈ tr ∧ step q e r ∧ P q ∧ ¬ P r := by
  by_contra hnone
  refine ht (h.invariant_mem P hs fun q e r hm hq hstep => ?_).1
  by_contra hr
  exact hnone ⟨q, e, r, hm, hstep, hq, hr⟩

/-- A run of one relation is a run of another that allows its steps. -/
theorem Run.imp_mem {step' : σ → ε → σ → Prop} {s t : σ} {tr : List (σ × ε)} (h : Run step s tr t)
    (himp : ∀ q e r, (q, e) ∈ tr → step q e r → step' q e r) : Run step' s tr t := by
  induction h with
  | nil s => exact .nil s
  | @cons s t u e tr hstep _ ih =>
    refine .cons (himp s e t List.mem_cons_self hstep) (ih fun q e r hm => ?_)
    exact himp q e r (List.mem_cons_of_mem _ hm)

/-- Steps that leave the state can be left out of a run. -/
theorem Run.filter {s t : σ} {tr : List (σ × ε)} (keep : σ → ε → Bool) (h : Run step s tr t)
    (hskip : ∀ q e r, keep q e = false → step q e r → r = q) :
    Run step s (tr.filter fun x => keep x.1 x.2) t := by
  induction h with
  | nil s => exact .nil s
  | @cons s r t e tr hstep _ ih =>
    rw [List.filter_cons]
    split
    next => exact .cons hstep ih
    next hkeep => exact hskip s e r (Bool.eq_false_iff.mpr hkeep) hstep ▸ ih

/-- Where the steps of a run are determined, so is every run on the same events. -/
theorem Run.unique {s t t' : σ} {tr tr' : List (σ × ε)} (h : Run step s tr t)
    (hdet : ∀ q e, (q, e) ∈ tr → ∀ r r', step q e r → step q e r' → r' = r)
    (h' : Run step s tr' t') (hevents : tr'.map Prod.snd = tr.map Prod.snd) :
    tr' = tr ∧ t' = t := by
  induction h generalizing tr' with
  | nil s =>
    cases h' with
    | nil => exact ⟨rfl, rfl⟩
    | cons => cases hevents
  | @cons s r t e tr hstep _ ih =>
    cases h' with
    | nil => cases hevents
    | cons hstep' hrest' =>
      obtain ⟨rfl, hrest⟩ := List.cons.inj hevents
      have hsame := hdet s _ List.mem_cons_self _ _ hstep hstep'
      subst hsame
      obtain ⟨rfl, rfl⟩ := ih (fun q e hm => hdet q e (List.mem_cons_of_mem _ hm)) hrest' hrest
      exact ⟨rfl, rfl⟩

/-! ## Projections -/

/-- Where a part of the state moves only with the inputs that an event has for it, the
part ends as those inputs, taken in order, leave it. -/
theorem Run.project {α ι : Type*} (obs : σ → α) (view : ε → Option ι) (act : α → ι → α)
    (I : σ → Prop) {s t : σ} {tr : List (σ × ε)} (h : Run step s tr t) (hs : I s)
    (pres : ∀ q e r, I q → step q e r → I r)
    (hobs : ∀ q e r, I q → step q e r → obs r = (view e).elim (obs q) (act (obs q))) :
    obs t = (tr.filterMap fun x => view x.2).foldl act (obs s) := by
  induction h with
  | nil s => rfl
  | @cons s t u e tr hstep _ ih =>
    rw [ih (pres s e t hs hstep), hobs s e t hs hstep, List.filterMap_cons]
    cases view e <;> rfl

/-! ## Queues -/

/-- Where every step puts at most one item at the end of a queue or takes the first one
away, the queue holds the items that were put in, less as many as were taken. -/
theorem Run.queue {α : Type*} (items : σ → List α) (put : ε → Option α) (take : ε → Bool)
    (I : σ → Prop) {s t : σ} {tr : List (σ × ε)} (h : Run step s tr t) (hs : I s)
    (pres : ∀ q e r, I q → step q e r → I r)
    (hput : ∀ q e r, I q → step q e r → take e = false → items r = items q ++ (put e).toList)
    (htake : ∀ q e r, I q → step q e r → take e = true →
      put e = none ∧ ∃ a, items q = a :: items r) :
    items t = (items s ++ tr.filterMap fun x => put x.2).drop (tr.countP fun x => take x.2) := by
  refine (h.history (fun past q =>
    (past.countP fun x => take x.2) ≤ (items s ++ past.filterMap fun x => put x.2).length ∧
      items q = (items s ++ past.filterMap fun x => put x.2).drop
        (past.countP fun x => take x.2)) ?_ ?_).2
  · simp
  · intro past q e r hpast ⟨hle, hq⟩ hstep
    have hI : I q := hpast.invariant I pres hs
    rw [List.countP_append, List.filterMap_append, ← List.append_assoc]
    cases hb : take e with
    | false =>
      have hr := hput q e r hI hstep hb
      rw [hq, ← List.drop_append_of_le_length hle] at hr
      refine ⟨?_, by cases hp : put e <;> simp [hb, hp, hr]⟩
      simp [hb] at hle ⊢
      omega
    | true =>
      obtain ⟨hp, a, ha⟩ := htake q e r hI hstep hb
      rw [hq] at ha
      have hlt := congrArg List.length ha
      simp at hlt
      have hr := congrArg List.tail ha
      rw [List.tail_drop, List.tail_cons] at hr
      refine ⟨?_, by simp [hb, hp, hr]⟩
      simp [hb, hp]
      omega

/-- Where every step that a run to `t` takes moves items off the front of a queue and puts
items at its end, what was taken and what is left are, in order, what was there and what was
put in. -/
theorem Run.conserved {α : Type*} (items : σ → List α) (take put : σ → ε → List α) {s t : σ}
    {tr : List (σ × ε)} (h : Run step s tr t)
    (hstep : ∀ q e r tr', (q, e) ∈ tr → step q e r → Run step r tr' t →
      take q e ++ items r = items q ++ put q e) :
    (tr.flatMap fun x => take x.1 x.2) ++ items t =
      items s ++ tr.flatMap fun x => put x.1 x.2 := by
  induction h with
  | nil s => simp
  | @cons s r t e tr hs hrun ih =>
    have hrest := ih fun q e r tr' hm => hstep q e r tr' (List.mem_cons_of_mem _ hm)
    have hfirst := hstep s e r tr List.mem_cons_self hs hrun
    rw [List.flatMap_cons, List.flatMap_cons, List.append_assoc, hrest, ← List.append_assoc,
      hfirst, List.append_assoc]

/-! ## Balances -/

/-- Where every step spends and gains as much as the measure changes, so does a run. -/
theorem Run.balance {M : Type*} [AddCommMonoid M] (measure : σ → M) (spent gained : σ × ε → M)
    {s t : σ} {tr : List (σ × ε)} (h : Run step s tr t)
    (hstep : ∀ q e r, (q, e) ∈ tr → step q e r →
      spent (q, e) + measure r = measure q + gained (q, e)) :
    (tr.map spent).sum + measure t = measure s + (tr.map gained).sum := by
  induction h with
  | nil s => simp
  | @cons s r t e tr hs _ ih =>
    have hrest := ih fun q e r hm => hstep q e r (List.mem_cons_of_mem _ hm)
    have hfirst := hstep s e r List.mem_cons_self hs
    rw [List.map_cons, List.sum_cons, List.map_cons, List.sum_cons, add_assoc, hrest,
      ← add_assoc, hfirst, add_assoc]

/-! ## Total, deterministic steps -/

/-- The trace of a step function on a list of events. -/
def trace (f : σ → ε → σ) : σ → List ε → List (σ × ε)
  | _, [] => []
  | s, e :: es => (s, e) :: trace f (f s e) es

theorem run_trace (f : σ → ε → σ) (s : σ) (es : List ε) :
    Run (fun s e t => t = f s e) s (trace f s es) (es.foldl f s) := by
  induction es generalizing s with
  | nil => exact .nil s
  | cons e es ih => exact .cons rfl (ih (f s e))

theorem trace_append (f : σ → ε → σ) (s : σ) (es₁ es₂ : List ε) :
    trace f s (es₁ ++ es₂) = trace f s es₁ ++ trace f (es₁.foldl f s) es₂ := by
  induction es₁ generalizing s with
  | nil => rfl
  | cons e es₁ ih => exact congrArg ((s, e) :: ·) (ih (f s e))

/-! ## Partial, deterministic steps -/

/-- The trace and the end of a partial step function on a list of events, as far as it
gets without an error. -/
def tracePartial {β : Type*} (f : σ → ε → Except β σ) : σ → List ε → List (σ × ε) × σ
  | s, [] => ([], s)
  | s, e :: es =>
    match f s e with
    | .ok t => ((s, e) :: (tracePartial f t es).1, (tracePartial f t es).2)
    | .error _ => ([], s)

theorem run_tracePartial {β : Type*} (f : σ → ε → Except β σ) (s : σ) (es : List ε) :
    Run (fun s e t => f s e = .ok t) s (tracePartial f s es).1 (tracePartial f s es).2 := by
  induction es generalizing s with
  | nil => exact .nil s
  | cons e es ih =>
    rw [tracePartial]
    split
    next t ht => exact .cons ht (ih t)
    next => exact .nil s

/-- A trace that gets to the end has all the events. -/
theorem map_snd_tracePartial {β : Type*} {f : σ → ε → Except β σ} {s : σ} {es : List ε}
    (h : (tracePartial f s es).1.length = es.length) :
    (tracePartial f s es).1.map Prod.snd = es := by
  induction es generalizing s with
  | nil => rfl
  | cons e es ih =>
    rw [tracePartial] at h ⊢
    split
    next t ht =>
      rw [ht] at h
      exact congrArg (e :: ·) (ih (Nat.succ.inj h))
    next p hp =>
      rw [hp] at h
      cases h

theorem mem_of_mem_tracePartial {β : Type*} {f : σ → ε → Except β σ} {s q : σ} {e : ε}
    {es : List ε} (h : (q, e) ∈ (tracePartial f s es).1) : e ∈ es := by
  induction es generalizing s with
  | nil => cases h
  | cons e' es ih =>
    rw [tracePartial] at h
    split at h
    next t ht =>
      cases h with
      | head => exact List.mem_cons_self
      | tail _ h => exact List.mem_cons_of_mem _ (ih h)
    next => cases h

/-- The runs of a partial step function are its loops that raise no error. -/
theorem exists_run_iff {β : Type*} {f : σ → ε → Except β σ} {s t : σ} {es : List ε} :
    (∃ tr, tr.map Prod.snd = es ∧ Run (fun s e t => f s e = .ok t) s tr t) ↔
      es.foldlM f s = .ok t := by
  constructor
  · rintro ⟨tr, rfl, hrun⟩
    induction hrun with
    | nil s => rfl
    | cons hstep _ ih =>
      rw [List.map_cons, List.foldlM_cons, hstep]
      exact ih
  · intro hloop
    induction es generalizing s with
    | nil =>
      cases hloop
      exact ⟨[], rfl, .nil _⟩
    | cons e es ih =>
      rw [List.foldlM_cons] at hloop
      cases hstep : f s e with
      | error p =>
        rw [hstep] at hloop
        cases hloop
      | ok s' =>
        rw [hstep] at hloop
        obtain ⟨tr, rfl, hrun⟩ := ih hloop
        exact ⟨(s, e) :: tr, rfl, .cons hstep hrun⟩

/-! ## Outputs -/

section Outputs

variable {ω : Type*}

/-- What a machine puts out for a list of inputs. It may stop early. -/
def outputs (f : σ → ε → ω × Option σ) : σ → List ε → List ω
  | _, [] => []
  | s, e :: es =>
    match f s e with
    | (o, none) => [o]
    | (o, some t) => o :: outputs f t es

/-- `R` is a bisimulation: related states put out the same and go to related states. -/
def Bisimulation (f : σ → ε → ω × Option σ) (R : σ → σ → Prop) : Prop :=
  ∀ s t e, R s t → (f s e).1 = (f t e).1 ∧ Option.Rel R (f s e).2 (f t e).2

theorem outputs_congr {f : σ → ε → ω × Option σ} {R : σ → σ → Prop} (hR : Bisimulation f R)
    {s t : σ} (h : R s t) (es : List ε) : outputs f s es = outputs f t es := by
  induction es generalizing s t with
  | nil => rfl
  | cons e es ih =>
    obtain ⟨hout, hnext⟩ := hR s t e h
    unfold outputs
    cases hs : f s e with
    | mk o s' =>
      cases ht : f t e with
      | mk o' t' =>
        rw [hs, ht] at hout hnext
        cases hout
        cases hnext with
        | none => rfl
        | some hst => exact congrArg (o :: ·) (ih hst)

theorem outputs_cons {f : σ → ε → ω × Option σ} {s t : σ} {e : ε} {o : ω} (es : List ε)
    (h : f s e = (o, some t)) : outputs f s (e :: es) = o :: outputs f t es := by
  rw [outputs, h]

theorem outputs_head {f : σ → ε → ω × Option σ} (s : σ) (e : ε) (es : List ε) :
    (outputs f s (e :: es)).head? = some (f s e).1 := by
  unfold outputs
  split
  next heq => rw [heq]; rfl
  next heq => rw [heq]; rfl

end Outputs

end Runs
