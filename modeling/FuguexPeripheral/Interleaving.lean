import FuguexPeripheral.Runs

/-!
# Parties that share a value

Many parties, each with a state of its own, share one value. A step is taken by one party:
it acts on the value and on its own state, and the states of the others are left. A party
may also be replaced by a copy of another one, which then shares the same value. The steps
of the parties come in any order.

Results:
1. `Step.own_eq`, `own_of_run`: what is left of the states of the others.
2. `invariant`: the rule of rely and guarantee, for a property of each party and the value.
3. `alone`: a party that sees only a part of the value, which the others leave, runs as if
   it were alone.
-/

namespace Interleaving

open Runs

variable {κ α β ε : Type*}

/-- The shared value and the states of the parties. -/
structure World (κ α β : Type*) where
  shared : α
  own : κ → β

inductive Event (κ ε : Type*)
  /-- A party takes a step. -/
  | act (i : κ) (e : ε)
  /-- The second party becomes a copy of the first. -/
  | clone (i j : κ)

namespace Event

/-- What party `j` itself does in an event. -/
def view [DecidableEq κ] (j : κ) : Event κ ε → Option ε
  | act i e => if i = j then some e else none
  | clone _ _ => none

/-- The event is about the state of `j`. -/
def touches (j : κ) : Event κ ε → Prop
  | act i _ => i = j
  | clone _ k => k = j

/-- The event puts a copy of another party in the place of `j`. -/
def replaces (j : κ) : Event κ ε → Prop
  | act _ _ => False
  | clone _ k => k = j

end Event

/-- The steps of the parties, of which `act` says what one does to the shared value and to its
own state. -/
inductive Step (act : α → β → ε → α → β → Prop) :
    World κ α β → Event κ ε → World κ α β → Prop
  | act {w w' : World κ α β} (i : κ) (e : ε) :
      act w.shared (w.own i) e w'.shared (w'.own i) → (∀ k, k ≠ i → w'.own k = w.own k) →
      Step act w (.act i e) w'
  | clone {w w' : World κ α β} (i j : κ) :
      w'.shared = w.shared → w'.own j = w.own i → (∀ k, k ≠ j → w'.own k = w.own k) →
      Step act w (.clone i j) w'

variable {act : α → β → ε → α → β → Prop} {s t w w' : World κ α β}

theorem Step.own_eq {j : κ} {x : Event κ ε} (h : Step act w x w') (hx : ¬ x.touches j) :
    w'.own j = w.own j := by
  cases h with
  | act i e _ hothers => exact hothers j (Ne.symm hx)
  | clone i k _ _ hothers => exact hothers j (Ne.symm hx)

/-- A run leaves the state of a party that none of its events is about. -/
theorem own_of_run {j : κ} {tr : List (World κ α β × Event κ ε)} (h : Run (Step act) s tr t)
    (hidle : ∀ q x, (q, x) ∈ tr → ¬ x.touches j) : t.own j = s.own j :=
  (h.invariant_mem (fun w => w.own j = s.own j) rfl fun q x _ hm hq hstep =>
    (hstep.own_eq (hidle q x hm)).trans hq).1

/-- Rely and guarantee: a property of the shared value and a party holds of every party
throughout a run, when the party that acts keeps its own and the properties of the others. -/
theorem invariant (J : κ → α → β → Prop) {tr : List (World κ α β × Event κ ε)}
    (h : Run (Step act) s tr t) (hs : ∀ k, J k s.shared (s.own k))
    (guarantee : ∀ q i e a' b', (q, Event.act i e) ∈ tr → J i q.shared (q.own i) →
      act q.shared (q.own i) e a' b' → J i a' b')
    (rely : ∀ q i k e a' b', (q, Event.act i e) ∈ tr → k ≠ i → J i q.shared (q.own i) →
      J k q.shared (q.own k) → act q.shared (q.own i) e a' b' → J k a' (q.own k))
    (hclone : ∀ q i j, (q, Event.clone i j) ∈ tr → J i q.shared (q.own i) →
      J j q.shared (q.own i)) :
    (∀ k, J k t.shared (t.own k)) ∧ ∀ q e, (q, e) ∈ tr → ∀ k, J k q.shared (q.own k) := by
  refine h.invariant_mem (fun w => ∀ k, J k w.shared (w.own k)) hs fun q x r hm hq hstep k => ?_
  cases hstep with
  | act i e hact hothers =>
    by_cases hk : k = i
    -- `k` takes the step itself, or has its state left and sees a new value
    · subst hk
      exact guarantee q k e _ _ hm (hq k) hact
    · rw [hothers k hk]
      exact rely q i k e _ _ hm hk (hq i) (hq k) hact
  | clone i j hshared hcopy hothers =>
    rw [hshared]
    by_cases hk : k = j
    · subst hk
      rw [hcopy]
      exact hclone q i k hm (hq i)
    · rw [hothers k hk]
      exact hq k

section Alone

variable [DecidableEq κ]

/-- The steps of one party on its own. -/
def Solo (act : α → β → ε → α → β → Prop) (p : α × β) (e : ε) (p' : α × β) : Prop :=
  act p.1 p.2 e p'.1 p'.2

/-- A party runs as if it were alone when the others leave what it sees of the shared value.
`R` relates values that it does not tell apart. -/
theorem alone (J : κ → α → β → Prop) (R : α → α → Prop) (j : κ)
    {tr : List (World κ α β × Event κ ε)} (h : Run (Step act) s tr t)
    (hJ : ∀ q e, (q, e) ∈ tr → ∀ k, J k q.shared (q.own k))
    (hself : ∀ a b e a' b' c, J j a b → act a b e a' b' → R a c →
      ∃ c', act c b e c' b' ∧ R a' c')
    (hothers : ∀ i a b e a' b' c, i ≠ j → J i a b → act a b e a' b' → R a c → R a' c)
    (hkeep : ∀ q e, (q, e) ∈ tr → ¬ e.replaces j) {c : α} (hc : R s.shared c) :
    ∃ tr' c', Run (Solo act) (c, s.own j) tr' (c', t.own j) ∧
      tr'.map Prod.snd = tr.filterMap (fun x => x.2.view j) ∧ R t.shared c' := by
  induction h generalizing c with
  | nil s => exact ⟨[], c, .nil _, rfl, hc⟩
  | @cons s r t x tr hstep _ ih =>
    have hJs := hJ s x List.mem_cons_self
    have hkeepx := hkeep s x List.mem_cons_self
    have ih := fun {c : α} => ih (c := c) (fun q e hm => hJ q e (.tail _ hm))
      (fun q e hm => hkeep q e (.tail _ hm))
    cases hstep with
    | act i e hact hrest =>
      by_cases hi : i = j
      -- a step of `j` is replayed on `c`, and a step of another party is left out
      · subst hi
        obtain ⟨c₁, hact', hc₁⟩ := hself _ _ e _ _ c (hJs i) hact hc
        obtain ⟨tr', c', hrun, hevents, hc'⟩ := ih hc₁
        have hsolo : Solo act (c, s.own i) e (c₁, r.own i) := hact'
        refine ⟨((c, s.own i), e) :: tr', c', .cons hsolo hrun, ?_, hc'⟩
        simp [Event.view, hevents]
      · have hc₁ := hothers i _ _ e _ _ c hi (hJs i) hact hc
        obtain ⟨tr', c', hrun, hevents, hc'⟩ := ih hc₁
        rw [hrest j (Ne.symm hi)] at hrun
        refine ⟨tr', c', hrun, ?_, hc'⟩
        simp [Event.view, hi, hevents]
    | clone i k hshared hcopy hrest =>
      rw [← hshared] at hc
      obtain ⟨tr', c', hrun, hevents, hc'⟩ := ih hc
      rw [hrest j (Ne.symm hkeepx)] at hrun
      refine ⟨tr', c', hrun, ?_, hc'⟩
      simp [Event.view, hevents]

end Alone

end Interleaving
