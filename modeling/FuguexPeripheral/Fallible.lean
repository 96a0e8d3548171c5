import Mathlib.Data.List.Basic

/-!
# Computations that may fail

Rules for `Except`, where an error stands for whatever ends a computation early.

Results:
1. `exists_of_bind_eq_ok`, `bind_isOk_iff`, `error_of_bind_eq_error`: a computation part by
   part.
2. `foldlM_ne_error`: a loop fails only as one of its rounds does.
3. `foldlM_eq_ok`, `foldlM_isOk_iff`: loops whose rounds fail on their own account.
4. `Tracks.bind`, `Tracks.foldlM`: an abstraction that fails exactly when the computation does.
-/

namespace Fallible

variable {ε α β : Type*}

/-- From a computation that succeeds, its first part does. -/
theorem exists_of_bind_eq_ok {x : Except ε α} {f : α → Except ε β} {b : β}
    (hb : x.bind f = .ok b) : ∃ a, x = .ok a ∧ f a = .ok b := by
  cases x with
  | error e => cases hb
  | ok a => exact ⟨a, rfl, hb⟩

/-- A computation that fails does so in its first part or in the rest. -/
theorem error_of_bind_eq_error {x : Except ε α} {f : α → Except ε β} {e : ε}
    (hb : x.bind f = .error e) : x = .error e ∨ ∃ a, x = .ok a ∧ f a = .error e := by
  cases x with
  | error e' =>
    cases hb
    exact .inl rfl
  | ok a => exact .inr ⟨a, rfl, hb⟩

/-- A computation succeeds when its first part does and the rest does from there. -/
theorem bind_isOk_iff {x : Except ε α} {f : α → Except ε β} :
    (∃ b, x.bind f = .ok b) ↔ ∃ a, x = .ok a ∧ ∃ b, f a = .ok b := by
  constructor
  · rintro ⟨b, hb⟩
    obtain ⟨a, ha, hf⟩ := exists_of_bind_eq_ok hb
    exact ⟨a, ha, b, hf⟩
  · rintro ⟨a, rfl, hf⟩
    exact hf

theorem exists_of_map_eq_ok {x : Except ε α} {f : α → β} {b : β} (h : x.map f = .ok b) :
    ∃ a, x = .ok a ∧ f a = b := by
  cases x with
  | error e => cases h
  | ok a => exact ⟨a, rfl, Except.ok.inj h⟩

theorem map_isOk_iff {x : Except ε α} {f : α → β} :
    (∃ b, x.map f = .ok b) ↔ ∃ a, x = .ok a := by
  cases x <;> simp [Except.map]

section Loops

variable {f : β → α → Except ε β} {l : List α} {b c : β}

theorem foldlM_pair {x y : α} {d : β} (hx : f b x = .ok c) (hy : f c y = .ok d) :
    [x, y].foldlM f b = .ok d := by
  rw [List.foldlM_cons, hx]
  change [y].foldlM f c = _
  rw [List.foldlM_cons, hy]
  rfl

/-- An error that no round raises is not raised by the loop. -/
theorem foldlM_ne_error {e : ε} (b : β) (herror : ∀ b, ∀ x ∈ l, f b x ≠ .error e) :
    l.foldlM f b ≠ .error e := by
  induction l generalizing b with
  | nil =>
    intro h
    cases h
  | cons x l ih =>
    rw [List.foldlM_cons]
    intro h
    rcases error_of_bind_eq_error h with hx | ⟨b', -, hl⟩
    · exact herror b x List.mem_cons_self hx
    · exact ih b' (fun b y hy => herror b y (List.mem_cons_of_mem x hy)) hl

/-- A loop whose rounds succeed whatever came before is a plain loop. -/
theorem foldlM_eq_ok {act : β → α → β} (b : β) (hok : ∀ x ∈ l, ∀ b, f b x = .ok (act b x)) :
    l.foldlM f b = .ok (l.foldl act b) := by
  induction l generalizing b with
  | nil => rfl
  | cons x l ih =>
    rw [List.foldlM_cons, hok x List.mem_cons_self, List.foldl_cons]
    exact ih (act b x) fun y hy => hok y (List.mem_cons_of_mem x hy)

/-- A loop succeeds when its rounds do, where a round succeeds or fails whatever came
before. -/
theorem foldlM_isOk_iff {P : α → Prop} (b : β) (hround : ∀ x b, (∃ c, f b x = .ok c) ↔ P x) :
    (∃ c, l.foldlM f b = .ok c) ↔ ∀ x ∈ l, P x := by
  induction l generalizing b with
  | nil => exact ⟨fun _ _ hx => absurd hx List.not_mem_nil, fun _ => ⟨b, rfl⟩⟩
  | cons x l ih =>
    rw [List.foldlM_cons, List.forall_mem_cons]
    refine bind_isOk_iff.trans ?_
    constructor
    · rintro ⟨b', hx, hl⟩
      exact ⟨(hround x b).mp ⟨b', hx⟩, (ih b').mp hl⟩
    · rintro ⟨hx, hl⟩
      obtain ⟨b', hb'⟩ := (hround x b).mpr hx
      exact ⟨b', hb', (ih b').mpr hl⟩

theorem not_exists_ok_iff {x : Except ε α} : (¬ ∃ a, x = .ok a) ↔ ∃ e, x = .error e := by
  cases x <;> simp

end Loops

/-! ## Abstraction -/

/-- The second computation fails when the first does, and otherwise the results are related. -/
inductive Tracks (R : α → β → Prop) : Except ε α → Option β → Prop
  | ok {a : α} {b : β} : R a b → Tracks R (.ok a) (some b)
  | error (e : ε) : Tracks R (.error e) none

section Abstraction

variable {γ δ : Type*} {R : α → β → Prop} {S : γ → δ → Prop} {x : Except ε α} {y : Option β}

theorem Tracks.isOk_iff (h : Tracks R x y) : (∃ a, x = .ok a) ↔ y.isSome = true := by
  cases h <;> simp

theorem Tracks.bind {f : α → Except ε γ} {g : β → Option δ} (h : Tracks R x y)
    (hrest : ∀ a b, R a b → Tracks S (f a) (g b)) : Tracks S (x.bind f) (y.bind g) := by
  cases h with
  | ok hab => exact hrest _ _ hab
  | error e => exact .error e

theorem Tracks.map {f : α → γ} (h : Tracks R x y) {S : γ → β → Prop}
    (hf : ∀ a b, R a b → S (f a) b) : Tracks S (x.map f) y := by
  cases h with
  | ok hab => exact .ok (hf _ _ hab)
  | error e => exact .error e

/-- A loop is tracked by one whose rounds track its own. -/
theorem Tracks.foldlM {ι κ : Type*} {f : α → ι → Except ε α} {g : β → κ → Option β} {view : ι → κ}
    {l : List ι} (hround : ∀ i ∈ l, ∀ a b, R a b → Tracks R (f a i) (g b (view i))) {a : α} {b : β}
    (hab : R a b) : Tracks R (l.foldlM f a) ((l.map view).foldlM g b) := by
  induction l generalizing a b with
  | nil => exact .ok hab
  | cons i l ih =>
    rw [List.foldlM_cons, List.map_cons, List.foldlM_cons]
    exact (hround i List.mem_cons_self a b hab).bind fun _ _ hab =>
      ih (fun j hj => hround j (List.mem_cons_of_mem i hj)) hab

end Abstraction

end Fallible
