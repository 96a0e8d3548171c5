import Mathlib.Data.List.Dedup
import Mathlib.Data.List.Nodup

/-!
# Updates that commute

A loop whose rounds commute, and where a round that is repeated does nothing more, comes to
what the set of its rounds determines.

Results:
1. `foldl_absorb`: a round that comes again can be left out.
2. `foldl_congr_of_mem_iff`: loops over the same set of rounds come to the same.
-/

namespace Commuting

variable {α β : Type*} {f : β → α → β} {l l' : List α}

/-- A round that comes again can be left out. -/
theorem foldl_absorb (comm : ∀ x ∈ l, ∀ y ∈ l, ∀ b, f (f b x) y = f (f b y) x)
    (idem : ∀ x ∈ l, ∀ b, f (f b x) x = f b x) {x : α} (hx : x ∈ l) (b : β) :
    l.foldl f (f b x) = l.foldl f b := by
  induction l generalizing b with
  | nil => cases hx
  | cons y l ih =>
    rw [List.foldl_cons, List.foldl_cons]
    cases hx with
    | head => rw [idem x List.mem_cons_self]
    | tail _ hx =>
      rw [comm x (List.mem_cons_of_mem y hx) y List.mem_cons_self]
      exact ih (fun x hx y hy => comm x (List.mem_cons_of_mem _ hx) y (List.mem_cons_of_mem _ hy))
        (fun x hx => idem x (List.mem_cons_of_mem _ hx)) hx (f b y)

theorem foldl_dedup [DecidableEq α] (comm : ∀ x ∈ l, ∀ y ∈ l, ∀ b, f (f b x) y = f (f b y) x)
    (idem : ∀ x ∈ l, ∀ b, f (f b x) x = f b x) (b : β) : l.dedup.foldl f b = l.foldl f b := by
  induction l generalizing b with
  | nil => rfl
  | cons x l ih =>
    have commTail : ∀ x ∈ l, ∀ y ∈ l, ∀ b, f (f b x) y = f (f b y) x := fun x hx y hy =>
      comm x (List.mem_cons_of_mem _ hx) y (List.mem_cons_of_mem _ hy)
    have idemTail : ∀ x ∈ l, ∀ b, f (f b x) x = f b x := fun x hx =>
      idem x (List.mem_cons_of_mem _ hx)
    rw [List.foldl_cons]
    by_cases hx : x ∈ l
    · rw [List.dedup_cons_of_mem hx, ih commTail idemTail, foldl_absorb commTail idemTail hx]
    · rw [List.dedup_cons_of_notMem hx, List.foldl_cons, ih commTail idemTail]

/-- Loops over the same set of rounds come to the same. -/
theorem foldl_congr_of_mem_iff (comm : ∀ x ∈ l, ∀ y ∈ l, ∀ b, f (f b x) y = f (f b y) x)
    (idem : ∀ x ∈ l, ∀ b, f (f b x) x = f b x) (h : ∀ x, x ∈ l ↔ x ∈ l') (b : β) :
    l.foldl f b = l'.foldl f b := by
  classical
  have commRight : ∀ x ∈ l', ∀ y ∈ l', ∀ b, f (f b x) y = f (f b y) x := fun x hx y hy =>
    comm x ((h x).mpr hx) y ((h y).mpr hy)
  have idemRight : ∀ x ∈ l', ∀ b, f (f b x) x = f b x := fun x hx => idem x ((h x).mpr hx)
  have hperm : l.dedup.Perm l'.dedup :=
    (List.perm_ext_iff_of_nodup l.nodup_dedup l'.nodup_dedup).mpr fun x => by
      rw [List.mem_dedup, List.mem_dedup, h]
  rw [← foldl_dedup comm idem, ← foldl_dedup commRight idemRight]
  exact hperm.foldl_eq' (fun x hx y hy =>
    comm x (List.mem_dedup.mp hx) y (List.mem_dedup.mp hy)) b

end Commuting
