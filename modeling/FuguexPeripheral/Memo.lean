import Mathlib.Logic.Function.Basic
import Mathlib.Data.List.Basic

/-!
# Memo tables

A memo table answers a query from an earlier answer to the same key. A query here is a
key and the answer that it would get afresh, if any.

Results:
1. `foldl_record`: the table holds the first answer to each key.
2. `first_eq_some`: where that answer comes from.
-/

namespace Memo

variable {κ ν : Type*} [DecidableEq κ]

/-- Record the answer to a query, unless its key has one. -/
def record (t : κ → Option ν) (q : κ × Option ν) : κ → Option ν :=
  match t q.1 with
  | some _ => t
  | none => Function.update t q.1 q.2

/-- The first answer to a key. -/
def first (queries : List (κ × Option ν)) (k : κ) : Option ν :=
  queries.findSome? fun q => if q.1 = k then q.2 else none

variable {t : κ → Option ν} {q : κ × Option ν} {queries : List (κ × Option ν)} {k : κ} {a : ν}

theorem record_of_some (h : t q.1 = some a) : record t q = t := by
  unfold record
  rw [h]

theorem record_of_none (h : t q.1 = none) : record t q = Function.update t q.1 q.2 := by
  unfold record
  rw [h]

theorem record_apply (t : κ → Option ν) (q : κ × Option ν) (k : κ) :
    record t q k = (t k).or (if q.1 = k then q.2 else none) := by
  cases h : t q.1 with
  | some a =>
    rw [record_of_some h]
    split
    next hk => rw [← hk, h, Option.some_or]
    next => rw [Option.or_none]
  | none =>
    rw [record_of_none h]
    split
    next hk => rw [← hk, Function.update_self, h, Option.none_or]
    next hk => rw [Function.update_of_ne (Ne.symm hk), Option.or_none]

theorem first_cons (q : κ × Option ν) (queries : List (κ × Option ν)) (k : κ) :
    first (q :: queries) k = (if q.1 = k then q.2 else none).or (first queries k) := by
  rw [first, List.findSome?_cons]
  cases (if q.1 = k then q.2 else none) with
  | none => exact (Option.none_or).symm
  | some a => exact (Option.some_or).symm

theorem foldl_record (t : κ → Option ν) (queries : List (κ × Option ν)) (k : κ) :
    queries.foldl record t k = (t k).or (first queries k) := by
  induction queries generalizing t with
  | nil => exact Option.or_none.symm
  | cons q queries ih =>
    rw [List.foldl_cons, ih, record_apply, Option.or_assoc, first_cons]

/-- The first answer is the answer to a query that no answered query to the key precedes. -/
theorem first_eq_some (h : first queries k = some a) :
    ∃ before after, queries = before ++ (k, some a) :: after ∧ first before k = none := by
  induction queries with
  | nil => cases h
  | cons q queries ih =>
    rw [first_cons] at h
    cases hq : (if q.1 = k then q.2 else none) with
    | none =>
      rw [hq, Option.none_or] at h
      obtain ⟨before, after, rfl, hbefore⟩ := ih h
      refine ⟨q :: before, after, rfl, ?_⟩
      rw [first_cons, hq, Option.none_or]
      exact hbefore
    | some a' =>
      rw [hq, Option.some_or] at h
      cases h
      split at hq
      next hk =>
        refine ⟨[], queries, ?_, rfl⟩
        rw [← hk, ← hq]
        rfl
      next => cases hq

end Memo
