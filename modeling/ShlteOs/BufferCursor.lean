import Mathlib.Data.List.Basic

/-!
A buffer that is filled through a moving cursor.  Every store is logged with
the index it goes to, so that stores outside of the buffer can be told apart
from those inside; the log has the newest store first.
-/

namespace ShlteOs.BufferCursor

variable {α : Type*}

/-- The stores into a buffer, the newest first. -/
abbrev Log (α : Type*) := List (Nat × α)

/-- The byte last stored at an index. -/
def content (log : Log α) (k : Nat) : Option α := log.lookup k

/-- Every store lies in a buffer of this size. -/
def Inside (size : Nat) (log : Log α) : Prop := ∀ w ∈ log, w.1 < size

theorem Inside.mono {size size' : Nat} {log : Log α} (h : Inside size log)
    (hle : size ≤ size') : Inside size' log :=
  fun w hw => Nat.lt_of_lt_of_le (h w hw) hle

theorem inside_cons {size k : Nat} {a : α} {log : Log α} :
    Inside size ((k, a) :: log) ↔ k < size ∧ Inside size log := by
  simp [Inside]

@[simp] theorem content_cons_self (log : Log α) (k : Nat) (a : α) :
    content ((k, a) :: log) k = some a := by
  simp [content]

theorem content_cons_of_ne (log : Log α) {j k : Nat} {a : α} (h : k ≠ j) :
    content ((j, a) :: log) k = content log k := by
  rw [content, List.lookup_cons, beq_false_of_ne h]
  rfl

/-- A write position, and the stores made so far, the latest first. -/
structure Cursor (α : Type*) where
  pos : Nat
  log : Log α

def Cursor.start : Cursor α := ⟨0, []⟩

def Cursor.put (c : Cursor α) (a : α) : Cursor α := ⟨c.pos + 1, (c.pos, a) :: c.log⟩

def Cursor.skip (c : Cursor α) : Cursor α := { c with pos := c.pos + 1 }

def Cursor.putAll (c : Cursor α) (as : List α) : Cursor α := as.foldl Cursor.put c

/-- All stores lie before the cursor. -/
def Cursor.Trails (c : Cursor α) : Prop := Inside c.pos c.log

theorem Cursor.trails_start : (Cursor.start : Cursor α).Trails := by
  simp [Cursor.Trails, Inside, Cursor.start]

theorem Cursor.Trails.put {c : Cursor α} (h : c.Trails) (a : α) : (c.put a).Trails :=
  inside_cons.mpr ⟨Nat.lt_succ_self _, h.mono (Nat.le_succ _)⟩

theorem Cursor.Trails.skip {c : Cursor α} (h : c.Trails) : c.skip.Trails :=
  h.mono (Nat.le_succ _)

theorem Cursor.Trails.putAll {c : Cursor α} (h : c.Trails) (as : List α) :
    (c.putAll as).Trails := by
  induction as generalizing c with
  | nil => exact h
  | cons a as ih => exact ih (h.put a)

@[simp] theorem Cursor.put_pos (c : Cursor α) (a : α) : (c.put a).pos = c.pos + 1 := rfl

@[simp] theorem Cursor.putAll_pos (c : Cursor α) (as : List α) :
    (c.putAll as).pos = c.pos + as.length := by
  induction as generalizing c with
  | nil => rfl
  | cons a as ih =>
      rw [Cursor.putAll, List.foldl_cons, ← Cursor.putAll, ih, Cursor.put_pos, List.length_cons]
      omega

theorem Cursor.content_putAll_of_lt (c : Cursor α) (as : List α) {k : Nat} (hk : k < c.pos) :
    content (c.putAll as).log k = content c.log k := by
  induction as generalizing c with
  | nil => rfl
  | cons a as ih =>
      have hput : content (c.put a).log k = content c.log k :=
        content_cons_of_ne _ (Nat.ne_of_lt hk)
      exact (ih (c.put a) (Nat.lt_succ_of_lt hk)).trans hput

theorem Cursor.content_putAll (c : Cursor α) (as : List α) {k : Nat} (hk : k < as.length) :
    content (c.putAll as).log (c.pos + k) = as[k]? := by
  induction as generalizing c k with
  | nil => cases hk
  | cons a as ih =>
      cases k with
      | zero =>
          refine (content_putAll_of_lt (c.put a) as (Nat.lt_succ_self _)).trans ?_
          exact content_cons_self _ _ _
      | succ k =>
          have hmoved : (c.put a).pos + k = c.pos + (k + 1) := by
            rw [Cursor.put_pos]
            omega
          have hrest := ih (c.put a) (Nat.lt_of_succ_lt_succ hk)
          rw [hmoved] at hrest
          exact hrest

end ShlteOs.BufferCursor
