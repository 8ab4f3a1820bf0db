import Mathlib.Data.List.Basic

/-! A state with a stack of snapshots of it.  A session saves the state; its end keeps the changes
for good (`commit`), gives them to the session below (`merge`) or takes them back (`undo`).  The
snapshots of committed sessions stay on the stack, at most `limit` of them when a session starts,
and `popCommit` goes back to the last of them. -/

namespace Nestchain.Lib

/-- The current state, the saved states with the last first, the number of open sessions and the
number of saved states that are kept when a session starts. -/
@[ext]
structure SnapshotStack (σ : Type) where
  current : σ
  saved : List σ
  active : Nat
  limit : Nat

namespace SnapshotStack

variable {σ : Type}

def start (u : SnapshotStack σ) : SnapshotStack σ :=
  { u with saved := u.current :: u.saved.take u.limit, active := u.active + 1 }

def commit (u : SnapshotStack σ) : SnapshotStack σ := { u with active := u.active - 1 }

def merge (u : SnapshotStack σ) : SnapshotStack σ :=
  { u with saved := u.saved.tail, active := u.active - 1 }

def undo (u : SnapshotStack σ) : SnapshotStack σ :=
  { u with current := u.saved.headD u.current, saved := u.saved.tail, active := u.active - 1 }

/-- Go back to the last committed snapshot, which needs that no session is open. -/
def popCommit (u : SnapshotStack σ) : Option (SnapshotStack σ) :=
  if u.active = 0 then
    match u.saved with
    | [] => none
    | s :: saved => some { u with current := s, saved := saved }
  else none

def set (u : SnapshotStack σ) (s : σ) : SnapshotStack σ := { u with current := s }

/-- Start a session that drops no snapshot. -/
def startNested (u : SnapshotStack σ) : SnapshotStack σ :=
  start { u with limit := if u.saved.length ≥ u.limit then u.saved.length + 1 else u.limit }

theorem undo_current {u : SnapshotStack σ} {s : σ} {l : List σ} (h : u.saved = s :: l) :
    u.undo.current = s := by
  simp [undo, h]

/-- `v` has the states and sessions of `u` and keeps at least as many snapshots. -/
structure Widens (u v : SnapshotStack σ) : Prop where
  current : v.current = u.current
  saved : v.saved = u.saved
  active : v.active = u.active
  limit : u.limit ≤ v.limit

theorem Widens.refl (u : SnapshotStack σ) : Widens u u := ⟨rfl, rfl, rfl, Nat.le_refl _⟩

theorem Widens.trans {u v w : SnapshotStack σ} (h : Widens u v) (h' : Widens v w) : Widens u w :=
  ⟨h'.current.trans h.current, h'.saved.trans h.saved, h'.active.trans h.active,
    Nat.le_trans h.limit h'.limit⟩

/-- A nested session that is closed again, by merging or by undoing, only widens the stack. -/
theorem Widens.nested {u v : SnapshotStack σ} (h : Widens u.startNested v) (merged : Bool) :
    Widens u (if merged then v.merge else v.undo) := by
  have hsaved : v.saved = u.current :: u.saved := by
    rw [h.saved]
    show u.current :: u.saved.take (if u.saved.length ≥ u.limit then u.saved.length + 1
      else u.limit) = _
    rw [List.take_of_length_le]
    split <;> omega
  have hlimit : u.limit ≤ v.limit := by
    refine Nat.le_trans ?_ h.limit
    show u.limit ≤ if u.saved.length ≥ u.limit then u.saved.length + 1 else u.limit
    split <;> omega
  have hactive : v.active = u.active + 1 := h.active
  cases merged with
  | true =>
    exact ⟨h.current, by simp [merge, hsaved], by simp [merge, hactive], hlimit⟩
  | false =>
    exact ⟨by simp [undo, hsaved], by simp [undo, hsaved], by simp [undo, hactive], hlimit⟩

end SnapshotStack

end Nestchain.Lib
