import Mathlib.Data.List.Basic

/-!
# Buffered channels

A channel with a buffer keeps what it is sent in order. `Chan.sent` is all that was ever sent :
what was received and then what is in the buffer. Sending adds to its end, receiving does not
change it, so what was received is always a beginning of it (`Chan.received_prefix`).
-/

namespace Corgi

/-- A channel with a buffer of `cap` values. -/
structure Chan (α : Type*) (cap : ℕ) where
  /-- All that was received. -/
  received : List α
  buffer : List α
  closed : Bool
  le : buffer.length ≤ cap

namespace Chan

variable {α : Type*} {cap : ℕ} {c c' : Chan α cap} {v : α}

/-- A new channel. -/
def make : Chan α cap :=
  { received := [], buffer := [], closed := false, le := Nat.zero_le _ }

/-- All that was sent. -/
def sent (c : Chan α cap) : List α :=
  c.received ++ c.buffer

/-- The channel after `v` is sent, if it is open and has room. -/
def send (c : Chan α cap) (v : α) : Option (Chan α cap) :=
  if h : c.closed = false ∧ c.buffer.length < cap then
    some { c with
      buffer := c.buffer ++ [v]
      le := by rw [List.length_append]; exact h.2 }
  else none

/-- What is received next. -/
def recv (c : Chan α cap) : Option (α × Chan α cap) :=
  match h : c.buffer with
  | [] => none
  | v :: rest =>
    some (v, { c with
      received := c.received ++ [v]
      buffer := rest
      le := Nat.le_of_succ_le (by have := c.le; rwa [h] at this) })

/-- `close` of a channel. What is buffered can still be received. -/
def close (c : Chan α cap) : Chan α cap :=
  { c with closed := true }

/-- Nothing more can be received. -/
def Done (c : Chan α cap) : Prop :=
  c.closed = true ∧ c.buffer = []

instance : Decidable c.Done := inferInstanceAs (Decidable (_ ∧ _))

theorem received_prefix (c : Chan α cap) : c.received <+: c.sent :=
  List.prefix_append _ _

theorem of_send (h : c.send v = some c') : c'.sent = c.sent ++ [v] ∧ c'.received = c.received ∧
    c'.buffer = c.buffer ++ [v] ∧ c'.closed = c.closed := by
  unfold send at h
  split at h
  · cases h
    exact ⟨(List.append_assoc _ _ _).symm, rfl, rfl, rfl⟩
  · cases h

theorem send_eq_none_iff : c.send v = none ↔ c.closed = true ∨ c.buffer.length = cap := by
  unfold send
  split
  · next h => simp [h.1, Nat.ne_of_lt h.2]
  · next h =>
    refine iff_of_true rfl (or_iff_not_imp_left.mpr fun hopen => ?_)
    exact Nat.le_antisymm c.le (Nat.le_of_not_lt fun hlt => h ⟨Bool.eq_false_iff.mpr hopen, hlt⟩)

theorem exists_send (hopen : c.closed = false) (hlt : c.buffer.length < cap) (v : α) :
    ∃ c', c.send v = some c' := by
  refine Option.ne_none_iff_exists'.mp fun hnone => ?_
  rcases send_eq_none_iff.mp hnone with hclosed | hfull
  · cases hopen.symm.trans hclosed
  · exact Nat.ne_of_lt hlt hfull

theorem recv_of_buffer {rest : List α} (h : c.buffer = v :: rest) :
    ∃ c', c.recv = some (v, c') := by
  unfold recv
  split
  · next hnil => rw [h] at hnil; cases hnil
  · next w rest' hcons =>
    rw [h] at hcons
    cases hcons
    exact ⟨_, rfl⟩

theorem of_recv (h : c.recv = some (v, c')) : c'.sent = c.sent ∧ c'.received = c.received ++ [v] ∧
    c.buffer = v :: c'.buffer ∧ c'.closed = c.closed := by
  unfold recv at h
  split at h
  · cases h
  · next w rest hcons =>
    cases h
    exact ⟨(List.append_assoc _ _ _).trans (congrArg (c.received ++ ·) hcons.symm), rfl, hcons,
      rfl⟩

end Chan

end Corgi
