import Mathlib.Data.List.Basic

/-!
# Ring buffers as delay lines

A ring buffer that is always full: putting a value in takes the oldest one out.
Read from the cursor on it is a queue of fixed length, so what is put in comes
out again after as many exchanges as the buffer has slots.
-/

/-- The cursor is at the oldest value. -/
structure RingBuffer (α : Type) where
  slots : List α
  cursor : Nat
  inBounds : cursor < slots.length

namespace RingBuffer

variable {α : Type}

/-- All places have the same content. -/
def replicate (n : Nat) (a : α) (h : 0 < n) : RingBuffer α :=
  ⟨List.replicate n a, 0, by simpa using h⟩

/-- Put a value in and take the oldest one out. -/
def exchange (b : RingBuffer α) (a : α) : α × RingBuffer α :=
  (b.slots.get ⟨b.cursor, b.inBounds⟩, {
    slots := b.slots.set b.cursor a
    cursor := if b.cursor + 1 = b.slots.length then 0 else b.cursor + 1
    inBounds := by
      have h := b.inBounds
      rw [List.length_set]
      split <;> omega })

/-- The values from the oldest to the newest. -/
def contents (b : RingBuffer α) : List α :=
  b.slots.drop b.cursor ++ b.slots.take b.cursor

theorem contents_replicate (n : Nat) (a : α) (h : 0 < n) :
    (replicate n a h).contents = List.replicate n a := by
  unfold contents replicate
  rw [List.drop_zero, List.take_zero, List.append_nil]

/-- What comes out is the oldest value, what goes in is the newest. -/
theorem contents_exchange (b : RingBuffer α) (a : α) :
    ∃ rest, b.contents = (b.exchange a).1 :: rest ∧
      (b.exchange a).2.contents = rest ++ [a] := by
  have hlt := b.inBounds
  refine ⟨b.slots.drop (b.cursor + 1) ++ b.slots.take b.cursor, ?_, ?_⟩
  · unfold contents
    rw [List.drop_eq_getElem_cons hlt]
    rfl
  · have hset : b.slots.set b.cursor a =
        b.slots.take b.cursor ++ a :: b.slots.drop (b.cursor + 1) :=
      List.set_eq_take_append_cons_drop ..|>.trans (if_pos hlt)
    have hlen : (b.slots.take b.cursor).length = b.cursor := by
      rw [List.length_take]
      omega
    show (b.slots.set b.cursor a).drop (if b.cursor + 1 = b.slots.length then 0
      else b.cursor + 1) ++ (b.slots.set b.cursor a).take (if b.cursor + 1 = b.slots.length
        then 0 else b.cursor + 1) = _
    split
    · next hlast =>
      rw [hset, hlast, List.drop_length]
      simp
    · have hdrop : (b.slots.take b.cursor).drop (b.cursor + 1) = [] :=
        List.drop_eq_nil_of_le (by omega)
      have htake : (b.slots.take b.cursor).take (b.cursor + 1) = b.slots.take b.cursor :=
        List.take_of_length_le (by omega)
      rw [hset, List.drop_append, List.take_append, hlen, hdrop, htake]
      simp

end RingBuffer
