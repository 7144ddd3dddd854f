import Libjeffpc.Lib.Buf
import Libjeffpc.Lib.CString

/-!
# Allocations

An allocation is the list of its bytes. What the allocator answers to a request is not up to the program:
NULL, or memory that holds anything; `realloc` keeps what both sizes have room for.
-/

namespace Libjeffpc.Lib

/-- NULL, or what fresh memory holds. -/
abbrev Answer := Option (Nat → UInt8)

/-- `realloc(old, len)`; of no memory at all it is `malloc(len)`. -/
def realloc (answer : Answer) (old : Bytes) (len : Nat) : Option Bytes :=
  answer.map fun fresh => old.take len ++ (List.range (len - old.length)).map fresh

/-- `memset(buf + off, 0, len)`. -/
def clear (buf : Bytes) (off len : Nat) : Comp Bytes :=
  if off + len ≤ buf.length then pure (buf.take off ++ List.replicate len 0 ++ buf.drop (off + len))
  else throw .bounds

variable {answer : Answer} {old new buf : Bytes} {off len n : Nat}

theorem length_realloc (h : realloc answer old len = some new) : new.length = len := by
  obtain ⟨fresh, -, rfl⟩ := Option.map_eq_some_iff.mp h
  rw [List.length_append, List.length_take, List.length_map, List.length_range]
  omega

theorem take_realloc (h : realloc answer old len = some new) (hold : n ≤ old.length) (hn : n ≤ len) :
    new.take n = old.take n := by
  obtain ⟨fresh, -, rfl⟩ := Option.map_eq_some_iff.mp h
  rw [List.take_append_of_le_length (by rw [List.length_take]; omega), List.take_take, Nat.min_eq_left hn]

theorem clear_eq (h : off + len ≤ buf.length) :
    clear buf off len = pure (buf.take off ++ List.replicate len 0 ++ buf.drop (off + len)) := if_pos h

theorem length_clear (h : off + len ≤ buf.length) :
    (buf.take off ++ List.replicate len 0 ++ buf.drop (off + len)).length = buf.length := by
  rw [List.length_append, List.length_append, List.length_take, List.length_replicate, List.length_drop]
  omega

/-- The bytes up to the end of what is cleared. -/
theorem take_clear (h : off + len ≤ buf.length) :
    (buf.take off ++ List.replicate len 0 ++ buf.drop (off + len)).take (off + len) =
      buf.take off ++ List.replicate len 0 := by
  refine List.take_left' ?_
  rw [List.length_append, List.length_take, List.length_replicate]
  omega

/-- What is written over a part of the buffer is in all that the buffer starts with behind that part. -/
theorem take_splice {v : Bytes} (hend : off + v.length ≤ n) (hn : n ≤ buf.length) :
    (buf.take off ++ v ++ buf.drop (off + v.length)).take n =
      (buf.take n).take off ++ v ++ (buf.take n).drop (off + v.length) := by
  have hlen : (buf.take n).length = n := by
    rw [List.length_take]
    omega
  have hfront : buf.take off = (buf.take n).take off := by
    rw [List.take_take, Nat.min_eq_left (by omega)]
  have hback : buf.drop (off + v.length) = (buf.take n).drop (off + v.length) ++ buf.drop n := by
    rw [← List.drop_append_of_le_length (by omega), List.take_append_drop]
  rw [hfront, hback, ← List.append_assoc]
  refine List.take_left' ?_
  rw [List.length_append, List.length_append, List.length_take, List.length_drop]
  omega

end Libjeffpc.Lib
