import Libjeffpc.Buffer.Buffer

/-!
# What a packing function writes

A packing function does nothing but append to the buffer: it appends pieces one after the other until
it is done or gives up with an error. An `Output` is these pieces and the error, and `write` is the
function. What becomes of them is left to the buffer.
-/

namespace Libjeffpc

open Lib

structure Output where
  chunks : List Bytes
  error : Option Errno
  deriving DecidableEq, Repr

/-- A buffer that does not run out of space while `n` bytes are appended: there is room for them, or
memory whenever it is asked for. -/
structure Buffer.HasSpace (m : Machine) (b : Buffer) (n : Nat) : Prop where
  usable : b.Usable
  room : (b.ops = .heap ∧ b.size + n ≤ ssizeMax ∧ ∀ k j, j ≤ ssizeMax → m.grants k (.bytes j) = true) ∨
    (b.ops = .staticRw ∧ b.size + n ≤ b.allocsize)

namespace Output

/-- All bytes that are written. -/
def bytes (o : Output) : Bytes := o.chunks.flatten

def chunk (bytes : Bytes) : Output := ⟨[bytes], none⟩

def done : Output := ⟨[], none⟩

def fail (e : Errno) : Output := ⟨[], some e⟩

/-- One output after the other; after an error there is nothing more. -/
def andThen (o o' : Output) : Output :=
  match o.error with
  | none => ⟨o.chunks ++ o'.chunks, o'.error⟩
  | some _ => o

def writeChunks (m : Machine) : List Bytes → BufM Unit
  | [] => pure ()
  | bytes :: chunks => do
    bufferAppend m bytes
    writeChunks m chunks

/-- What a heap buffer asks memory for while the pieces are appended: it grows to the bytes that there are. -/
def growths : Nat → Nat → List Bytes → List Nat
  | _, _, [] => []
  | allocsize, size, bytes :: chunks =>
    if size + bytes.length ≤ allocsize then growths allocsize (size + bytes.length) chunks
    else (size + bytes.length) :: growths (size + bytes.length) (size + bytes.length) chunks

def write (m : Machine) (o : Output) : BufM Unit := do
  writeChunks m o.chunks
  match o.error with
  | none => pure ()
  | some e => throw e

variable (m : Machine)

theorem writeChunks_append (cs cs' : List Bytes) :
    writeChunks m (cs ++ cs') = writeChunks m cs >>= fun _ => writeChunks m cs' := by
  induction cs with
  | nil => rw [List.nil_append, writeChunks, pure_bind]
  | cons c cs ih => rw [List.cons_append, writeChunks, writeChunks, ih, bind_assoc]

theorem write_chunk (bytes : Bytes) : (chunk bytes).write m = bufferAppend m bytes := by
  simp only [write, chunk, writeChunks, bind_pure_unit]

theorem write_done : done.write m = pure () := by
  simp only [write, done, writeChunks, pure_bind]

theorem write_fail (e : Errno) : (fail e).write m = throw e := by
  simp only [write, fail, writeChunks, pure_bind]

theorem write_andThen (o o' : Output) :
    (o.andThen o').write m = o.write m >>= fun _ => o'.write m := by
  cases he : o.error with
  | none =>
    simp only [andThen, he, write, writeChunks_append, bind_assoc, pure_bind]
  | some e =>
    simp only [andThen, he, write, bind_assoc]
    rfl

theorem bytes_andThen {o o' : Output} (h : o.error = none) :
    (o.andThen o').bytes = o.bytes ++ o'.bytes := by
  simp only [andThen, h, bytes, List.flatten_append]

theorem error_andThen {o o' : Output} (h : o.error = none) : (o.andThen o').error = o'.error := by
  simp only [andThen, h]

end Output

end Libjeffpc
