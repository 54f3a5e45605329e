import XmlWriter.Outlet.Basic
import XmlWriter.Text.Utf8

/-!
# Buffers

Three outlets that keep what they are given. `TextBuffer` collects a text, and `ByteBuffer` collects
UTF-8 bytes and counts them; neither refuses anything (`TextBuffer.deliver_eq`,
`ByteBuffer.chunks_deliver`). The bytes are given out as one row, which is filled chunk by chunk;
since they have been counted it is neither too short nor too long, and they stand in it one chunk
after the other (`ByteBuffer.bytes_eq`). `ChunkLog` keeps the chunks apart and refuses those calls
that it was told to.
-/

namespace XmlWriter

/-- An outlet that collects a text. -/
structure TextBuffer where
  chunks : List Text
  deriving DecidableEq, Repr

namespace TextBuffer

/-- The buffer before the first chunk. -/
def empty : TextBuffer := ⟨[]⟩

/-- Takes one more chunk. -/
def append (b : TextBuffer) (chunk : Text) : TextBuffer := ⟨b.chunks ++ [chunk]⟩

/-- Everything taken so far. -/
def text (b : TextBuffer) : Text := b.chunks.flatten

@[simp] theorem text_empty : empty.text = [] := rfl

@[simp] theorem text_append (b : TextBuffer) (chunk : Text) :
    (b.append chunk).text = b.text ++ chunk := by
  simp [append, text]

end TextBuffer

instance : Outlet TextBuffer where
  put b chunk := (b.append chunk, none)

/-- A text buffer refuses nothing, and what is delivered follows what it holds. -/
theorem TextBuffer.deliver_eq {σ : Type} (xs : List (Text × σ)) (b : TextBuffer) :
    Outlet.deliver xs b = (⟨b.chunks ++ xs.map (·.1)⟩, none) := by
  induction xs generalizing b with
  | nil => simp
  | cons x xs ih =>
    show Outlet.deliver xs (b.append x.1) = _
    simp [ih, TextBuffer.append]

/-- An outlet that collects the UTF-8 encodings of the chunks, each encoded on its own. -/
structure ByteBuffer where
  chunks : List (List UInt8)
  /-- The number of bytes so far. -/
  length : Nat
  /-- No byte has been missed. -/
  length_eq : length = chunks.flatten.length
  deriving DecidableEq, Repr

namespace ByteBuffer

/-- The buffer before the first chunk. -/
def empty : ByteBuffer := ⟨[], 0, rfl⟩

/-- Encodes one more chunk. -/
def append (b : ByteBuffer) (chunk : Text) : ByteBuffer where
  chunks := b.chunks ++ [chunk.utf8]
  length := b.length + chunk.utf8.length
  length_eq := by simp [b.length_eq]

/-- Copies a chunk over the bytes from an offset on. It must not reach beyond the last one. -/
def copy (bytes : List UInt8) (offset : Nat) (chunk : List UInt8)
    (_ : offset + chunk.length ≤ bytes.length) : List UInt8 :=
  bytes.take offset ++ chunk ++ bytes.drop (offset + chunk.length)

/-- Copying changes no number of bytes. -/
@[simp] theorem length_copy {bytes : List UInt8} {offset : Nat} {chunk : List UInt8}
    (h : offset + chunk.length ≤ bytes.length) :
    (copy bytes offset chunk h).length = bytes.length := by
  simp only [copy, List.length_append, List.length_take, List.length_drop]
  omega

/-- Copies chunks one after the other, the first one to an offset and each of the others to where
the one before it ends. -/
def fill (bytes : List UInt8) (offset : Nat) (chunks : List (List UInt8))
    (h : offset + chunks.flatten.length ≤ bytes.length) : List UInt8 :=
  match chunks with
  | [] => bytes
  | chunk :: rest =>
    have h : offset + (chunk.length + rest.flatten.length) ≤ bytes.length := by simpa using h
    fill (copy bytes offset chunk (by omega)) (offset + chunk.length) rest
      (by rw [length_copy]; omega)

/-- Everything encoded so far, copied into a row of as many bytes. -/
def bytes (b : ByteBuffer) : List UInt8 :=
  fill (List.replicate b.length 0) 0 b.chunks (by simp [b.length_eq])

/-- Chunks copied one after the other stand there as their concatenation, and the bytes before and
behind them as they were. -/
theorem fill_eq {bytes : List UInt8} {offset : Nat} {chunks : List (List UInt8)}
    (h : offset + chunks.flatten.length ≤ bytes.length) :
    fill bytes offset chunks h =
      bytes.take offset ++ chunks.flatten ++ bytes.drop (offset + chunks.flatten.length) := by
  induction chunks generalizing bytes offset with
  | nil => simp [fill]
  | cons chunk rest ih =>
    have h : offset + (chunk.length + rest.flatten.length) ≤ bytes.length := by simpa using h
    have hlen : (bytes.take offset).length = offset := List.length_take_of_le (by omega)
    have hc : (bytes.take offset ++ chunk).length = offset + chunk.length := by simp [hlen]
    rw [fill, ih, copy, List.take_left' hc, List.drop_append, hc, Nat.add_sub_cancel_left,
      List.drop_eq_nil_of_le (by omega), List.nil_append, List.drop_drop, List.flatten_cons,
      List.length_append, Nat.add_assoc, List.append_assoc _ chunk]

/-- The bytes are the encodings of the chunks in their order. -/
theorem bytes_eq (b : ByteBuffer) : b.bytes = b.chunks.flatten := by
  simp [bytes, fill_eq, b.length_eq]

/-- The buffer has counted its bytes. -/
theorem length_bytes (b : ByteBuffer) : b.bytes.length = b.length := by
  rw [bytes_eq, b.length_eq]

@[simp] theorem bytes_empty : empty.bytes = [] := rfl

@[simp] theorem bytes_append (b : ByteBuffer) (chunk : Text) :
    (b.append chunk).bytes = b.bytes ++ chunk.utf8 := by
  simp [bytes_eq, append]

end ByteBuffer

instance : Outlet ByteBuffer where
  put b chunk := (b.append chunk, none)

/-- A byte buffer refuses nothing and keeps the encodings of the chunks apart. -/
theorem ByteBuffer.chunks_deliver {σ : Type} (xs : List (Text × σ)) (b : ByteBuffer) :
    (Outlet.deliver xs b).2 = none ∧
      (Outlet.deliver xs b).1.chunks = b.chunks ++ xs.map fun x => x.1.utf8 := by
  induction xs generalizing b with
  | nil => simp
  | cons x xs ih =>
    obtain ⟨h, hc⟩ := ih (b.append x.1)
    exact ⟨h, hc.trans (by simp [ByteBuffer.append])⟩

/-- What is delivered to a byte buffer follows the bytes that it holds. -/
theorem ByteBuffer.bytes_deliver {σ : Type} (xs : List (Text × σ)) (b : ByteBuffer) :
    (Outlet.deliver xs b).1.bytes = b.bytes ++ xs.flatMap fun x => x.1.utf8 := by
  rw [bytes_eq, bytes_eq, (chunks_deliver xs b).2, List.flatten_append, List.flatMap_def]

/-- An outlet that keeps the chunks apart and refuses some calls, counted from one with the refused
ones included. -/
structure ChunkLog where
  /-- The numbers of the calls to refuse. -/
  refused : List Nat
  /-- The number of calls so far. -/
  calls : Nat
  chunks : List Text
  deriving DecidableEq, Repr

namespace ChunkLog

/-- The log before the first call, with the numbers of the calls to refuse. -/
def empty (refused : List Nat) : ChunkLog := ⟨refused, 0, []⟩

/-- The refusal of a call. -/
def refusal (call : Nat) : Refusal :=
  ⟨Text.ofString "write " ++ Text.ofChars (Nat.toDigits 10 call) ++ Text.ofString " failed"⟩

end ChunkLog

instance : Outlet ChunkLog where
  put l chunk :=
    let call := l.calls + 1
    if call ∈ l.refused then ({ l with calls := call }, some (ChunkLog.refusal call))
    else ({ l with calls := call, chunks := l.chunks ++ [chunk] }, none)

end XmlWriter
