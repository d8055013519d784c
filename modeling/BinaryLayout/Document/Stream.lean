import BinaryLayout.Document.Basic

/-!
# Streams of documents

Documents are written back to back into a sink that may run out of room. A document
that cannot be laid out writes nothing. One that does not fit leaves the bytes that
fit in the sink, but is not counted as written.
-/

namespace BinaryLayout

/-- What keeps a document from being written. -/
inductive StreamError where
  | layout (cause : LayoutError)
  | sinkFull
  deriving DecidableEq

namespace StreamError

/-- The sentence that reports the cause. -/
def message : StreamError → String
  | layout cause => cause.message
  | sinkFull => "I/O error: failed to write whole buffer"

end StreamError

/-- Bytes accepted so far, and how many there is room for at all. -/
structure Sink where
  bytes : List UInt8
  capacity : Option Nat
  deriving DecidableEq

namespace Sink

/-- A sink that accepts everything. -/
def unbounded : Sink := ⟨[], none⟩

/-- Accept as many bytes as there is room for. -/
def accept (sink : Sink) (bytes : List UInt8) : Except StreamError Unit × Sink :=
  match sink.capacity with
  | none => (.ok (), ⟨sink.bytes ++ bytes, none⟩)
  | some capacity =>
      let room := capacity - sink.bytes.length
      let verdict := if bytes.length ≤ room then .ok () else .error .sinkFull
      (verdict, ⟨sink.bytes ++ bytes.take room, some capacity⟩)

/-- Write one document and answer its length. -/
def write (sink : Sink) (root : Value) (options : DocumentOptions) :
    Except StreamError Nat × Sink :=
  match root.document options with
  | .error cause => (.error (.layout cause), sink)
  | .ok bytes =>
      let (verdict, filled) := sink.accept bytes
      (verdict.map fun _ => bytes.length, filled)

end Sink

/-- A sink and the documents counted as written to it. -/
structure DocumentStream where
  sink : Sink
  options : DocumentOptions
  /-- Where every written document starts. -/
  offsets : List Nat
  /-- Bytes of the written documents. -/
  written : Nat
  deriving DecidableEq

namespace DocumentStream

/-- A stream to which nothing has been written. -/
def start (sink : Sink) (options : DocumentOptions) : DocumentStream :=
  ⟨sink, options, [], 0⟩

/-- Append one document and answer its offset. -/
def write (stream : DocumentStream) (root : Value) :
    Except StreamError Nat × DocumentStream :=
  match stream.sink.write root stream.options with
  | (.error cause, sink) => (.error cause, { stream with sink })
  | (.ok length, sink) =>
      (.ok stream.written,
        ⟨sink, stream.options, stream.offsets ++ [stream.written], stream.written + length⟩)

end DocumentStream

/-- Store a document as a file, given the file that stands in its place. Nothing is
    replaced when the document cannot be laid out. -/
def saveDocument (root : Value) (options : DocumentOptions) (previous : Option (List UInt8)) :
    Except LayoutError Nat × Option (List UInt8) :=
  match root.document options with
  | .error cause => (.error cause, previous)
  | .ok bytes => (.ok bytes.length, some bytes)

end BinaryLayout
