import BinaryLayout.Proofs.Streams

/-!
# Streams into sinks that fail for a while

A sink that fails may have accepted a part of the bytes before, and it may accept everything
later on. A stream counts the bytes of the documents that it has written, and looks at nothing
else. It follows that a failure goes unnoticed: from then on the stream counts fewer bytes than
the sink has accepted, and tells offsets that are too small, both by exactly the bytes that its
failing calls have left behind. Where no such call leaves anything, everything it tells is right.

All of this holds for any sink, so sinks are described by what they promise. The sink that runs
out of room is one of them.
-/

namespace BinaryLayout

/-- Something that accepts bytes. If it accepts them all it says so; if it fails, it may have
    accepted the first of them. Nothing is said of when it fails. -/
structure Device (σ ε : Type) where
  start : σ
  /-- What has been accepted since the start. -/
  accepted : σ → List UInt8
  writeAll : σ → List UInt8 → Except ε Unit × σ
  fresh : accepted start = []
  whole : ∀ {state next : σ} {bytes : List UInt8}, writeAll state bytes = (.ok (), next) →
    accepted next = accepted state ++ bytes
  partly : ∀ {state next : σ} {bytes : List UInt8} {error : ε},
    writeAll state bytes = (.error error, next) →
      ∃ part, part <+: bytes ∧ accepted next = accepted state ++ part

/-- Why a document is not written. -/
inductive WriteError (ε : Type) where
  | layout (cause : LayoutError)
  | io (error : ε)

/-- A device with the documents counted as written to it. -/
structure DeviceWriter (σ : Type) where
  state : σ
  options : DocumentOptions
  offsets : List Nat
  written : Nat

/-- One call: what was to be written, the answer, what the device had accepted before and has
    accepted then, and what the writer counts then. -/
structure WriteEvent (ε : Type) where
  root : Value
  answer : Except (WriteError ε) Nat
  begins : Nat
  ends : Nat
  written : Nat

namespace Device

variable {σ ε : Type}

/-- Write one document and answer its length. -/
def writeDocument (device : Device σ ε) (state : σ) (root : Value) (options : DocumentOptions) :
    Except (WriteError ε) Nat × σ :=
  match root.document options with
  | .error cause => (.error (.layout cause), state)
  | .ok bytes =>
      match device.writeAll state bytes with
      | (.error error, next) => (.error (.io error), next)
      | (.ok (), next) => (.ok bytes.length, next)

/-- Append one document and answer its offset. -/
def write (device : Device σ ε) (writer : DeviceWriter σ) (root : Value) :
    Except (WriteError ε) Nat × DeviceWriter σ :=
  match device.writeDocument writer.state root writer.options with
  | (.error cause, state) => (.error cause, { writer with state })
  | (.ok length, state) =>
      (.ok writer.written,
        ⟨state, writer.options, writer.offsets ++ [writer.written], writer.written + length⟩)

/-- A writer that has written nothing. -/
def writer (device : Device σ ε) (options : DocumentOptions) : DeviceWriter σ :=
  ⟨device.start, options, [], 0⟩

/-- Bytes that a device has accepted. -/
def position (device : Device σ ε) (writer : DeviceWriter σ) : Nat :=
  (device.accepted writer.state).length

/-- Write values one after another, whatever the answers. -/
def run (device : Device σ ε) : DeviceWriter σ → List Value → List (WriteEvent ε) × DeviceWriter σ
  | writer, [] => ([], writer)
  | writer, root :: rest =>
      let (answer, next) := device.write writer root
      let (events, last) := device.run next rest
      (⟨root, answer, device.position writer, device.position next, next.written⟩ :: events, last)

end Device

namespace WriteEvent

variable {ε : Type}

/-- Bytes that a failing call has left in the device. -/
def lost (event : WriteEvent ε) : Nat :=
  match event.answer with
  | .ok _ => 0
  | .error _ => event.ends - event.begins

/-- All that calls have left that failed. -/
def losses (events : List (WriteEvent ε)) : Nat :=
  (events.map lost).sum

/-- What a writer tells behind a call is right: it counts what the device has accepted, and the
    offset, if there is one, is where the device stood when the document came. -/
def Exact (event : WriteEvent ε) : Prop :=
  event.written = event.ends ∧ ∀ offset, event.answer = .ok offset → offset = event.begins

end WriteEvent

namespace Device

variable {σ ε : Type} {device : Device σ ε} {writer : DeviceWriter σ} {root : Value}

/-- What one call does: nothing, or it leaves a part of a document, or it writes a document
    and counts it. -/
theorem write_cases (device : Device σ ε) (writer : DeviceWriter σ) (root : Value) :
    (∃ cause, root.document writer.options = .error cause ∧
      device.write writer root = (.error (.layout cause), writer)) ∨
    (∃ document error state part, root.document writer.options = .ok document ∧
      part <+: document ∧ device.accepted state = device.accepted writer.state ++ part ∧
      device.write writer root = (.error (.io error), { writer with state })) ∨
    ∃ document state, root.document writer.options = .ok document ∧
      device.accepted state = device.accepted writer.state ++ document ∧
      device.write writer root = (.ok writer.written, ⟨state, writer.options,
        writer.offsets ++ [writer.written], writer.written + document.length⟩) := by
  cases made : root.document writer.options with
  | error cause =>
    refine .inl ⟨cause, rfl, ?_⟩
    simp only [write, writeDocument, made]
  | ok document =>
    rcases done : device.writeAll writer.state document with ⟨error | ⟨⟨⟩⟩, state⟩
    · obtain ⟨part, first, grown⟩ := device.partly done
      refine .inr (.inl ⟨document, error, state, part, rfl, first, grown, ?_⟩)
      simp only [write, writeDocument, made, done]
    · refine .inr (.inr ⟨document, state, rfl, device.whole done, ?_⟩)
      simp only [write, writeDocument, made, done]

/-- A call moves the device on by what it has accepted. -/
theorem write_grows (device : Device σ ε) (writer : DeviceWriter σ) (root : Value) :
    device.accepted writer.state <+: device.accepted (device.write writer root).2.state := by
  obtain ⟨cause, -, done⟩ | ⟨_, _, state, part, -, -, grown, done⟩ |
    ⟨document, state, -, grown, done⟩ := device.write_cases writer root
  · rw [done]
  · rw [done, grown]
    exact List.prefix_append _ _
  · rw [done, grown]
    exact List.prefix_append _ _

/-- Nothing is taken back from a device in the course of a run. -/
theorem run_grows (device : Device σ ε) (writer : DeviceWriter σ) (roots : List Value) :
    device.accepted writer.state <+: device.accepted (device.run writer roots).2.state := by
  induction roots generalizing writer with
  | nil => exact List.prefix_refl _
  | cons root rest ih => exact (device.write_grows writer root).trans (ih _)

theorem write_options (device : Device σ ε) (writer : DeviceWriter σ) (root : Value) :
    (device.write writer root).2.options = writer.options := by
  obtain ⟨cause, -, done⟩ | ⟨_, _, state, part, -, -, -, done⟩ | ⟨document, state, -, -, done⟩ :=
    device.write_cases writer root
  all_goals rw [done]

/-- What has been lost before a call is still missing behind it, together with what the call
    itself has lost; an offset that it answers is short of what was lost before. -/
theorem write_balanced {lost : Nat} {answer : Except (WriteError ε) Nat} {next : DeviceWriter σ}
    (balanced : writer.written + lost = device.position writer)
    (done : device.write writer root = (answer, next)) :
    let event : WriteEvent ε :=
      ⟨root, answer, device.position writer, device.position next, next.written⟩
    next.written + (lost + event.lost) = device.position next ∧
      ∀ offset, answer = .ok offset → offset + lost = device.position writer := by
  intro event
  obtain ⟨cause, -, step⟩ | ⟨document, error, state, part, -, -, grown, step⟩ |
    ⟨document, state, -, grown, step⟩ := device.write_cases writer root
  all_goals obtain ⟨rfl, rfl⟩ := Prod.mk.inj (done.symm.trans step)
  · have same : event.lost = 0 := Nat.sub_self _
    rw [same]
    exact ⟨balanced, nofun⟩
  · have left : event.lost = part.length := by
      change device.position _ - device.position writer = _
      simp only [position, grown, List.length_append]
      omega
    refine ⟨?_, nofun⟩
    rw [left]
    simp only [position, grown, List.length_append] at balanced ⊢
    omega
  · have kept : event.lost = 0 := rfl
    rw [kept]
    constructor
    · simp only [position, grown, List.length_append] at balanced ⊢
      omega
    · intro offset told
      obtain rfl := Except.ok.inj told
      exact balanced

end Device

namespace WriteEvent

variable {ε : Type}

theorem losses_cons (event : WriteEvent ε) (events : List (WriteEvent ε)) :
    losses (event :: events) = event.lost + losses events := by
  simp [losses]

/-- Calls are short of what was lost before them, and every failing call adds what it leaves. -/
def Balanced : (lost : Nat) → List (WriteEvent ε) → Prop
  | _, [] => True
  | lost, event :: rest =>
      (event.written + (lost + event.lost) = event.ends ∧
        ∀ offset, event.answer = .ok offset → offset + lost = event.begins) ∧
      Balanced (lost + event.lost) rest

namespace Balanced

variable {lost : Nat} {events before after : List (WriteEvent ε)} {event : WriteEvent ε}

/-- A call in the midst of others is short of what these have lost. -/
theorem at_event (balanced : Balanced lost (before ++ event :: after)) :
    event.written + (lost + losses before + event.lost) = event.ends ∧
      ∀ offset, event.answer = .ok offset → offset + (lost + losses before) = event.begins := by
  induction before generalizing lost with
  | nil => exact balanced.1
  | cons first rest ih =>
    have later := ih balanced.2
    rwa [Nat.add_assoc lost first.lost, ← losses_cons] at later

/-- As long as nothing is lost, what is told is right, and only that long. -/
theorem exact_iff (balanced : Balanced 0 events) :
    (∀ event ∈ events, event.Exact) ↔ ∀ event ∈ events, event.lost = 0 := by
  induction events with
  | nil => simp
  | cons event rest ih =>
    obtain ⟨⟨counted, told⟩, later⟩ := balanced
    have here : event.Exact ↔ event.lost = 0 := by
      constructor
      · rintro ⟨all, -⟩
        omega
      · intro nothing
        exact ⟨by omega, told⟩
    rw [List.forall_mem_cons, List.forall_mem_cons, here]
    refine and_congr_right fun nothing => ih ?_
    rwa [nothing] at later

end Balanced
end WriteEvent

namespace Device

variable {σ ε : Type} {device : Device σ ε} {writer : DeviceWriter σ} {root : Value}

/-- A run keeps the balance, whatever the answers, and leaves the writer short of all losses. -/
theorem run_balanced {lost : Nat} (roots : List Value)
    (balanced : writer.written + lost = device.position writer) :
    WriteEvent.Balanced lost (device.run writer roots).1 ∧
      (device.run writer roots).2.written +
          (lost + WriteEvent.losses (device.run writer roots).1) =
        device.position (device.run writer roots).2 := by
  induction roots generalizing writer lost with
  | nil => exact ⟨trivial, balanced⟩
  | cons root rest ih =>
    have here := write_balanced balanced (Prod.mk.eta (p := device.write writer root)).symm
    obtain ⟨later, total⟩ := ih here.1
    refine ⟨⟨here, later⟩, ?_⟩
    rw [Nat.add_assoc lost, ← WriteEvent.losses_cons] at total
    exact total

/-- The offsets of a writer are those that its calls have answered. -/
theorem run_listed (device : Device σ ε) (writer : DeviceWriter σ) (roots : List Value) :
    (device.run writer roots).2.offsets =
      writer.offsets ++ (device.run writer roots).1.filterMap (·.answer.toOption) := by
  induction roots generalizing writer with
  | nil => simp [run]
  | cons root rest ih =>
    rw [run, ih]
    obtain ⟨_, -, done⟩ | ⟨_, _, state, part, -, -, -, done⟩ | ⟨document, state, -, -, done⟩ :=
      device.write_cases writer root
    · rw [done]
      rfl
    · rw [done]
      rfl
    · rw [done, List.append_assoc]
      rfl

/-- What a call has written stands where the device was when the call came. -/
theorem run_held (device : Device σ ε) (writer : DeviceWriter σ) (roots : List Value) :
    ∀ event ∈ (device.run writer roots).1, ∀ offset, event.answer = .ok offset →
      ∃ document, event.root.document writer.options = .ok document ∧
        HoldsAt (device.accepted (device.run writer roots).2.state) event.begins document := by
  induction roots generalizing writer with
  | nil => simp [run]
  | cons root rest ih =>
    have others := ih (device.write writer root).2
    rw [write_options] at others
    rw [run, List.forall_mem_cons]
    refine ⟨fun offset told => ?_, others⟩
    obtain ⟨_, -, done⟩ | ⟨_, _, state, part, -, -, -, done⟩ |
      ⟨document, state, made, grown, done⟩ := device.write_cases writer root
    · rw [done] at told
      contradiction
    · rw [done] at told
      contradiction
    · have later := device.run_grows (device.write writer root).2 rest
      rw [done] at later ⊢
      obtain ⟨more, grown'⟩ := later
      refine ⟨document, made, ?_⟩
      rw [HoldsAt, ← grown', grown, position, List.append_assoc, List.drop_left' rfl]
      exact List.prefix_append _ _

/-- A value that cannot be laid out leaves nothing in the device. -/
theorem run_refused (device : Device σ ε) (writer : DeviceWriter σ) (roots : List Value) :
    ∀ event ∈ (device.run writer roots).1, ∀ cause, event.answer = .error (.layout cause) →
      event.ends = event.begins := by
  induction roots generalizing writer with
  | nil => simp [run]
  | cons root rest ih =>
    rw [run, List.forall_mem_cons]
    refine ⟨fun cause refused => ?_, ih _⟩
    obtain ⟨_, -, done⟩ | ⟨_, _, state, part, -, -, -, done⟩ | ⟨document, state, -, -, done⟩ :=
      device.write_cases writer root
    · rw [done]
    · rw [done] at refused
      have kinds := Except.error.inj refused
      contradiction
    · rw [done] at refused
      contradiction

/-- A sink that may run out of room accepts what fits, and fails if that is not all. -/
def sink (capacity : Option Nat) : Device Sink StreamError where
  start := ⟨[], capacity⟩
  accepted := Sink.bytes
  writeAll := Sink.accept
  fresh := rfl
  whole := by
    intro state next bytes done
    obtain ⟨held, capacity⟩ := state
    cases capacity with
    | none =>
      obtain ⟨-, rfl⟩ := Prod.mk.inj done
      rfl
    | some capacity =>
      obtain ⟨verdict, rfl⟩ := Prod.mk.inj done
      have fits : bytes.length ≤ capacity - held.length := by
        by_contra larger
        rw [if_neg larger] at verdict
        contradiction
      exact congrArg (held ++ ·) (List.take_of_length_le fits)
  partly := by
    intro state next bytes error done
    obtain ⟨held, capacity⟩ := state
    cases capacity with
    | none =>
      obtain ⟨verdict, -⟩ := Prod.mk.inj done
      contradiction
    | some capacity =>
      obtain ⟨-, rfl⟩ := Prod.mk.inj done
      exact ⟨bytes.take (capacity - held.length), List.take_prefix _ _, rfl⟩

end Device

/-- The error of a stream into a sink. -/
def WriteError.toStreamError : WriteError StreamError → StreamError
  | layout cause => .layout cause
  | io error => error

/-- A writer to a sink is a stream. -/
def DeviceWriter.toStream (writer : DeviceWriter Sink) : DocumentStream :=
  ⟨writer.state, writer.options, writer.offsets, writer.written⟩

namespace Device

/-- Writing to a stream is writing to its sink. -/
theorem sink_write (capacity : Option Nat) (writer : DeviceWriter Sink) (root : Value) :
    writer.toStream.write root =
      (((sink capacity).write writer root).1.mapError WriteError.toStreamError,
        ((sink capacity).write writer root).2.toStream) := by
  cases made : root.document writer.options with
  | error cause =>
    simp only [DocumentStream.write, Sink.write, DeviceWriter.toStream, write, writeDocument, made]
    rfl
  | ok document =>
    rcases done : writer.state.accept document with ⟨error | ⟨⟨⟩⟩, state⟩
    all_goals
      have same : (sink capacity).writeAll writer.state document = _ := done
      simp only [DocumentStream.write, Sink.write, DeviceWriter.toStream, write, writeDocument,
        made, done, same]
      rfl

theorem sink_writeAll (capacity : Option Nat) (writer : DeviceWriter Sink) (roots : List Value) :
    writer.toStream.writeAll roots =
      (((sink capacity).run writer roots).1.map fun event =>
          event.answer.mapError WriteError.toStreamError,
        ((sink capacity).run writer roots).2.toStream) := by
  induction roots generalizing writer with
  | nil => rfl
  | cons root rest ih =>
    simp only [DocumentStream.writeAll, run, sink_write capacity writer root, ih, List.map_cons]

section Runs

variable {σ ε : Type}

/-- The calls of a run that begins with nothing written. -/
def events (device : Device σ ε) (options : DocumentOptions) (roots : List Value) :
    List (WriteEvent ε) :=
  (device.run (device.writer options) roots).1

/-- The writer behind them. -/
def last (device : Device σ ε) (options : DocumentOptions) (roots : List Value) : DeviceWriter σ :=
  (device.run (device.writer options) roots).2

/-- What a writer tells in the course of a run, next to what the device has accepted. The count
    is short of it by what the failing calls have left, and so is every offset, which is one of
    the documents that stand where the device was. All that is told is right exactly when no
    call leaves anything that fails. -/
structure Accounts (device : Device σ ε) (options : DocumentOptions) (roots : List Value) :
    Prop where
  total : (device.last options roots).written + WriteEvent.losses (device.events options roots) =
    (device.accepted (device.last options roots).state).length
  counted : ∀ before event after, device.events options roots = before ++ event :: after →
    event.written + (WriteEvent.losses before + event.lost) = event.ends
  told : ∀ before event after, device.events options roots = before ++ event :: after →
    ∀ offset, event.answer = .ok offset → offset + WriteEvent.losses before = event.begins
  held : ∀ event ∈ device.events options roots, ∀ offset, event.answer = .ok offset →
    ∃ document, event.root.document options = .ok document ∧
      HoldsAt (device.accepted (device.last options roots).state) event.begins document
  listed : (device.last options roots).offsets =
    (device.events options roots).filterMap (·.answer.toOption)
  refused : ∀ event ∈ device.events options roots, ∀ cause,
    event.answer = .error (.layout cause) → event.ends = event.begins
  exact_iff : (∀ event ∈ device.events options roots, event.Exact) ↔
    ∀ event ∈ device.events options roots, event.lost = 0

/-- Whatever a device does, the accounts of a writer to it are short of the losses. Streams into
    sinks are writers to devices. -/
theorem run_accounts (options : DocumentOptions) (roots : List Value) :
    (∀ {σ ε : Type} (device : Device σ ε), Accounts device options roots) ∧
      ∀ capacity, (DocumentStream.start ⟨[], capacity⟩ options).writeAll roots =
        (((sink capacity).events options roots).map fun event =>
            event.answer.mapError WriteError.toStreamError,
          ((sink capacity).last options roots).toStream) := by
  constructor
  · intro σ ε device
    have nothing : (device.writer options).written + 0 =
        device.position (device.writer options) := by
      simp [writer, position, device.fresh]
    obtain ⟨balanced, total⟩ := run_balanced roots nothing
    constructor
    case total =>
      rw [Nat.zero_add] at total
      exact total
    case counted =>
      intro before event after split
      have whole : WriteEvent.Balanced 0 (before ++ event :: after) := split ▸ balanced
      simpa using whole.at_event.1
    case told =>
      intro before event after split offset answered
      have whole : WriteEvent.Balanced 0 (before ++ event :: after) := split ▸ balanced
      simpa using whole.at_event.2 offset answered
    case held => exact device.run_held (device.writer options) roots
    case listed => exact device.run_listed (device.writer options) roots
    case refused => exact device.run_refused (device.writer options) roots
    case exact_iff => exact balanced.exact_iff
  · intro capacity
    exact sink_writeAll capacity ((sink capacity).writer options) roots

end Runs

section Sample

/-- A device that fails as often as it is told to, each time with as many bytes accepted as it is
    told, and then recovers. -/
def failing (script : List Nat) : Device (List Nat × List UInt8) Unit where
  start := (script, [])
  accepted := Prod.snd
  writeAll := fun (script, accepted) bytes =>
    match script with
    | count :: rest => (.error (), (rest, accepted ++ bytes.take count))
    | [] => (.ok (), ([], accepted ++ bytes))
  fresh := rfl
  whole := by
    intro (script, accepted) next bytes done
    cases script with
    | nil =>
      obtain ⟨-, rfl⟩ := Prod.mk.inj done
      rfl
    | cons count rest =>
      obtain ⟨verdict, -⟩ := Prod.mk.inj done
      contradiction
  partly := by
    intro (script, accepted) next bytes error done
    cases script with
    | nil =>
      obtain ⟨verdict, -⟩ := Prod.mk.inj done
      contradiction
    | cons count rest =>
      obtain ⟨-, rfl⟩ := Prod.mk.inj done
      exact ⟨bytes.take count, List.take_prefix _ _, rfl⟩

/-- A document of four bytes. -/
def five : Value :=
  .int ⟨.int32, 5, by decide⟩

/-- A sink with room for two bytes keeps these two of a document of four, and the empty document
    that comes next is said to start at 0. A device that fails once and recovers holds the second
    document behind two bytes, and is said to hold it at 0. -/
theorem failedWrite_miscounted :
    (DocumentStream.start ⟨[], some 2⟩ .standard).writeAll [five, .null] =
        ([.error .sinkFull, .ok 0], ⟨⟨[5, 0], some 2⟩, .standard, [0], 0⟩) ∧
      (¬∀ event ∈ (sink (some 2)).events .standard [five, .null], event.Exact) ∧
      (failing [2]).events .standard [five, five] =
        [⟨five, .error (.io ()), 0, 2, 0⟩, ⟨five, .ok 0, 2, 6, 4⟩] ∧
      ((failing [2]).last .standard [five, five]).state.2 = [5, 0, 5, 0, 0, 0] := by
  refine ⟨rfl, ?_, rfl, rfl⟩
  intro right
  have counts : 0 = 2 := (right ⟨five, .error (.io .sinkFull), 0, 2, 0⟩ List.mem_cons_self).1
  contradiction

end Sample
end Device
end BinaryLayout
