import BinaryLayout.Document.Stream
import BinaryLayout.Proofs.Placement

/-!
# Streams without gaps

A stream into a sink with room for everything is the row of its documents: what each
successful call wrote stands behind what the earlier ones wrote, and a refused call leaves
nothing behind. Padding is decided for each document on its own. As every document ends at a
multiple of the alignment, the next one starts at one.
-/

namespace BinaryLayout

/-- With padding on, a document gets the fewest zeros that align its end. One that ends at a
    multiple of the alignment already gets a whole unit instead, where that is due. -/
theorem DocumentOptions.padding_eq {options : DocumentOptions} (padded : options.isPadded = true)
    (positive : 0 < options.align) (length : Nat) (endsInBits : Bool) :
    options.padding length endsInBits =
      if options.align ∣ length ∧ options.extra.isDue endsInBits = true then options.align
      else gap length options.align := by
  have below := Nat.mod_lt length positive
  by_cases aligned : options.align ∣ length
  · have whole : length % options.align = 0 := Nat.mod_eq_zero_of_dvd aligned
    cases due : options.extra.isDue endsInBits <;>
      simp [padding, gap, padded, positive.ne', due, whole, aligned]
  · have open_ : length % options.align ≠ 0 := fun whole =>
      aligned (Nat.dvd_of_mod_eq_zero whole)
    have missing : options.align - length % options.align ≠ options.align := by omega
    have few : options.align - length % options.align < options.align := by omega
    simp [padding, gap, padded, positive.ne', aligned, missing, Nat.mod_eq_of_lt few]

/-- A document is its value packed on its own, then zeros up to a multiple of the alignment:
    a whole unit of them where the value ends at one and the extra unit is due, and fewer in
    all other cases. -/
def PaddedDocument (options : DocumentOptions) (root : Value) (document : List UInt8) : Prop :=
  ∃ blocks padding, root.pack none = .ok blocks ∧
    document = blocks.bytes ++ List.replicate padding 0 ∧
    options.align ∣ document.length ∧
    if options.align ∣ blocks.bytes.length ∧ options.extra.isDue blocks.endsInBits = true then
      padding = options.align
    else padding < options.align

/-- With padding on, every document is padded like that. -/
theorem Value.document_padded {options : DocumentOptions} {root : Value} {document : List UInt8}
    (padded : options.isPadded = true) (positive : 0 < options.align)
    (made : root.document options = .ok document) : PaddedDocument options root document := by
  simp only [Value.document, padded, positive.ne', Bool.true_and, decide_false, Bool.false_eq_true,
    if_false, bind_eq_ok, pure, Except.pure, Except.ok.injEq] at made
  obtain ⟨blocks, packed, rfl⟩ := made
  obtain ⟨few, aligned⟩ := gap_spec blocks.bytes.length positive
  refine ⟨blocks, _, packed, rfl, ?_, ?_⟩
  · rw [List.length_append, List.length_replicate, options.padding_eq padded positive]
    split
    · rename_i whole
      exact (Nat.dvd_add_right whole.1).mpr (Nat.dvd_refl _)
    · exact aligned
  · rw [options.padding_eq padded positive]
    split
    · rfl
    · exact few

namespace DocumentStream

/-- Write values one after another. The calls answer in order, and none of them ends the run. -/
def writeAll : DocumentStream → List Value → List (Except StreamError Nat) × DocumentStream
  | stream, [] => ([], stream)
  | stream, root :: rest =>
      let (answer, next) := stream.write root
      let (answers, last) := next.writeAll rest
      (answer :: answers, last)

/-- The documents of the values that can be laid out, in order. -/
def documents (options : DocumentOptions) (roots : List Value) : List (List UInt8) :=
  roots.filterMap fun root => (root.document options).toOption

/-- Where documents start that stand one behind the other from a free byte on. -/
def starts : List (List UInt8) → (free : Nat) → List Nat
  | [], _ => []
  | document :: rest, free => free :: starts rest (free + document.length)

theorem documents_of_ok {options : DocumentOptions} {root : Value} {document : List UInt8}
    (made : root.document options = .ok document) (rest : List Value) :
    documents options (root :: rest) = document :: documents options rest := by
  simp only [documents, List.filterMap_cons, made, Except.toOption]

theorem documents_of_error {options : DocumentOptions} {root : Value} {cause : LayoutError}
    (refused : root.document options = .error cause) (rest : List Value) :
    documents options (root :: rest) = documents options rest := by
  simp only [documents, List.filterMap_cons, refused, Except.toOption]

theorem mem_documents {options : DocumentOptions} {roots : List Value} {document : List UInt8} :
    document ∈ documents options roots ↔
      ∃ root ∈ roots, root.document options = .ok document := by
  rw [documents, List.mem_filterMap]
  refine exists_congr fun root => and_congr_right fun _ => ?_
  cases root.document options <;> simp [Except.toOption]

/-- What calls answer from a free byte on: the place of the document, which moves the free
    byte behind it, or the refusal of the value. -/
def answers (options : DocumentOptions) : List Value → (free : Nat) → List (Except StreamError Nat)
  | [], _ => []
  | root :: rest, free =>
      match root.document options with
      | .ok document => .ok free :: answers options rest (free + document.length)
      | .error cause => .error (.layout cause) :: answers options rest free

/-- The stream with one more document at its end. -/
def append (stream : DocumentStream) (document : List UInt8) : DocumentStream :=
  { stream with
    sink := { stream.sink with bytes := stream.sink.bytes ++ document }
    offsets := stream.offsets ++ [stream.written]
    written := stream.written + document.length }

section Calls

variable {stream : DocumentStream} {root : Value}

/-- A value that cannot be laid out leaves the stream as it was, whatever the sink. -/
theorem write_refused {cause : LayoutError}
    (refused : root.document stream.options = .error cause) :
    stream.write root = (.error (.layout cause), stream) := by
  simp only [write, Sink.write, refused]

/-- Where there is room for everything, all other values are appended, and the call answers
    where their document starts. -/
theorem write_accepted {document : List UInt8} (unbounded : stream.sink.capacity = none)
    (made : root.document stream.options = .ok document) :
    stream.write root = (.ok stream.written, stream.append document) := by
  simp only [write, Sink.write, made, Sink.accept, unbounded, Except.map, append]

/-- A call that fails in a sink with room for everything changes nothing. -/
theorem write_error {error : StreamError} (unbounded : stream.sink.capacity = none)
    (failed : (stream.write root).1 = .error error) : (stream.write root).2 = stream := by
  cases made : root.document stream.options with
  | error cause => rw [write_refused made]
  | ok document =>
    rw [write_accepted unbounded made] at failed
    contradiction

/-- A run appends the documents of its values. The calls answer where these start.

    The induction is on the values. A document that is appended moves the free byte to the
    start of the next one, and a refused value leaves it where it is. -/
theorem writeAll_eq (roots : List Value) (unbounded : stream.sink.capacity = none) :
    stream.writeAll roots = (answers stream.options roots stream.written,
      (documents stream.options roots).foldl append stream) := by
  induction roots generalizing stream with
  | nil => rfl
  | cons root rest ih =>
    cases made : root.document stream.options with
    | error cause =>
      simp only [writeAll, write_refused made, ih unbounded, answers, made, documents_of_error made]
    | ok document =>
      have later := @ih (stream.append document) unbounded
      simp only [writeAll, write_accepted unbounded made, later, answers, made,
        documents_of_ok made, List.foldl_cons]
      rfl

/-- Documents that are appended stand in a row behind what was written before. -/
theorem foldl_append (appended : List (List UInt8)) :
    appended.foldl append stream =
      ⟨⟨stream.sink.bytes ++ appended.flatten, stream.sink.capacity⟩, stream.options,
        stream.offsets ++ starts appended stream.written,
        stream.written + appended.flatten.length⟩ := by
  induction appended generalizing stream with
  | nil => simp [starts]
  | cons document rest ih => simp [ih, append, starts, Nat.add_assoc]

end Calls

/-- The successful answers are the starts of the documents. -/
theorem answers_starts (options : DocumentOptions) (roots : List Value) (free : Nat) :
    (answers options roots free).filterMap Except.toOption =
      starts (documents options roots) free := by
  induction roots generalizing free with
  | nil => rfl
  | cons root rest ih =>
    cases made : root.document options with
    | error cause =>
      rw [documents_of_error made, ← ih free]
      simp only [answers, made, List.filterMap_cons, Except.toOption]
    | ok document =>
      rw [documents_of_ok made, starts, ← ih (free + document.length)]
      simp only [answers, made, List.filterMap_cons, Except.toOption]

/-- Documents in a row stand where they start. -/
theorem starts_held (documents : List (List UInt8)) (before : List UInt8) :
    List.Forall₂ (HoldsAt (before ++ documents.flatten)) (starts documents before.length)
      documents := by
  induction documents generalizing before with
  | nil => exact .nil
  | cons document rest ih =>
    have later := ih (before ++ document)
    rw [List.length_append, List.append_assoc] at later
    refine .cons ?_ later
    rw [HoldsAt, List.drop_left' rfl]
    exact List.prefix_append _ _

/-- Documents that all end at multiples of a number start at multiples of it. -/
theorem starts_aligned {align free : Nat} {documents : List (List UInt8)} (first : align ∣ free)
    (whole : ∀ document ∈ documents, align ∣ document.length) :
    ∀ start ∈ starts documents free, align ∣ start := by
  induction documents generalizing free with
  | nil => simp [starts]
  | cons document rest ih =>
    obtain ⟨here, others⟩ := List.forall_mem_cons.mp whole
    exact List.forall_mem_cons.mpr ⟨first, ih (Nat.dvd_add first here) others⟩

/-- The answers and the stream that a run of calls leaves behind when nothing was written
    before. -/
structure Concatenates (options : DocumentOptions) (roots : List Value)
    (answered : List (Except StreamError Nat)) (stream : DocumentStream) : Prop where
  bytes : stream.sink.bytes = (documents options roots).flatten
  offsets : stream.offsets = starts (documents options roots) 0
  held : List.Forall₂ (HoldsAt stream.sink.bytes) stream.offsets (documents options roots)
  written : stream.written = stream.sink.bytes.length
  answers : answered = answers options roots 0
  returned : answered.filterMap Except.toOption = stream.offsets
  refused : ∀ root error, (stream.write root).1 = .error error → (stream.write root).2 = stream
  padded : options.isPadded = true → 0 < options.align → ∀ root ∈ roots, ∀ document,
    root.document options = .ok document → PaddedDocument options root document
  aligned : options.isPadded = true → 0 < options.align →
    ∀ offset ∈ stream.offsets, options.align ∣ offset

/-- Whatever is written, and whichever calls are refused, a stream with room for everything is
    the row of the documents that could be laid out. It tells where each of them starts, as the
    call that wrote it did. With padding on, they all start at multiples of the alignment. -/
theorem writeAll_concatenates (options : DocumentOptions) (roots : List Value) :
    Concatenates options roots ((start .unbounded options).writeAll roots).1
      ((start .unbounded options).writeAll roots).2 := by
  have unbounded : (start .unbounded options).sink.capacity = none := rfl
  have padded (isPadded : options.isPadded = true) (positive : 0 < options.align) (root : Value)
      (document : List UInt8) (made : root.document options = .ok document) :
      PaddedDocument options root document :=
    root.document_padded isPadded positive made
  rw [writeAll_eq roots unbounded, foldl_append]
  constructor
  case bytes => rfl
  case offsets => rfl
  case held => exact starts_held (documents options roots) []
  case written => exact Nat.zero_add _
  case answers => rfl
  case returned => exact answers_starts options roots 0
  case refused => exact fun root error failed => write_error rfl failed
  case padded => exact fun isPadded positive root _ => padded isPadded positive root
  case aligned =>
    intro isPadded positive
    refine starts_aligned (Nat.dvd_zero _) fun document present => ?_
    obtain ⟨root, -, made⟩ := mem_documents.mp present
    obtain ⟨blocks, padding, -, -, whole, -⟩ := padded isPadded positive root document made
    exact whole

/-- A bare reference between two documents is refused and leaves no trace. A blob of four bytes
    ends at a multiple of the alignment, and gets a whole unit of zeros. -/
theorem refusedBetween_concatenates :
    (start .unbounded .standard).writeAll
        [.char 0x41, .nullRef .null .w32, .ofBlob (.ofBytes [1, 2, 3, 4]), .char 0x42] =
      ([.ok 0, .error (.layout .unresolvedReference), .ok 4, .ok 12],
        ⟨⟨[0x41, 0, 0, 0, 1, 2, 3, 4, 0, 0, 0, 0, 0x42, 0, 0, 0], none⟩, .standard, [0, 4, 12], 16⟩) ∧
      Concatenates .standard
        [.char 0x41, .nullRef .null .w32, .ofBlob (.ofBytes [1, 2, 3, 4]), .char 0x42]
        [.ok 0, .error (.layout .unresolvedReference), .ok 4, .ok 12]
        ⟨⟨[0x41, 0, 0, 0, 1, 2, 3, 4, 0, 0, 0, 0, 0x42, 0, 0, 0], none⟩, .standard, [0, 4, 12], 16⟩ ∧
      ∀ offset ∈ [0, 4, 12], 4 ∣ offset := by
  have run := writeAll_concatenates .standard
    [.char 0x41, .nullRef .null .w32, .ofBlob (.ofBytes [1, 2, 3, 4]), .char 0x42]
  exact ⟨rfl, run, run.aligned rfl (by decide)⟩

end DocumentStream
end BinaryLayout
