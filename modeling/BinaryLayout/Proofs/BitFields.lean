import BinaryLayout.Proofs.Construction
import BinaryLayout.Proofs.FieldPacking

/-!
# Adding fields to a bit field and reading them

A caller adds fields by four calls, each of which judges its value at once: by its own width,
or by the width that all members of an enumeration share. The word is made later, from all
fields together. The law of this file connects the two: what was added under a name is read
back from the word by shifting, masking and, where the kind says so, zig-zag decoding.

A value and its declaration may also be kept as three lists that grow together: the widths of
the word, the declared fields, and the values. Every call gives the same answer on them and
leaves them in step.
-/

namespace BinaryLayout

/-- The number that bits denote: zig-zag numbered where the kind says so, and otherwise as they
    stand. -/
def FieldKind.interpret (kind : FieldKind) (bits : Nat) : Int :=
  if kind.isZigZag then (ZigZag.decode (UInt64.ofNat bits)).toInt else bits

/-- The number in a field of a word: the bits of its width from its shift upwards. -/
def BitFieldType.read? (type : BitFieldType) (word : UInt64) (index : Nat) : Option Int := do
  let field ← type.fields[index]?
  let shift ← type.word.shift? index
  return field.kind.interpret (word.toNat / 2 ^ shift % 2 ^ field.width.toNat)

/-- A member that is not below zero is stored as the number that it is. -/
theorem EnumMember.toNat_value {member : EnumMember}
    (positive : member.enumeration.hasNegative = false) :
    (member.value.toUInt64.toNat : Int) = member.value.toInt := by
  have above : ¬ member.value < 0 := by
    intro below
    have found : member.enumeration.hasNegative = true :=
      List.any_eq_true.mpr ⟨_, member.declared, decide_eq_true below⟩
    simp [positive] at found
  have nonnegative : 0 ≤ member.value.toInt := by
    simpa [Int64.lt_iff_toInt_lt] using above
  have cases := BitVec.toInt_eq_toNat_cond member.value.toBitVec
  have bound := member.value.toBitVec.isLt
  change (member.value.toBitVec.toNat : Int) = member.value.toBitVec.toInt
  change 0 ≤ member.value.toBitVec.toInt at nonnegative
  split at cases <;> omega

/-- Stored bits denote the number of the value. -/
theorem FieldValue.interpret_stored (value : FieldValue) :
    value.kind.interpret value.stored.toNat = value.number := by
  cases value with
  | unsigned value => rfl
  | signed value => simp [kind, FieldKind.interpret, FieldKind.isZigZag, stored, number,
      ZigZag.decode_encode]
  | member chosen =>
    cases signed : chosen.enumeration.hasNegative with
    | true => simp [kind, FieldKind.interpret, FieldKind.isZigZag, stored, number,
        EnumMember.bitValue, Enumeration.bitValue, signed, ZigZag.decode_encode]
    | false =>
      have same := EnumMember.toNat_value signed
      simpa [kind, FieldKind.interpret, FieldKind.isZigZag, stored, number,
        EnumMember.bitValue, Enumeration.bitValue, signed] using same

namespace WordFields

/-- In a number of stacked values each value stands above the room of those before it. -/
theorem stack_window {pairs : List (UInt64 × UInt32)} (fit : Fit pairs) {index : Nat}
    {value : UInt64} {width : UInt32} (found : pairs[index]? = some (value, width)) :
    stack pairs / 2 ^ room (pairs.take index) % 2 ^ width.toNat = value.toNat := by
  induction pairs generalizing index with
  | nil => simp at found
  | cons pair rest ih =>
    obtain ⟨first, below⟩ := pair
    have here : first.toNat < 2 ^ below.toNat := fit (first, below) (by simp)
    cases index with
    | zero =>
      obtain ⟨rfl, rfl⟩ : first = value ∧ below = width := by simpa using found
      simpa [room, stack] using Nat.mod_eq_of_lt here
    | succ index =>
      have above := @ih (fun tested present => fit tested (by simp [present])) index
        (by simpa using found)
      have gone : (first.toNat + 2 ^ below.toNat * stack rest) / 2 ^ below.toNat = stack rest := by
        rw [Nat.add_mul_div_left _ _ (Nat.two_pow_pos _), Nat.div_eq_of_lt here, Nat.zero_add]
      rw [List.take_succ_cons, room_cons, stack, Nat.pow_add, ← Nat.div_div_eq_div_mul, gone, above]

end WordFields

namespace BitField

/-- What a caller may ask of a bit field. -/
inductive Call where
  | add (name : String) (value : UInt64) (width : UInt32)
  | addFlag (name : String) (isSet : Bool)
  | addSigned (name : String) (value : Int64) (width : UInt32)
  | addMember (name : String) (member : EnumMember)
  deriving DecidableEq

namespace Call

/-- The field that a call adds. -/
def entry : Call → FieldEntry
  | add name value width => ⟨name, width, .unsigned value⟩
  | addFlag name isSet => ⟨name, 1, .unsigned (if isSet then 1 else 0)⟩
  | addSigned name value width => ⟨name, width, .signed value⟩
  | addMember name member =>
      ⟨name, UInt32.ofNat member.enumeration.requiredBits, .member member⟩

/-- The number that a call adds. -/
def number : Call → Int
  | add _ value _ => value.toNat
  | addFlag _ isSet => isSet.toNat
  | addSigned _ value _ => value.toInt
  | addMember _ member => member.value.toInt

/-- The value of the field is the number that was added. -/
theorem number_entry (call : Call) : call.entry.value.number = call.number := by
  cases call with
  | addFlag name isSet => cases isSet <;> rfl
  | _ => rfl

end Call

/-- Carry out one call. -/
def perform (field : BitField) : Call → Except LayoutError BitField
  | .add name value width => field.add name value width
  | .addFlag name isSet => field.addFlag name isSet
  | .addSigned name value width => field.addSigned name value width
  | .addMember name member => field.addMember name member

/-- Carry out calls one after another; the first refusal is reported. -/
def performAll (field : BitField) (calls : List Call) : Except LayoutError BitField :=
  calls.foldlM perform field

end BitField

/-- A declaration as two lists: the widths of its word, and the declared fields. -/
structure FieldLayout where
  name : String
  layout : WordFields
  fields : List FieldType

namespace FieldLayout

/-- Declare a bit field without fields. -/
def declare (name : String) (bits : UInt32) : Except LayoutError FieldLayout := do
  Identifier.validate name
  let layout ← (WordFields.ofBits bits).mapError (LayoutError.ofBits name)
  return ⟨name, layout, []⟩

/-- Push a width, and then the field that has it. -/
def push (declared : FieldLayout) (name : String) (kind : FieldKind) (width : UInt32) :
    Except LayoutError FieldLayout := do
  if declared.fields.any (·.name = name) then refuse (.duplicateMember declared.name name)
  else
    Identifier.validate name
    let (layout, _) ← (declared.layout.push width).mapError (LayoutError.ofBits declared.name)
    return ⟨declared.name, layout, declared.fields ++ [⟨name, kind, width⟩]⟩

/-- Position of a field. -/
def index? (declared : FieldLayout) (name : String) : Option Nat :=
  declared.fields.findIdx? (·.name = name)

/-- The number in a field of a word: its shift comes from the widths, its width and kind from the
    fields. -/
def read? (declared : FieldLayout) (word : UInt64) (index : Nat) : Option Int := do
  let field ← declared.fields[index]?
  let shift ← declared.layout.shift? index
  return field.kind.interpret (word.toNat / 2 ^ shift % 2 ^ field.width.toNat)

end FieldLayout

/-- A bit field as three lists: its values stand beside the two of the declaration. -/
structure FieldLists where
  type : FieldLayout
  entries : List FieldValue

namespace FieldLists

/-- Declare a bit field that has no fields yet. -/
def declare (name : String) (bits : UInt32) : Except LayoutError FieldLists := do
  return ⟨← FieldLayout.declare name bits, []⟩

/-- Judge stored bits by the width of their field. -/
def checkFits (lists : FieldLists) (stored : UInt64) (width : UInt32) : Except LayoutError Unit :=
  if Bits.fits stored width.toNat then .ok ()
  else .error (.bitField lists.type.name (.valueOverflow stored width.toNat))

/-- Push a field, and then its value. -/
def push (lists : FieldLists) (name : String) (kind : FieldKind) (width : UInt32)
    (value : FieldValue) : Except LayoutError FieldLists := do
  return ⟨← lists.type.push name kind width, lists.entries ++ [value]⟩

/-- Add an unsigned number. -/
def add (lists : FieldLists) (name : String) (value : UInt64) (width : UInt32) :
    Except LayoutError FieldLists := do
  lists.checkFits value width
  lists.push name .unsigned width (.unsigned value)

/-- Carry out one call. -/
def perform (lists : FieldLists) : BitField.Call → Except LayoutError FieldLists
  | .add name value width => lists.add name value width
  | .addFlag name isSet => lists.add name (if isSet then 1 else 0) 1
  | .addSigned name value width => do
      lists.checkFits (ZigZag.encode value) width
      lists.push name .signed width (.signed value)
  | .addMember name member =>
      lists.push name (.enum member.enumeration) (UInt32.ofNat member.enumeration.requiredBits)
        (.member member)

/-- The value at the position of a field. -/
def get? (lists : FieldLists) (name : String) : Option FieldValue := do
  lists.entries[← lists.type.index? name]?

/-- The word that stores all values. -/
def word (lists : FieldLists) : Except LayoutError UInt64 :=
  (lists.type.layout.pack (lists.entries.map (·.stored))).mapError
    (LayoutError.ofBits lists.type.name)

/-- The bytes of that word. -/
def bytes (lists : FieldLists) : Except LayoutError (List UInt8) := do
  return lists.type.layout.bytes (← lists.word)

/-- The three lists have the widths and the kinds of the fields, one by one. -/
structure InStep (lists : FieldLists) : Prop where
  widths : lists.type.layout.widths = lists.type.fields.map (·.width)
  kinds : lists.entries.map (·.kind) = lists.type.fields.map (·.kind)

end FieldLists

namespace BitField

/-- The three lists of a bit field. -/
def apart (field : BitField) : FieldLists :=
  ⟨⟨field.name, field.type.word, field.type.fields⟩, field.entries.map (·.value)⟩

section Apart

variable (field : BitField) (name : String)

theorem apart_inStep : field.apart.InStep :=
  ⟨rfl, by simp [apart, type]⟩

/-- A bit field without fields has no widths and no values. -/
theorem declare_apart (bits : UInt32) :
    FieldLists.declare name bits = (declare name bits).map apart := by
  rw [FieldLists.declare, FieldLayout.declare, declare, BitFieldType.declare]
  cases Identifier.validate name with
  | error refusal => rfl
  | ok done =>
    rw [WordFields.ofBits]
    cases WordWidth.ofBits? bits.toNat <;> rfl

/-- A field is pushed to all three lists, or to none. -/
theorem push_apart (width : UInt32) (value : FieldValue) :
    field.apart.push name value.kind width value = (field.push name width value).map apart := by
  rw [FieldLists.push, FieldLayout.push, push, BitFieldType.push]
  have fields : field.apart.type.fields = field.type.fields := rfl
  rw [fields]
  split
  · rfl
  · cases Identifier.validate name with
    | error refusal => rfl
    | ok done =>
      have layout : field.apart.type.layout = field.type.word := rfl
      rw [layout, WordFields.push]
      split
      · rfl
      · split
        · rfl
        · simp [apart, type, BitFieldType.word, Except.mapError, Except.map, bind, Except.bind,
            pure, Except.pure]

/-- A value that does not fit is refused before any list grows. -/
theorem pushFitting_apart (width : UInt32) (value : FieldValue) :
    (do field.apart.checkFits value.stored width
        field.apart.push name value.kind width value) =
      (field.pushFitting name width value).map apart := by
  rw [FieldLists.checkFits, pushFitting]
  split
  · exact field.push_apart name width value
  · rfl

/-- A call gives the same answer on the three lists. -/
theorem perform_apart (call : Call) :
    field.apart.perform call = (field.perform call).map apart := by
  cases call with
  | add name value width => exact field.pushFitting_apart name width (.unsigned value)
  | addFlag name isSet => exact field.pushFitting_apart name 1 (.unsigned (if isSet then 1 else 0))
  | addSigned name value width => exact field.pushFitting_apart name width (.signed value)
  | addMember name member => exact field.push_apart name _ (.member member)

/-- Calls give the same answer on the three lists. -/
theorem performAll_apart (calls : List Call) :
    calls.foldlM FieldLists.perform field.apart = (field.performAll calls).map apart := by
  induction calls generalizing field with
  | nil => rfl
  | cons call rest ih =>
    rw [performAll, List.foldlM_cons, List.foldlM_cons, perform_apart]
    cases field.perform call with
    | error refusal => rfl
    | ok next => exact ih next

/-- A value is found at the position of its field. -/
theorem get?_apart : field.apart.get? name = field.get? name := by
  have position : field.apart.type.index? name = field.entries.findIdx? (·.name = name) := by
    simp [FieldLayout.index?, apart, type, List.findIdx?_map, Function.comp_def]
  rw [FieldLists.get?, position, get?]
  show ((field.entries.findIdx? (·.name = name)).bind
    fun index => (field.entries.map (·.value))[index]?) = _
  induction field.entries with
  | nil => rfl
  | cons entry rest ih =>
    rw [List.findIdx?_cons, List.find?_cons]
    cases same : decide (entry.name = name) with
    | true => rfl
    | false => simpa [Option.bind_map] using ih

/-- The values pack to the same word. -/
theorem word_apart : field.apart.word = field.word := by
  rw [FieldLists.word, word]
  simp [apart, Function.comp_def]

theorem bytes_apart : field.apart.bytes = field.bytes := by
  rw [FieldLists.bytes, word_apart, bytes]
  cases field.word <;> rfl

end Apart

/-- A call that succeeds pushes its field, whose value fits. -/
theorem perform_eq_ok {field next : BitField} {call : Call}
    (performed : field.perform call = .ok next) :
    field.push call.entry.name call.entry.width call.entry.value = .ok next ∧
      Bits.fits call.entry.value.stored call.entry.width.toNat = true := by
  cases call with
  | add name value width => exact ⟨pushFitting_eq_ok performed, fits_of_pushFitting performed⟩
  | addFlag name isSet => exact ⟨pushFitting_eq_ok performed, fits_of_pushFitting performed⟩
  | addSigned name value width =>
    exact ⟨pushFitting_eq_ok performed, fits_of_pushFitting performed⟩
  | addMember name member => exact ⟨performed, member.fits_required⟩

/-- A field that is pushed has a new name. -/
theorem fresh_of_push {field next : BitField} {name : String} {width : UInt32}
    {value : FieldValue} (pushed : field.push name width value = .ok next) :
    name ∉ field.entries.map (·.name) := by
  obtain ⟨_, admitted, -⟩ := bind_eq_ok.mp pushed
  unfold BitFieldType.push at admitted
  split at admitted
  · simp [refuse] at admitted
  · rename_i fresh
    simpa [type] using fresh

/-- What every call keeps: values fit, names differ, and the word has room. -/
structure Packable (field : BitField) : Prop where
  fits : ∀ entry ∈ field.entries, Bits.fits entry.value.stored entry.width.toNat = true
  names : (field.entries.map (·.name)).Nodup
  room : field.type.word.used ≤ field.total.bits

/-- A bit field without fields is packable. -/
theorem declare_packable {name : String} {bits : UInt32} {field : BitField}
    (declared : declare name bits = .ok field) :
    field.Packable ∧ field.entries = [] ∧ field.total.bits = bits.toNat := by
  obtain ⟨type, made, kept⟩ := bind_eq_ok.mp declared
  obtain ⟨-, -, made⟩ := bind_eq_ok.mp made
  obtain ⟨word, sized, made⟩ := bind_eq_ok.mp made
  have sized := mapError_eq_ok.mp sized
  obtain rfl := Except.ok.inj made
  obtain rfl := Except.ok.inj kept
  refine ⟨⟨by simp, by simp, ?_⟩, rfl, ?_⟩
  · exact Nat.zero_le _
  · unfold WordFields.ofBits at sized
    split at sized
    · rename_i total found
      obtain rfl := Except.ok.inj sized
      exact WordWidth.bits_of_ofBits? found
    · cases sized

/-- A call adds its field behind the others. -/
theorem Packable.perform {field next : BitField} {call : Call} (packable : field.Packable)
    (performed : field.perform call = .ok next) :
    next.Packable ∧ next.entries = field.entries ++ [call.entry] ∧ next.total = field.total := by
  obtain ⟨pushed, fits⟩ := perform_eq_ok performed
  have fresh := fresh_of_push pushed
  obtain ⟨rfl, room⟩ := push_eq_ok pushed
  refine ⟨⟨?_, ?_, room⟩, rfl, rfl⟩
  · exact List.forall_mem_append.mpr ⟨packable.fits, by simpa using fits⟩
  · simpa [List.nodup_append] using ⟨packable.names, by simpa using fresh⟩

/-- Calls add their fields one behind the other. -/
theorem Packable.performAll {start field : BitField} {calls : List Call}
    (packable : start.Packable) (performed : start.performAll calls = .ok field) :
    field.Packable ∧ field.entries = start.entries ++ calls.map (·.entry) ∧
      field.total = start.total := by
  induction calls generalizing start with
  | nil =>
    obtain rfl : start = field := by simpa [BitField.performAll, pure, Except.pure] using performed
    exact ⟨packable, by simp, rfl⟩
  | cons call rest ih =>
    obtain ⟨next, first, later⟩ := bind_eq_ok.mp (by simpa [BitField.performAll] using performed)
    obtain ⟨before, added, same⟩ := packable.perform first
    obtain ⟨final, behind, kept⟩ := ih before later
    exact ⟨final, by simp [behind, added], kept.trans same⟩

variable {field : BitField}

/-- A packable bit field has a word: the number of its values, each above the ones before. -/
theorem Packable.exists_word (packable : field.Packable) :
    ∃ word, field.word = .ok word ∧
      field.type.word.pack (field.entries.map (·.value.stored)) = .ok word ∧
      WordFields.Fit field.pairs ∧ word.toNat = WordFields.stack field.pairs := by
  have zipped : (field.entries.map (·.value.stored)).zip field.type.word.widths = field.pairs := by
    simp [type, BitFieldType.word, pairs, List.zip_map']
  have fit : WordFields.Fit field.pairs := by
    intro pair present
    obtain ⟨entry, inside, rfl⟩ := List.mem_map.mp present
    exact Bits.fits_iff.mp (packable.fits entry inside)
  obtain ⟨word, packed⟩ := WordFields.exists_pack_iff.mpr
    ⟨by simp [type, BitFieldType.word], zipped.symm ▸ fit⟩
  have lies : field.type.word.used ≤ 64 := packable.room.trans field.total.bits_le
  obtain ⟨-, -, -, number⟩ := WordFields.pack_spec lies packed
  exact ⟨word, mapError_eq_ok.mpr packed, packed, fit, by rw [number, zipped]⟩

/-- A field of a packable bit field is found by its name. -/
theorem Packable.index?_eq (packable : field.Packable) {index : Nat} {entry : FieldEntry}
    (found : field.entries[index]? = some entry) : field.type.index? entry.name = some index := by
  obtain ⟨inside, rfl⟩ := List.getElem?_eq_some_iff.mp found
  have names := packable.names
  simp only [BitFieldType.index?, type, List.findIdx?_map, List.findIdx?_eq_some_iff_getElem]
  refine ⟨inside, by simp, fun earlier before same => ?_⟩
  have here : index < (field.entries.map (·.name)).length := by simpa using inside
  have there : earlier < (field.entries.map (·.name)).length := before.trans here
  have equal : (field.entries.map (·.name))[earlier] = (field.entries.map (·.name))[index] := by
    simpa using same
  exact absurd (names.getElem_inj_iff.mp equal) (by omega)

/-- A field is read from the word as its value. -/
theorem read?_eq (fit : WordFields.Fit field.pairs) {word : UInt64}
    (number : word.toNat = WordFields.stack field.pairs) {index : Nat}
    {entry : FieldEntry} (found : field.entries[index]? = some entry) :
    field.type.read? word index = some entry.value.number := by
  have inside : index < field.entries.length := (List.getElem?_eq_some_iff.mp found).choose
  have value : field.pairs[index]? = some (entry.value.stored, entry.width) := by
    simp [pairs, found]
  have declared : field.type.fields[index]? = some ⟨entry.name, entry.value.kind, entry.width⟩ := by
    simp [type, found]
  have shift : field.type.word.shift? index =
      some (WordFields.sum (field.type.word.widths.take index)) := by
    rw [WordFields.shift?, if_pos (by simp [type, BitFieldType.word]; omega)]
  have stands : WordFields.sum (field.type.word.widths.take index) =
      WordFields.room (field.pairs.take index) := by
    rw [WordFields.room, widths_type, List.map_take]
  simp only [BitFieldType.read?, declared, shift, stands, number, Option.bind_eq_bind,
    Option.bind_some, WordFields.stack_window fit value, FieldValue.interpret_stored]
  rfl

/-- What is added by calls is read back: the bit field has a word, the word lies in the used
    bits and so in the bytes, and under each name stands the number that was added. The same calls
    make three lists that are in step and lead to the same word, values and numbers. -/
theorem calls_read_back {name : String} {bits : UInt32} {start : BitField} {calls : List Call}
    (declared : declare name bits = .ok start) (performed : start.performAll calls = .ok field) :
    ∃ word, field.word = .ok word ∧
      (word.toNat < 2 ^ field.type.word.used ∧
        field.type.word.used ≤ field.total.bits ∧ field.total.bits = bits.toNat) ∧
      (∀ position, field.type.word.used ≤ position →
        word.toNat.testBit position = false) ∧
      (∃ bytes, field.bytes = .ok bytes ∧ bytes.length = field.total.bytes ∧
        Bytes.ofLittleEndian bytes = word.toNat) ∧
      field.type.fields.length = calls.length ∧
      (∀ index call, calls[index]? = some call →
        field.type.index? call.entry.name = some index ∧
          field.type.read? word index = some call.number) ∧
      ∃ lists, (FieldLists.declare name bits >>= calls.foldlM FieldLists.perform) = .ok lists ∧
        lists.InStep ∧ lists.word = .ok word ∧ lists.bytes = field.bytes ∧
        lists.get? = field.get? ∧ ∀ index call, calls[index]? = some call →
          lists.type.index? call.entry.name = some index ∧
            lists.get? call.entry.name = some call.entry.value ∧
            lists.type.read? word index = some call.number := by
  obtain ⟨initial, empty, size⟩ := declare_packable declared
  obtain ⟨packable, entries, kept⟩ := initial.performAll performed
  rw [empty, List.nil_append] at entries
  obtain ⟨word, made, packed, fit, number⟩ := packable.exists_word
  have lossless : field.type.word.Lossless := WordFields.lossless_of_used_le packable.room
  have below := lossless.below packed
  have found {index : Nat} {call : Call} (asked : calls[index]? = some call) :
      field.entries[index]? = some call.entry := by simp [entries, asked]
  have each (index : Nat) (call : Call) (asked : calls[index]? = some call) :
      field.type.index? call.entry.name = some index ∧
        field.type.read? word index = some call.number :=
    ⟨packable.index?_eq (found asked), by rw [read?_eq fit number (found asked), call.number_entry]⟩
  refine ⟨word, made, ⟨below, packable.room, kept ▸ size⟩, fun position above => ?_,
    ⟨field.type.word.bytes word, by rw [BitField.bytes, made]; rfl, ?_, lossless.stored packed⟩,
    by simp [type, entries], fun index call asked => ?_, field.apart, ?_, field.apart_inStep,
    field.word_apart.trans made, field.bytes_apart, funext field.get?_apart,
    fun index call asked => ?_⟩
  · exact Nat.testBit_lt_two_pow (below.trans_le (Nat.pow_le_pow_right (by decide) above))
  · simp [WordFields.bytes, type, BitFieldType.word]
  · exact each index call asked
  · rw [declare_apart, declared]
    exact (start.performAll_apart calls).trans (by rw [performed]; rfl)
  · obtain ⟨place, read⟩ := each index call asked
    have position : field.apart.type.index? call.entry.name = some index := place
    refine ⟨place, ?_, read⟩
    rw [FieldLists.get?, position]
    simp [apart, found asked]

/-- A number, a flag, a number below zero, a field without bits and a member of an enumeration
    that has members below zero. -/
def mixedCalls : List Call :=
  [.add "a" 5 3, .addFlag "b" true, .addSigned "c" (-2) 3, .add "z" 0 0,
    .addMember "d" ⟨⟨"Sign", .int .int32, [("minus", -3), ("plus", 2)]⟩, "minus", -3, .head _⟩]

/-- All kinds of fields are read back from one word. -/
theorem mixed_calls_read_back :
    declare "F" 16 = .ok ⟨"F", .w16, []⟩ ∧
      performAll ⟨"F", .w16, []⟩ mixedCalls = .ok ⟨"F", .w16, mixedCalls.map (·.entry)⟩ ∧
      ∃ word, BitField.word ⟨"F", .w16, mixedCalls.map (·.entry)⟩ = .ok word ∧
        ∀ index call, mixedCalls[index]? = some call →
          BitFieldType.read? (type ⟨"F", .w16, mixedCalls.map (·.entry)⟩) word index =
            some call.number := by
  have declared : declare "F" 16 = .ok ⟨"F", .w16, []⟩ := by rfl
  have performed : performAll ⟨"F", .w16, []⟩ mixedCalls =
      .ok ⟨"F", .w16, mixedCalls.map (·.entry)⟩ := by rfl
  obtain ⟨word, made, -, -, -, -, each, -⟩ := calls_read_back declared performed
  exact ⟨declared, performed, word, made,
    fun index call asked => (each index call asked).2⟩

end BitField
end BinaryLayout
