import BinaryLayout.Proofs.Sizes

/-!
# Where bytes come from

Every byte of a packed value has an origin: a blob or a bit field array writes bits, the zeros in
front of a target align it, the zeros behind elements fill a fixed size up, and all other bytes
are plain. A trail is the packed bytes with their origins. Packing itself keeps only one flag
for each run of bytes, which is to tell whether the last one holds bits. It does, except that a
blob of no bytes sets it, too: alone, or behind the zeros that align it.
-/

namespace BinaryLayout

namespace Value

/-- A blob that is packed into no bytes. -/
def isEmptyBlob : Value → Bool
  | blob fixed _ content => content.bytes.isEmpty && fixed.getD 0 == 0
  | _ => false

end Value

/-- Where a byte of a packed value comes from. -/
inductive Origin where
  /-- A blob or a bit field array. -/
  | bits
  /-- The alignment of the target of a reference. -/
  | padding (target : Value)
  /-- The places of an array or a struct that nothing was stored in. -/
  | fill
  /-- Any other value. -/
  | plain

/-- A byte and where it comes from. -/
structure MarkedByte where
  byte : UInt8
  origin : Origin

/-- Bytes of one origin. -/
def Origin.mark (origin : Origin) (bytes : List UInt8) : List MarkedByte :=
  bytes.map (⟨·, origin⟩)

/-- The origin of the last byte, if there is one. -/
def lastOrigin (trail : List MarkedByte) : Option Origin :=
  trail.getLast?.map (·.origin)

/-- The bytes of a value in place, and those its references point into, with their origins. -/
structure Trails where
  inPlace : List MarkedByte
  referred : List MarkedByte

namespace Trails

/-- Bytes of one origin that refer to nothing. -/
def ofBytes (origin : Origin) (bytes : List UInt8) : Trails :=
  ⟨origin.mark bytes, []⟩

/-- Both trails, the referred bytes behind those in place. -/
def whole (trails : Trails) : List MarkedByte :=
  trails.inPlace ++ trails.referred

/-- The trails of parts stored one behind the other. -/
def join (parts : List Trails) : Trails :=
  ⟨parts.flatMap (·.inPlace), parts.flatMap (·.referred)⟩

/-- Fill the bytes in place up with zeros. -/
def fill (trails : Trails) (length : Nat) : Trails :=
  ⟨trails.inPlace ++ Origin.fill.mark (List.replicate (length - trails.inPlace.length) 0),
    trails.referred⟩

end Trails

namespace Value

/-- The trail of a value that is packed on its own. -/
def trailWhole (value : Value) (trailsAt : Nat → Except LayoutError Trails) :
    Except LayoutError (List MarkedByte) := do
  let size ← value.size
  if value.isRef then .error .unresolvedReference
  else return (← trailsAt size).whole

/-- The trails of a reference: the zeros that align its target come from the target. -/
def trailRef (width : RefWidth) (target : Value) (offset : Nat)
    (trail : Except LayoutError (List MarkedByte)) : Except LayoutError Trails := do
  let padding := gap offset target.type.align
  let start ← checked .overflow (offset + padding)
  let data ← trail
  let stored ← width.kind.encode start
  return ⟨Origin.plain.mark stored, (Origin.padding target).mark (List.replicate padding 0) ++ data⟩

mutual

/-- The trails of a value that is packed at an offset. -/
def trailsAt : Value → (offset : Nat) → Except LayoutError Trails
  | int integer, _ => .ok (.ofBytes .plain integer.bytes)
  | char byte, _ => .ok (.ofBytes .plain [byte])
  | null, _ => .ok ⟨[], []⟩
  | ref target width, offset => trailRef width target offset (trailWhole target (trailsAt target))
  | nullRef _ width, _ => .ok (.ofBytes .plain (width.kind.store 0))
  | array element fixed align items, offset => do
      let parts ← trailItems items 0 offset
      let size ← (array element fixed align items).size
      return (Trails.join parts).fill size
  | text content, _ => .ok ((Trails.ofBytes .plain content.bytes).fill (content.fixed.getD 0))
  | blob fixed _ content, _ => .ok ((Trails.ofBytes .bits content.bytes).fill (fixed.getD 0))
  | refTable target fixed width items, offset => do
      let parts ← trailEntries width items offset
      let size ← (refTable target fixed width items).size
      return (Trails.join parts).fill size
  | bitField field, _ => field.bytes.map (Trails.ofBytes .plain)
  | bitTable table, _ => table.bytes.map (Trails.ofBytes .bits)
  | enum chosen, _ => .ok (.ofBytes .plain chosen.bytes)
  | struct ⟨_, members, _, size, _, _⟩, offset => do
      let parts ← trailMembers members 0 offset
      let size ← match size with
        | some size => .ok size
        | none => membersSize 0 members
      return (Trails.join parts).fill size

/-- The trails of the items of an array. -/
def trailItems : List Value → (position running : Nat) → Except LayoutError (List Trails)
  | [], _, _ => .ok []
  | item :: rest, position, running => do
      let part ← trailsAt item (← rebase running position)
      let running ← checked .overflow (running + part.referred.length)
      let parts ← trailItems rest (position + part.inPlace.length) running
      return part :: parts

/-- The trails of the entries of a reference table. -/
def trailEntries (width : RefWidth) : List Value → (running : Nat) →
    Except LayoutError (List Trails)
  | [], _ => .ok []
  | item :: rest, running => do
      let part ←
        if item.isNull then .ok (.ofBytes .plain (width.kind.store 0))
        else trailRef width item running (trailWhole item (trailsAt item))
      let running ← checked .overflow (running + part.referred.length)
      let parts ← trailEntries width rest running
      return part :: parts

/-- The trails of the members of a struct. -/
def trailMembers : List (Member Value) → (position running : Nat) →
    Except LayoutError (List Trails)
  | [], _, _ => .ok []
  | ⟨_, _, value, _⟩ :: rest, position, running => do
      let part ← trailsAt value (← if value.isRef then .ok running else rebase running position)
      let running ← checked .overflow (running + part.referred.length)
      let parts ← trailMembers rest (position + part.inPlace.length) running
      return part :: parts

end

/-- The bytes of a document with their origins. -/
def trail (value : Value) : Except LayoutError (List MarkedByte) :=
  trailWhole value value.trailsAt

end Value

/-- Packing takes a byte of this origin for one that holds bits. That is wrong for the zeros
    that align a blob of no bytes. -/
def Origin.isFlagged : Origin → Bool
  | bits => true
  | padding target => target.isEmptyBlob
  | fill => false
  | plain => false

/-- How the flag of a run with this trail is set, given the flag of what it is appended to. -/
def flag (before : Bool) (trail : List MarkedByte) : Bool :=
  ((lastOrigin trail).map Origin.isFlagged).getD before

section Flags

variable {before : Bool} {first second : List MarkedByte}

@[simp] theorem flag_nil (before : Bool) : flag before [] = before := rfl

theorem flag_append (before : Bool) (first second : List MarkedByte) :
    flag before (first ++ second) = flag (flag before first) second := by
  simp only [flag, lastOrigin, List.getLast?_append]
  cases second.getLast? <;> rfl

/-- What a trail that has bytes is appended to does not matter. -/
theorem flag_of_ne_nil (present : first ≠ []) (before after : Bool) :
    flag before first = flag after first := by
  simp [flag, lastOrigin, List.getLast?_eq_some_getLast present]

theorem flag_mark (before : Bool) (origin : Origin) {bytes : List UInt8} (present : bytes ≠ []) :
    flag before (origin.mark bytes) = origin.isFlagged := by
  simp [flag, lastOrigin, Origin.mark, List.getLast?_map, List.getLast?_eq_some_getLast present]

/-- Bytes of one origin leave the flag of that origin, also if there are none. -/
theorem flag_mark_self (origin : Origin) (bytes : List UInt8) :
    flag origin.isFlagged (origin.mark bytes) = origin.isFlagged := by
  by_cases none : bytes = []
  · rw [none]
    rfl
  · exact flag_mark _ _ none

@[simp] theorem Origin.mark_bytes (origin : Origin) (bytes : List UInt8) :
    (origin.mark bytes).map (·.byte) = bytes := by
  simp [mark, Function.comp_def]

end Flags

/-- An encoded bit field array has a header. -/
theorem BitTable.bytes_ne_nil (table : BitTable) {bytes : List UInt8}
    (packed : table.bytes = .ok bytes) : bytes ≠ [] := by
  obtain ⟨widths, grid, computed, -⟩ := Table.encode_eq_ok (mapError_eq_ok.mp packed)
  have length := Table.length_encode computed (mapError_eq_ok.mp packed)
  apply List.ne_nil_of_length_pos
  rw [length, Table.encodedLength, Table.headerLength]
  omega

/-- A reference is stored in some bytes. -/
theorem RefWidth.store_ne_nil (width : RefWidth) (value : Int) : width.kind.store value ≠ [] := by
  apply List.ne_nil_of_length_pos
  rw [IntKind.length_store]
  exact width.bytes_pos

/-- A trail has the bytes of a run, and the run ends as it says if it has any. -/
structure Run.Follows (run : Run) (trail : List MarkedByte) : Prop where
  bytes : trail.map (·.byte) = run.bytes
  ends : trail ≠ [] → run.endsInBits = flag false trail

namespace Run.Follows

variable {run : Run} {trail : List MarkedByte}

theorem length (follows : run.Follows trail) : trail.length = run.bytes.length := by
  rw [← follows.bytes, List.length_map]

theorem isEmpty (follows : run.Follows trail) : run.bytes.isEmpty = trail.isEmpty := by
  rw [← follows.bytes, List.isEmpty_map]

/-- Runs that are joined end as their trails do together.

    The induction is on the runs. Each of them hands on how the bytes so far end: as it ends
    itself, or as before if it has no bytes. -/
theorem foldl {runs : List Run} {trails : List (List MarkedByte)}
    (follow : List.Forall₂ Run.Follows runs trails) (before : Bool) :
    runs.foldl (fun ends run => if run.bytes.isEmpty then ends else run.endsInBits) before =
      flag before trails.flatten := by
  induction follow generalizing before with
  | nil => rfl
  | @cons run trail runs trails first _ ih =>
    rw [List.foldl_cons, ih, List.flatten_cons, flag_append, first.isEmpty]
    cases trail with
    | nil => rfl
    | cons mark rest =>
      have present : mark :: rest ≠ [] := List.cons_ne_nil mark rest
      rw [first.ends present, flag_of_ne_nil present before false]
      rfl

theorem flatten {runs : List Run} {trails : List (List MarkedByte)}
    (follow : List.Forall₂ Run.Follows runs trails) :
    trails.flatten.map (·.byte) = runs.flatMap (·.bytes) := by
  induction follow with
  | nil => rfl
  | cons first _ ih =>
    rw [List.flatten_cons, List.map_append, first.bytes, ih, List.flatMap_cons]

/-- Joined runs follow the joined trails. They end in no bits if they have no bytes. -/
theorem join {parts : List Blocks} {trails : List Trails} {run : Blocks → Run}
    {trail : Trails → List MarkedByte}
    (follow : List.Forall₂ (fun part trails => (run part).Follows (trail trails)) parts trails) :
    (trails.flatMap trail).map (·.byte) = (Run.join (parts.map run)).bytes ∧
      (Run.join (parts.map run)).endsInBits = flag false (trails.flatMap trail) := by
  have runs : List.Forall₂ Run.Follows (parts.map run) (trails.map trail) := by
    rwa [List.forall₂_map_left_iff, List.forall₂_map_right_iff]
  rw [List.flatMap_def]
  exact ⟨flatten runs, foldl runs false⟩

/-- Zeros that fill a run up end the bits. -/
theorem fill (bytes : trail.map (·.byte) = run.bytes) {before : Bool}
    (ends : run.endsInBits = flag before trail) (length : Nat) :
    (trail ++ Origin.fill.mark (List.replicate (length - trail.length) 0)).map (·.byte) =
        (run.fill length).bytes ∧
      (run.fill length).endsInBits =
        flag before (trail ++ Origin.fill.mark (List.replicate (length - trail.length) 0)) := by
  have same : trail.length = run.bytes.length := by rw [← bytes, List.length_map]
  refine ⟨by simp [bytes, same], ?_⟩
  by_cases short : run.bytes.length < length
  · have present : List.replicate (length - trail.length) (0 : UInt8) ≠ [] := by
      rw [same, ne_eq, List.replicate_eq_nil_iff]
      omega
    rw [flag_append, flag_mark _ _ present, Run.fill, if_pos short]
    rfl
  · have full : length - trail.length = 0 := by omega
    simp [full, Run.fill, short, ends, Origin.mark]

end Run.Follows

namespace Value

/-- Trails have the bytes of blocks and say how these end. -/
structure Parts (blocks : Blocks) (trails : Trails) : Prop where
  inPlace : blocks.inPlace.Follows trails.inPlace
  referred : blocks.referred.Follows trails.referred

/-- The same for the blocks of a value. No bytes in place end in bits if the value is a blob. -/
structure Traced (value : Value) (blocks : Blocks) (trails : Trails) : Prop
    extends Parts blocks trails where
  empty : trails.inPlace = [] → blocks.inPlace.endsInBits = value.isEmptyBlob

/-- Wherever it is packed, a value has trails. -/
def Traceable (value : Value) : Prop :=
  ∀ offset blocks, value.packAt offset = .ok blocks →
    ∃ trails, value.trailsAt offset = .ok trails ∧ Traced value blocks trails

/-- An entry of a reference table at the free byte. -/
def trailEntry (width : RefWidth) (item : Value) (running : Nat) : Except LayoutError Trails :=
  if item.isNull then .ok (.ofBytes .plain (width.kind.store 0))
  else trailRef width item running (trailWhole item (trailsAt item))

section Packing

variable {value target : Value} {blocks : Blocks} {trails : Trails} {width : RefWidth}
  {offset position running : Nat} {parts : List Blocks}

/-- The flag of a value's bytes in place. -/
theorem Traced.ends (traced : Traced value blocks trails) :
    blocks.inPlace.endsInBits = flag value.isEmptyBlob trails.inPlace := by
  by_cases present : trails.inPlace = []
  · rw [traced.empty present, present, flag_nil]
  · rw [traced.inPlace.ends present, flag_of_ne_nil present]

/-- A value on its own ends as its trail does. -/
theorem Traced.whole (traced : Traced value blocks trails) :
    trails.whole.map (·.byte) = blocks.bytes ∧
      blocks.endsInBits = flag value.isEmptyBlob trails.whole := by
  refine ⟨by rw [Trails.whole, List.map_append, traced.inPlace.bytes, traced.referred.bytes]; rfl, ?_⟩
  rw [Trails.whole, flag_append, ← traced.ends, Blocks.endsInBits, traced.referred.isEmpty]
  cases referred : trails.referred with
  | nil => rfl
  | cons mark rest =>
    have present : trails.referred ≠ [] := by simp [referred]
    rw [← referred, traced.referred.ends present,
      flag_of_ne_nil present false blocks.inPlace.endsInBits]
    simp [present]

/-- A traceable value is traced when it is packed on its own. -/
theorem Traceable.whole (traceable : value.Traceable)
    (packed : packWhole value value.packAt = .ok blocks) :
    ∃ trail, trailWhole value value.trailsAt = .ok trail ∧ trail.map (·.byte) = blocks.bytes ∧
      blocks.endsInBits = flag value.isEmptyBlob trail := by
  obtain ⟨size, inner, sized, direct, stored, rfl⟩ := packWhole_eq_ok.mp packed
  obtain ⟨trails, followed, traced⟩ := traceable size inner stored
  obtain ⟨bytes, ends⟩ := traced.whole
  refine ⟨trails.whole, ?_, ?_, ?_⟩
  · simp [trailWhole, sized, direct, followed, bind, Except.bind, pure, Except.pure]
  · simpa [Blocks.combine, Blocks.bytes, Run.empty] using bytes
  · simpa [Blocks.combine, Blocks.endsInBits, Run.empty] using ends

/-- Bytes of one origin are traced, also if there are none. -/
theorem traced_bytes (origin : Origin) (bytes : List UInt8)
    (empty : bytes = [] → origin.isFlagged = value.isEmptyBlob) :
    Traced value ⟨⟨bytes, origin.isFlagged⟩, .empty⟩ (.ofBytes origin bytes) := by
  refine ⟨⟨⟨Origin.mark_bytes _ _, fun present => ?_⟩, ⟨rfl, nofun⟩⟩, fun absent => ?_⟩
  · have some : bytes ≠ [] := by simpa [Trails.ofBytes, Origin.mark] using present
    exact (flag_mark false origin some).symm
  · exact empty (List.map_eq_nil_iff.mp absent)

/-- Bytes of one origin are traced when they are filled up with zeros. -/
theorem traced_filled (origin : Origin) (bytes : List UInt8) (length : Nat)
    (empty : bytes = [] → length = 0 → origin.isFlagged = value.isEmptyBlob) :
    Traced value ((⟨⟨bytes, origin.isFlagged⟩, .empty⟩ : Blocks).fill length)
      ((Trails.ofBytes origin bytes).fill length) := by
  have unfilled : flag origin.isFlagged (origin.mark bytes) = origin.isFlagged :=
    flag_mark_self origin bytes
  have marked : (origin.mark bytes).map (·.byte) = (⟨bytes, origin.isFlagged⟩ : Run).bytes :=
    origin.mark_bytes bytes
  obtain ⟨filled, ends⟩ := Run.Follows.fill marked unfilled.symm length
  refine ⟨⟨⟨filled, fun present => ?_⟩, ⟨rfl, nofun⟩⟩, fun absent => ?_⟩
  · exact ends.trans (flag_of_ne_nil present _ _)
  · obtain ⟨none, short⟩ := List.append_eq_nil_iff.mp absent
    have none : bytes = [] := List.map_eq_nil_iff.mp none
    have short : length = 0 := by simpa [Origin.mark, Trails.ofBytes, none] using short
    rw [← empty none short]
    exact ends.trans (congrArg (flag origin.isFlagged) absent)

/-- A reference is traced when its target is. -/
theorem Traceable.ref (traceable : target.Traceable)
    (resolved : resolve width target.type.align offset (packWhole target target.packAt) =
      .ok blocks) :
    ∃ trails, trailRef width target offset (trailWhole target target.trailsAt) = .ok trails ∧
      Parts blocks trails ∧ trails.inPlace ≠ [] := by
  obtain ⟨data, packed, inRange, rfl⟩ := resolve_eq_ok.mp resolved
  obtain ⟨trail, followed, bytes, ends⟩ := traceable.whole packed
  have encoded := IntKind.encode_eq_ok.mpr ⟨inRange, rfl⟩
  have small : checked LayoutError.overflow (offset + gap offset target.type.align) = .ok _ :=
    checked_of_lt (lt_of_contains inRange)
  have place := width.store_ne_nil ((offset + gap offset target.type.align : Nat) : Int)
  generalize width.kind.store _ = stored at encoded place ⊢
  refine ⟨⟨Origin.plain.mark stored, (Origin.padding target).mark (List.replicate
    (gap offset target.type.align) 0) ++ trail⟩, ?_, ⟨⟨?_, ?_⟩, ⟨?_, ?_⟩⟩, ?_⟩
  · simp only [trailRef, small, followed, encoded, bind, Except.bind, pure, Except.pure]
  · exact Origin.mark_bytes _ _
  · exact fun _ => (flag_mark false .plain place).symm
  · simp [bytes]
  · intro present
    rw [flag_of_ne_nil present false target.isEmptyBlob, flag_append]
    exact ends.trans (congrArg (flag · trail) (flag_mark_self (.padding target) _).symm)
  · simpa [Origin.mark] using place

/-- The entry of a reference table is traced when its target is. -/
theorem Traceable.entry (traceable : value.Traceable)
    (packed : packEntry width value running = .ok blocks) :
    ∃ trails, trailEntry width value running = .ok trails ∧ Parts blocks trails := by
  unfold packEntry at packed
  unfold trailEntry
  split at packed
  case isTrue absent =>
    obtain rfl := Except.ok.inj packed
    have plain : Traced .null _ _ := traced_bytes .plain (width.kind.store 0) fun _ => rfl
    exact ⟨_, if_pos absent, plain.toParts⟩
  case isFalse given =>
    obtain ⟨trails, followed, traced, -⟩ := traceable.ref packed
    exact ⟨trails, by rw [if_neg given, followed], traced⟩

/-- Items in a row are traced when each of them is. -/
theorem trailItems_of_packItems {items : List Value} (traceable : ∀ item ∈ items, item.Traceable)
    (packed : packItems items position running = .ok parts) :
    ∃ trails, trailItems items position running = .ok trails ∧
      List.Forall₂ Parts parts trails := by
  induction items generalizing position running parts with
  | nil =>
    obtain rfl : parts = [] := by simpa [packItems, eq_comm] using packed
    exact ⟨[], rfl, .nil⟩
  | cons item rest ih =>
    obtain ⟨part, later, first, others, rfl, behind, held⟩ := packItems_cons.mp packed
    rw [List.forall_mem_cons] at traceable
    obtain ⟨trails, followed, traced⟩ := traceable.1 _ _ first
    rw [← traced.inPlace.length, ← traced.referred.length] at others
    rw [← traced.referred.length] at held
    obtain ⟨remaining, followed', related⟩ := ih traceable.2 others
    refine ⟨trails :: remaining, ?_, .cons traced.toParts related⟩
    simp only [trailItems, rebase_of_le behind, followed, checked_of_lt held, followed', bind,
      Except.bind, pure, Except.pure]

theorem trailEntries_cons {item : Value} {rest : List Value} {part : Trails} {later : List Trails}
    (first : trailEntry width item running = .ok part)
    (others : trailEntries width rest (running + part.referred.length) = .ok later)
    (held : running + part.referred.length < addressSpace) :
    trailEntries width (item :: rest) running = .ok (part :: later) := by
  cases absent : item.isNull <;>
    simp_all [trailEntry, trailEntries, checked, bind, Except.bind, pure, Except.pure]

/-- Entries in a row are traced when each target is. -/
theorem trailEntries_of_packEntries {items : List Value}
    (traceable : ∀ item ∈ items, item.Traceable)
    (packed : packEntries width items running = .ok parts) :
    ∃ trails, trailEntries width items running = .ok trails ∧ List.Forall₂ Parts parts trails := by
  induction items generalizing running parts with
  | nil =>
    obtain rfl : parts = [] := by simpa [packEntries, eq_comm] using packed
    exact ⟨[], rfl, .nil⟩
  | cons item rest ih =>
    obtain ⟨part, later, first, others, rfl, held⟩ := packEntries_cons.mp packed
    rw [List.forall_mem_cons] at traceable
    obtain ⟨trails, followed, traced⟩ := traceable.1.entry first
    rw [← traced.referred.length] at others held
    obtain ⟨remaining, followed', related⟩ := ih traceable.2 others
    exact ⟨trails :: remaining, trailEntries_cons followed followed' held, .cons traced related⟩

/-- Members in a row are traced when each of them is. -/
theorem trailMembers_of_packMembers {members : List (Member Value)}
    (traceable : ∀ member ∈ members, member.content.Traceable)
    (packed : packMembers members position running = .ok parts) :
    ∃ trails, trailMembers members position running = .ok trails ∧
      List.Forall₂ Parts parts trails := by
  induction members generalizing position running parts with
  | nil =>
    obtain rfl : parts = [] := by simpa [packMembers, eq_comm] using packed
    exact ⟨[], rfl, .nil⟩
  | cons member rest ih =>
    obtain ⟨part, later, first, others, rfl, behind, held⟩ := packMembers_cons.mp packed
    rw [List.forall_mem_cons] at traceable
    obtain ⟨trails, followed, traced⟩ := traceable.1 _ _ first
    rw [← traced.inPlace.length, ← traced.referred.length] at others
    rw [← traced.referred.length] at held
    obtain ⟨remaining, followed', related⟩ := ih traceable.2 others
    refine ⟨trails :: remaining, ?_, .cons traced.toParts related⟩
    cases direct : member.content.isRef with
    | true =>
      rw [direct, if_pos rfl] at followed
      simp only [trailMembers, direct, if_true, followed, checked_of_lt held, followed', bind,
        Except.bind, pure, Except.pure]
    | false =>
      rw [direct, if_neg nofun] at followed
      simp only [trailMembers, direct, Bool.false_eq_true, if_false, rebase_of_le (behind direct),
        followed, checked_of_lt held, followed', bind, Except.bind, pure, Except.pure]

/-- Parts stored one behind the other and filled up are traced together. -/
theorem traced_of_parts {trails : List Trails} (related : List.Forall₂ Parts parts trails)
    (size : Nat) (container : value.isEmptyBlob = false) :
    Traced value ((Blocks.join parts).fill size) ((Trails.join trails).fill size) := by
  have inPlace := Run.Follows.join (related.imp fun _ _ part => part.inPlace)
  have referred := Run.Follows.join (related.imp fun _ _ part => part.referred)
  obtain ⟨bytes, ends⟩ := Run.Follows.fill inPlace.1 inPlace.2 size
  refine ⟨⟨⟨bytes, fun _ => ends⟩, ⟨referred.1, fun _ => referred.2⟩⟩, fun absent => ?_⟩
  rw [container]
  change _ = flag false [] 
  rw [← absent]
  exact ends

/-- Wherever it is packed, a value has trails.

    The induction is on the value: its parts are traced one by one, and what is packed in them
    decides together how their joined bytes end. -/
theorem traceable (value : Value) : value.Traceable := by
  induction value using Value.induction <;> intro offset blocks packed
  case int integer =>
    obtain rfl := Except.ok.inj packed
    exact ⟨_, rfl, traced_bytes .plain _ fun _ => rfl⟩
  case char byte =>
    obtain rfl := Except.ok.inj packed
    exact ⟨_, rfl, traced_bytes .plain _ fun _ => rfl⟩
  case null =>
    obtain rfl := Except.ok.inj packed
    exact ⟨_, rfl, traced_bytes .plain [] fun _ => rfl⟩
  case ref target width ih =>
    obtain ⟨trails, followed, parts, present⟩ := ih.ref packed
    exact ⟨trails, followed, parts, fun absent => absurd absent present⟩
  case nullRef target width =>
    obtain rfl := Except.ok.inj packed
    exact ⟨_, rfl, traced_bytes .plain _ fun _ => rfl⟩
  case array element fixed align items ih =>
    simp only [packAt, bind_eq_ok, pure, Except.pure, Except.ok.injEq] at packed
    obtain ⟨parts, stored, size, sized, rfl⟩ := packed
    obtain ⟨trails, followed, related⟩ := trailItems_of_packItems ih stored
    refine ⟨(Trails.join trails).fill size, ?_, traced_of_parts related size rfl⟩
    simp only [trailsAt, followed, sized, bind, Except.bind, pure, Except.pure]
  case text content =>
    obtain rfl := Except.ok.inj packed
    exact ⟨_, rfl, traced_filled .plain _ _ fun _ _ => rfl⟩
  case blob fixed align content =>
    obtain rfl := Except.ok.inj packed
    refine ⟨_, rfl, traced_filled .bits _ _ fun none unfilled => ?_⟩
    simp [isEmptyBlob, none, unfilled, Origin.isFlagged]
  case refTable target fixed width items ih =>
    simp only [packAt, bind_eq_ok, pure, Except.pure, Except.ok.injEq] at packed
    obtain ⟨parts, stored, size, sized, rfl⟩ := packed
    obtain ⟨trails, followed, related⟩ := trailEntries_of_packEntries ih stored
    refine ⟨(Trails.join trails).fill size, ?_, traced_of_parts related size rfl⟩
    simp only [trailsAt, followed, sized, bind, Except.bind, pure, Except.pure]
  case bitField field =>
    obtain ⟨bytes, stored, rfl⟩ := map_eq_ok.mp packed
    refine ⟨.ofBytes .plain bytes, ?_, traced_bytes .plain bytes fun _ => rfl⟩
    simp only [trailsAt, stored, Except.map]
  case bitTable table =>
    obtain ⟨bytes, stored, rfl⟩ := map_eq_ok.mp packed
    refine ⟨.ofBytes .bits bytes, ?_, traced_bytes .bits bytes fun none => ?_⟩
    · simp only [trailsAt, stored, Except.map]
    · exact absurd none (table.bytes_ne_nil stored)
  case enum chosen =>
    obtain rfl := Except.ok.inj packed
    exact ⟨_, rfl, traced_bytes .plain _ fun _ => rfl⟩
  case struct record ih =>
    obtain ⟨name, members, align, announced, constants, enums⟩ := record
    simp only [packAt, bind_eq_ok] at packed
    obtain ⟨parts, stored, packed⟩ := packed
    obtain ⟨trails, followed, related⟩ := trailMembers_of_packMembers ih stored
    cases announced with
    | none =>
      obtain ⟨size, sized, packed⟩ := bind_eq_ok.mp packed
      obtain rfl := Except.ok.inj packed
      refine ⟨(Trails.join trails).fill size, ?_, traced_of_parts related size rfl⟩
      simp only [trailsAt, followed, sized, bind, Except.bind, pure, Except.pure]
    | some size =>
      obtain rfl := Except.ok.inj packed
      refine ⟨(Trails.join trails).fill size, ?_, traced_of_parts related size rfl⟩
      simp only [trailsAt, followed, bind, Except.bind, pure, Except.pure]

end Packing

/-- A blob of no bytes leaves no trail. -/
theorem trail_of_isEmptyBlob {value : Value} (empty : value.isEmptyBlob = true) :
    value.trail = .ok [] := by
  cases value with
  | blob fixed align content =>
    simp only [isEmptyBlob, Bool.and_eq_true, List.isEmpty_iff, beq_iff_eq] at empty
    obtain ⟨none, unfilled⟩ := empty
    have sized : checked LayoutError.overflow 0 = .ok 0 := rfl
    simp [trail, trailWhole, trailsAt, size, isRef, sized, none, unfilled, Trails.ofBytes,
      Trails.fill, Trails.whole, Origin.mark, bind, Except.bind, pure, Except.pure]
  | _ => simp [isEmptyBlob] at empty

/-- What the flag of a packed value tells about the last byte of its trail. -/
structure Ends (value : Value) (blocks : Blocks) (trail : List MarkedByte) : Prop where
  bytes : trail.map (·.byte) = blocks.bytes
  told : lastOrigin trail = some .bits → blocks.endsInBits = true
  exact_iff : (blocks.endsInBits = true ↔ lastOrigin trail = some .bits) ↔
    value.isEmptyBlob = false ∧
      ∀ target, lastOrigin trail = some (.padding target) → target.isEmptyBlob = false

/-- Packing a value on its own tells exactly whether the last byte holds bits, unless the value
    is a blob of no bytes, or the last byte aligns one. The flag is set for both of these. -/
theorem exists_ends {value : Value} {blocks : Blocks} (packed : value.pack none = .ok blocks) :
    ∃ trail, value.trail = .ok trail ∧ Ends value blocks trail := by
  obtain ⟨trail, followed, bytes, ends⟩ := value.traceable.whole packed
  refine ⟨trail, followed, bytes, fun last => ?_, ?_⟩
  · rw [ends, flag, last]
    rfl
  · cases empty : value.isEmptyBlob with
    | true =>
      obtain rfl := Except.ok.inj ((trail_of_isEmptyBlob empty).symm.trans followed)
      simp [ends, empty, lastOrigin]
    | false =>
      rw [empty, flag] at ends
      cases last : lastOrigin trail with
      | none => simp [ends, last]
      | some origin => cases origin <;> simp [ends, last, Origin.isFlagged]

section Boundary

/-- A struct with a reference to a text of two bytes and one to a blob behind it. -/
def textAndBlob (content : Blob) : Value :=
  .struct ⟨"S", [⟨"a", 0, .ref (.ofString "a") .w32, false⟩,
    ⟨"b", 4, .ref (.ofBlob content) .w32, false⟩], 4, some 8, .empty, []⟩

/-- Such a struct is built when it can be laid out. -/
theorem textAndBlob_built {content : Blob}
    (laid : Draft.layOut "S" [("a", .ref (.ofString "a") .w32), ("b", .ref (.ofBlob content) .w32)] =
      .ok (textAndBlob content)) : (textAndBlob content).Built := by
  refine Draft.layOut_built (fun member present => ?_) laid
  simp only [List.mem_cons, List.not_mem_nil, or_false] at present
  rcases present with rfl | rfl
  · exact .refTo .w32 (.stringOf (show stringOf "a" none true = .ok (.ofString "a") from rfl))
  · exact .refTo .w32 (.blobOf (show blobOf content none none = .ok (.ofBlob content) from rfl))

/-- A document ends in bits when its last byte is that of a blob. -/
theorem textAndBlob_ends :
    (textAndBlob (.ofBytes [1])).Built ∧
      (textAndBlob (.ofBytes [1])).pack none =
        .ok ⟨⟨[8, 0, 0, 0, 12, 0, 0, 0, 0x61, 0, 0, 0, 1], true⟩, .empty⟩ ∧
      ∃ trail, (textAndBlob (.ofBytes [1])).trail = .ok trail ∧
        lastOrigin trail = some .bits ∧
        Ends (textAndBlob (.ofBytes [1]))
          ⟨⟨[8, 0, 0, 0, 12, 0, 0, 0, 0x61, 0, 0, 0, 1], true⟩, .empty⟩ trail := by
  have packed : (textAndBlob (.ofBytes [1])).pack none =
      .ok ⟨⟨[8, 0, 0, 0, 12, 0, 0, 0, 0x61, 0, 0, 0, 1], true⟩, .empty⟩ := rfl
  refine ⟨textAndBlob_built rfl, packed, ?_⟩
  obtain ⟨trail, followed, ends⟩ := exists_ends packed
  obtain rfl := Except.ok.inj (followed.symm.trans rfl)
  exact ⟨_, followed, rfl, ends⟩

/-- When the blob has no bytes, the document ends in two zeros that align it, and is said to end
    in bits. -/
theorem emptyBlob_endsInBits :
    (textAndBlob ⟨[]⟩).Built ∧
      (textAndBlob ⟨[]⟩).pack none =
        .ok ⟨⟨[8, 0, 0, 0, 12, 0, 0, 0, 0x61, 0, 0, 0], true⟩, .empty⟩ ∧
      (textAndBlob ⟨[]⟩).trail.map lastOrigin = .ok (some (.padding (.ofBlob ⟨[]⟩))) ∧
      ¬ ∃ blocks trail, (textAndBlob ⟨[]⟩).pack none = .ok blocks ∧
        (textAndBlob ⟨[]⟩).trail = .ok trail ∧
        (blocks.endsInBits = true ↔ lastOrigin trail = some .bits) := by
  have packed : (textAndBlob ⟨[]⟩).pack none =
      .ok ⟨⟨[8, 0, 0, 0, 12, 0, 0, 0, 0x61, 0, 0, 0], true⟩, .empty⟩ := rfl
  have last : (textAndBlob ⟨[]⟩).trail.map lastOrigin = .ok (some (.padding (.ofBlob ⟨[]⟩))) := rfl
  refine ⟨textAndBlob_built rfl, packed, last, ?_⟩
  rintro ⟨blocks, trail, packed', followed, told⟩
  obtain rfl := Except.ok.inj (packed.symm.trans packed')
  rw [followed] at last
  have ends : lastOrigin trail = some .bits := told.mp rfl
  simp [Except.map, ends] at last

end Boundary

end Value

end BinaryLayout
