import EightBit.Proofs.ListingSweep

/-!
# A listing partitions its image

The entries of a sweep stand end to end: each starts where the one before it ends, and their bytes
in order are the image. An entry is one to three bytes long, and as long as its instruction.
-/
namespace EightBit.Listing

theorem length_bytes_firstEntry {bytes : List UInt8} (nonempty : bytes ≠ []) (address : Nat) :
    1 ≤ (firstEntry address bytes).bytes.length ∧
      (firstEntry address bytes).bytes.length ≤ 3 := by
  cases listed : (firstEntry address bytes).instruction? with
  | none =>
    have long := List.length_pos_iff.2 nonempty
    rw [bytes_firstEntry_of_none listed, List.length_take]
    omega
  | some i =>
    rw [bytes_firstEntry_of_some listed, i.length_encode]
    exact ⟨i.size_pos, i.size_le_maxSize⟩

theorem length_bytes_firstEntry_le (address : Nat) (bytes : List UInt8) :
    (firstEntry address bytes).bytes.length ≤ bytes.length := by
  have joined := congrArg List.length (bytes_firstEntry_append_drop address bytes)
  rw [List.length_append] at joined
  omega

/-- Induction along a sweep: what holds of the bytes after the first entry carries over to all of
them. -/
theorem sweep_induction {motive : Nat → List UInt8 → Prop} (nil : ∀ address, motive address [])
    (cons : ∀ address bytes, bytes ≠ [] →
      motive (address + (firstEntry address bytes).bytes.length)
        (bytes.drop (firstEntry address bytes).bytes.length) → motive address bytes)
    (address : Nat) (bytes : List UInt8) : motive address bytes := by
  induction h : bytes.length using Nat.strongRecOn generalizing address bytes with
  | _ n ih =>
    by_cases empty : bytes = []
    · exact empty ▸ nil address
    · have first := length_bytes_firstEntry empty address
      have long := List.length_pos_iff.2 empty
      apply cons address bytes empty
      exact ih _ (by rw [List.length_drop]; omega) _ _ rfl

theorem sweepFrom_of_ne_nil {bytes : List UInt8} (nonempty : bytes ≠ []) (address : Nat) :
    sweepFrom address bytes =
      firstEntry address bytes ::
        sweepFrom (address + (firstEntry address bytes).bytes.length)
          (bytes.drop (firstEntry address bytes).bytes.length) := by
  cases bytes with
  | nil => exact absurd rfl nonempty
  | cons b rest => exact sweepFrom_cons address b rest

theorem flatMap_bytes_sweepFrom (address : Nat) (bytes : List UInt8) :
    (sweepFrom address bytes).flatMap Entry.bytes = bytes := by
  induction address, bytes using sweep_induction with
  | nil address => rw [sweepFrom_nil, List.flatMap_nil]
  | cons address bytes nonempty ih =>
    rw [sweepFrom_of_ne_nil nonempty, List.flatMap_cons, ih, bytes_firstEntry_append_drop]

/-- Where the last entry ends, or `address` when there is none. -/
def endFrom (address : Nat) (entries : List Entry) : Nat :=
  entries.foldl (fun _ e => e.following) address

/-- Each entry starts where the one before it ends, and the first one at `address`. -/
def Contiguous : Nat → List Entry → Prop
  | _, [] => True
  | address, e :: rest => e.address.toNat = address ∧ Contiguous e.following rest

theorem endFrom_cons (address : Nat) (e : Entry) (rest : List Entry) :
    endFrom address (e :: rest) = endFrom e.following rest := rfl

theorem contiguous_append {address : Nat} {first second : List Entry} :
    Contiguous address (first ++ second) ↔
      Contiguous address first ∧ Contiguous (endFrom address first) second := by
  induction first generalizing address with
  | nil => simp [Contiguous, endFrom]
  | cons e rest ih =>
    simp only [List.cons_append, Contiguous, ih, and_assoc, endFrom_cons]

theorem Contiguous.endFrom_eq {address : Nat} {entries : List Entry}
    (h : Contiguous address entries) :
    endFrom address entries = address + (entries.flatMap Entry.bytes).length := by
  induction entries generalizing address with
  | nil => rfl
  | cons e rest ih =>
    obtain ⟨here, later⟩ := h
    rw [endFrom_cons, ih later, Entry.following, here, List.flatMap_cons, List.length_append,
      Nat.add_assoc]

/-- No address is cut off, as there is one for every byte. -/
theorem contiguous_sweepFrom {address : Nat} {bytes : List UInt8}
    (fits : address + bytes.length ≤ Memory.size) :
    Contiguous address (sweepFrom address bytes) := by
  induction address, bytes using sweep_induction with
  | nil address =>
    rw [sweepFrom_nil]
    exact True.intro
  | cons address bytes nonempty ih =>
    have inside := length_bytes_firstEntry_le address bytes
    have long := List.length_pos_iff.2 nonempty
    have place : (firstEntry address bytes).address.toNat = address := by
      rw [address_firstEntry, UInt8.toNat_ofNat']
      simp only [Memory.size] at fits
      omega
    rw [sweepFrom_of_ne_nil nonempty, Contiguous, Entry.following, place]
    exact ⟨rfl, ih (by rw [List.length_drop]; omega)⟩

theorem exists_firstEntry_of_mem {address : Nat} {bytes : List UInt8} {e : Entry}
    (h : e ∈ sweepFrom address bytes) : ∃ place rest, rest ≠ [] ∧ e = firstEntry place rest := by
  obtain ⟨before, after, split⟩ := List.append_of_mem h
  obtain ⟨rest, nonempty, -, entry, -⟩ := sweepFrom_eq_append_cons split
  exact ⟨_, rest, nonempty, entry⟩

/-- The listing of an image that fits in memory is a partition of it into instructions and single
bytes. -/
theorem listing_partitions_image {image : List UInt8} (small : image.length ≤ Memory.size) :
    ∃ entries, ofImage? image = some entries ∧
      entries.flatMap Entry.bytes = image ∧
      (∀ before e after, entries = before ++ e :: after →
        e.address.toNat = (before.flatMap Entry.bytes).length ∧ e.following ≤ image.length) ∧
      ∀ e ∈ entries,
        1 ≤ e.bytes.length ∧ e.bytes.length ≤ 3 ∧
        (∀ i, e.instruction? = some i →
          Instruction.decode e.bytes = .ok i ∧ e.bytes.length = i.size ∧ e.text = i.text) ∧
        (e.instruction? = none → e.bytes.length = 1) := by
  have joined := flatMap_bytes_sweepFrom 0 image
  have contiguous : Contiguous 0 (sweepFrom 0 image) := contiguous_sweepFrom (by simpa using small)
  refine ⟨sweepFrom 0 image, if_pos small, joined, ?_, ?_⟩
  · intro before e after split
    rw [split] at joined contiguous
    obtain ⟨front, here, -⟩ := contiguous_append.1 contiguous
    rw [front.endFrom_eq, Nat.zero_add] at here
    refine ⟨here, ?_⟩
    rw [← joined, Entry.following, here, List.flatMap_append, List.flatMap_cons,
      List.length_append, List.length_append]
    omega
  · intro e member
    obtain ⟨place, rest, nonempty, rfl⟩ := exists_firstEntry_of_mem member
    obtain ⟨least, most⟩ := length_bytes_firstEntry nonempty place
    refine ⟨least, most, ?_, ?_⟩
    · intro i listed
      rw [bytes_firstEntry_of_some listed, i.length_encode, Entry.text, listed]
      exact ⟨Instruction.decode_eq_ok_iff.2 (List.prefix_refl _), rfl, rfl⟩
    · intro listed
      have long := List.length_pos_iff.2 nonempty
      rw [bytes_firstEntry_of_none listed, List.length_take]
      omega

/-- The byte at the end would be an output, but its operand is missing. -/
theorem cut_off_output_partitioned :
    ∃ entries, ofImage? [0x00, 0x04, 0x00, 0x08, 0x06] = some entries ∧
      entries.flatMap Entry.bytes = [0x00, 0x04, 0x00, 0x08, 0x06] ∧
      ∀ e ∈ entries, e.instruction? = none → e.bytes.length = 1 := by
  have small : ([0x00, 0x04, 0x00, 0x08, 0x06] : List UInt8).length ≤ Memory.size := by decide
  obtain ⟨entries, listed, joined, -, single⟩ := listing_partitions_image small
  refine ⟨entries, listed, joined, fun e member => ?_⟩
  obtain ⟨-, -, -, single⟩ := single e member
  exact single

end EightBit.Listing
