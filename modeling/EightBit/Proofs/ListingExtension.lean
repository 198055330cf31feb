import EightBit.Proofs.ListingPartition

/-!
# Listings of extended and of cut images

A sweep looks at no more than three bytes at once. Two sweeps stay in step as long as the bytes in
front of them agree that far, so an extension of the image changes only what is listed of its last
two bytes. What a sweep lists from one of its entries on does not depend on the bytes before it.
-/
namespace EightBit

/-- The entry of the same bytes at an address that is higher by the distance. -/
def Entry.moved (distance : UInt8) (e : Entry) : Entry :=
  { e with address := e.address + distance }

/-- Whether three bytes from the entry's address on are within an image of this length. -/
def Entry.clearOf (length : Nat) (e : Entry) : Bool := e.address.toNat + 3 ≤ length

namespace Listing

theorem Contiguous.le_address {address : Nat} {entries : List Entry}
    (h : Contiguous address entries) {e : Entry} (member : e ∈ entries) :
    address ≤ e.address.toNat := by
  induction entries generalizing address with
  | nil => cases member
  | cons first rest ih =>
    obtain ⟨here, later⟩ := h
    rcases List.mem_cons.1 member with rfl | member
    · exact Nat.le_of_eq here.symm
    · have beyond : first.address.toNat ≤ first.following := Nat.le_add_right _ _
      exact Nat.le_trans (here ▸ beyond) (ih later member)

theorem Contiguous.following_le {address : Nat} {entries : List Entry}
    (h : Contiguous address entries) {e : Entry} (member : e ∈ entries) :
    e.following ≤ address + (entries.flatMap Entry.bytes).length := by
  obtain ⟨before, after, rfl⟩ := List.append_of_mem member
  obtain ⟨front, here, -⟩ := contiguous_append.1 h
  rw [front.endFrom_eq] at here
  rw [Entry.following, here, List.flatMap_append, List.flatMap_cons, List.length_append,
    List.length_append]
  omega

/-- Three bytes decide what the first entry is. -/
theorem firstEntry_append {bytes : List UInt8} (long : 3 ≤ bytes.length) (address : Nat)
    (more : List UInt8) : firstEntry address (bytes ++ more) = firstEntry address bytes := by
  have three : (bytes ++ more).take Instruction.maxSize = bytes.take Instruction.maxSize :=
    List.take_append_of_le_length long
  have one : (bytes ++ more).take 1 = bytes.take 1 :=
    List.take_append_of_le_length (Nat.le_trans (by decide) long)
  rw [firstEntry, three, one, firstEntry]

theorem filter_clearOf_of_short {address : Nat} {bytes : List UInt8}
    (fits : address + bytes.length ≤ Memory.size) {length : Nat} (short : length < address + 3) :
    (sweepFrom address bytes).filter (Entry.clearOf length) = [] := by
  apply List.filter_eq_nil_iff.2
  intro e member
  have place := (contiguous_sweepFrom fits).le_address member
  simp only [Entry.clearOf, decide_eq_true_eq]
  omega

/-- Both sweeps are in step until less than three of the common bytes are left. -/
theorem filter_sweepFrom_append {address : Nat} {bytes more : List UInt8}
    (fits : address + (bytes ++ more).length ≤ Memory.size) :
    (sweepFrom address (bytes ++ more)).filter (Entry.clearOf (address + bytes.length)) =
      (sweepFrom address bytes).filter (Entry.clearOf (address + bytes.length)) := by
  induction address, bytes using sweep_induction with
  | nil address =>
    rw [sweepFrom_nil, List.filter_nil]
    exact filter_clearOf_of_short fits (by simp)
  | cons address bytes nonempty ih =>
    have total : (bytes ++ more).length = bytes.length + more.length := List.length_append
    by_cases long : 3 ≤ bytes.length
    · have inside := length_bytes_firstEntry_le address bytes
      have left : address + (firstEntry address bytes).bytes.length +
          (bytes.drop (firstEntry address bytes).bytes.length).length =
            address + bytes.length := by
        rw [List.length_drop]
        omega
      have onward := ih (by
        rw [List.length_append, List.length_drop]
        omega)
      rw [left] at onward
      rw [sweepFrom_of_ne_nil nonempty, sweepFrom_of_ne_nil (by simp [nonempty]),
        firstEntry_append long, List.drop_append_of_le_length inside, List.filter_cons,
        List.filter_cons, onward]
    · have short : address + bytes.length < address + 3 := by omega
      rw [filter_clearOf_of_short fits short, filter_clearOf_of_short (by omega) short]

theorem moved_firstEntry (address : Nat) (distance : UInt8) (bytes : List UInt8) :
    (firstEntry address bytes).moved distance =
      firstEntry (address + distance.toNat) bytes := by
  have place : UInt8.ofNat (address + distance.toNat) = UInt8.ofNat address + distance := by
    rw [UInt8.ofNat_add, UInt8.ofNat_toNat]
  unfold firstEntry Entry.moved
  split <;> rw [place]

theorem map_moved_sweepFrom (address : Nat) (distance : UInt8) (bytes : List UInt8) :
    (sweepFrom address bytes).map (Entry.moved distance) =
      sweepFrom (address + distance.toNat) bytes := by
  induction address, bytes using sweep_induction with
  | nil address => rw [sweepFrom_nil, sweepFrom_nil, List.map_nil]
  | cons address bytes nonempty ih =>
    have same := congrArg Entry.bytes (moved_firstEntry address distance bytes)
    rw [Entry.moved] at same
    rw [sweepFrom_of_ne_nil nonempty, sweepFrom_of_ne_nil nonempty, List.map_cons,
      moved_firstEntry, ih, ← same, Nat.add_right_comm]

/-- The entries from a place of the sweep on are a sweep of the bytes that are left there. -/
theorem sweepFrom_of_split {image : List UInt8} (small : image.length ≤ Memory.size)
    {before after : List Entry} {e : Entry} (split : sweepFrom 0 image = before ++ e :: after) :
    e.address.toNat = (before.flatMap Entry.bytes).length ∧
      e :: after = sweepFrom e.address.toNat (image.drop e.address.toNat) := by
  have contiguous : Contiguous 0 (sweepFrom 0 image) := contiguous_sweepFrom (by simpa using small)
  rw [split] at contiguous
  obtain ⟨front, place, -⟩ := contiguous_append.1 contiguous
  rw [front.endFrom_eq] at place
  obtain ⟨rest, nonempty, joined, entry, tail⟩ := sweepFrom_eq_append_cons split
  rw [← place] at entry tail
  rw [Nat.zero_add] at place
  have left : image.drop e.address.toNat = rest := by
    rw [place, joined, List.drop_left]
  refine ⟨place, ?_⟩
  rw [left, sweepFrom_of_ne_nil nonempty, ← entry, tail]

/-- An entry ends after the address at which it starts. -/
theorem address_lt_following {address : Nat} {bytes : List UInt8} {e : Entry}
    (member : e ∈ sweepFrom address bytes) : e.address.toNat < e.following := by
  obtain ⟨place, rest, nonempty, rfl⟩ := exists_firstEntry_of_mem member
  have positive := (length_bytes_firstEntry nonempty place).1
  rw [Entry.following]
  omega

theorem following_le_length {image : List UInt8} (small : image.length ≤ Memory.size) {e : Entry}
    (member : e ∈ sweepFrom 0 image) : e.following ≤ image.length := by
  have contiguous : Contiguous 0 (sweepFrom 0 image) := contiguous_sweepFrom (by simpa using small)
  have ends := contiguous.following_le member
  rw [flatMap_bytes_sweepFrom, Nat.zero_add] at ends
  exact ends

/-- What starts at the address of an entry or later is the entry and what follows it. -/
theorem filter_from_entry {image : List UInt8} (small : image.length ≤ Memory.size) {e : Entry}
    (member : e ∈ sweepFrom 0 image) :
    (sweepFrom 0 image).filter (e.address ≤ ·.address) =
      sweepFrom e.address.toNat (image.drop e.address.toNat) := by
  have fits : 0 + image.length ≤ Memory.size := by simpa using small
  obtain ⟨before, after, split⟩ := List.append_of_mem member
  obtain ⟨place, onward⟩ := sweepFrom_of_split small split
  have earlier : before.filter (e.address ≤ ·.address) = [] := by
    apply List.filter_eq_nil_iff.2
    intro f here
    have contiguous := split ▸ contiguous_sweepFrom fits
    have ends := (contiguous_append.1 contiguous).1.following_le here
    have starts := address_lt_following (split ▸ List.mem_append_left _ here)
    simp only [decide_eq_true_eq, UInt8.le_iff_toNat_le]
    omega
  have later : (e :: after).filter (e.address ≤ ·.address) = e :: after := by
    apply List.filter_eq_self.2
    intro f here
    rw [onward] at here
    have inside : e.address.toNat + (image.drop e.address.toNat).length ≤ Memory.size := by
      have starts := address_lt_following member
      have ends := following_le_length small member
      rw [List.length_drop]
      omega
    have place := (contiguous_sweepFrom inside).le_address here
    simpa only [decide_eq_true_eq, UInt8.le_iff_toNat_le] using place
  rw [split, List.filter_append, earlier, later, List.nil_append, onward]

/-- A listing is stable under extensions of its image and composed of the listings from its entries
on. An extension keeps each entry that is clear of the last two bytes, and the entries from one of
them on are those of the bytes from there on, moved to where these stand. -/
theorem listing_extends_and_composes {image more : List UInt8}
    (small : (image ++ more).length ≤ Memory.size) :
    ∃ entries longer, ofImage? image = some entries ∧ ofImage? (image ++ more) = some longer ∧
      longer.filter (Entry.clearOf image.length) = entries.filter (Entry.clearOf image.length) ∧
      ∀ e ∈ entries, ∃ tail, ofImage? (image.drop e.address.toNat) = some tail ∧
        entries.filter (e.address ≤ ·.address) = tail.map (Entry.moved e.address) ∧
        ∀ f ∈ tail, (f.moved e.address).address.toNat = f.address.toNat + e.address.toNat := by
  have part : image.length ≤ Memory.size := by
    rw [List.length_append] at small
    omega
  have fits : 0 + (image ++ more).length ≤ Memory.size := by simpa using small
  have step := filter_sweepFrom_append fits
  rw [Nat.zero_add] at step
  refine ⟨_, _, if_pos part, if_pos small, step, ?_⟩
  intro e member
  have cut : (image.drop e.address.toNat).length ≤ Memory.size := by
    rw [List.length_drop]
    omega
  refine ⟨_, if_pos cut, ?_, ?_⟩
  · rw [filter_from_entry part member, map_moved_sweepFrom, Nat.zero_add]
  · intro f here
    have starts := address_lt_following here
    have ends := following_le_length cut here
    rw [List.length_drop] at ends
    rw [Entry.moved, UInt8.toNat_add]
    simp only [Memory.size] at part
    omega

/-- A load that the end of the image cuts short is whole in an extension of it. -/
theorem cut_load_extends_and_composes :
    let load : Entry := ⟨0x03, [0x04, 0x01, 0x1b], some (.immediate .ldi .r1 0x1b)⟩
    ∃ entries longer, ofImage? [0x06, 0x00, 0x00, 0x04, 0x01] = some entries ∧
      ofImage? ([0x06, 0x00, 0x00, 0x04, 0x01] ++ [0x1b]) = some longer ∧
      load ∈ longer ∧ load ∉ entries ∧
      longer.filter (Entry.clearOf 5) = entries.filter (Entry.clearOf 5) ∧
      ∃ tail, ofImage? [0x00, 0x04, 0x01] = some tail ∧
        entries.filter (0x02 ≤ ·.address) = tail.map (Entry.moved 0x02) := by
  intro load
  have small : (([0x06, 0x00, 0x00, 0x04, 0x01] : List UInt8) ++ [0x1b]).length ≤ Memory.size := by
    decide
  have listed : ofImage? [0x06, 0x00, 0x00, 0x04, 0x01] =
      some [⟨0x00, [0x06, 0x00], some (.unary .prn .r0)⟩, ⟨0x02, [0x00], none⟩,
        ⟨0x03, [0x04], none⟩, ⟨0x04, [0x01], none⟩] := by cbv
  have extended : ofImage? ([0x06, 0x00, 0x00, 0x04, 0x01] ++ [0x1b]) =
      some [⟨0x00, [0x06, 0x00], some (.unary .prn .r0)⟩, ⟨0x02, [0x00], none⟩, load] := by cbv
  obtain ⟨entries, longer, listed', extended', step, onward⟩ := listing_extends_and_composes small
  obtain rfl := Option.some.inj (listed.symm.trans listed')
  obtain rfl := Option.some.inj (extended.symm.trans extended')
  obtain ⟨tail, rest, moved, -⟩ := onward ⟨0x02, [0x00], none⟩ (by simp)
  exact ⟨_, _, listed, extended, by simp, by simp [load], step, tail, rest, moved⟩

end Listing
end EightBit
