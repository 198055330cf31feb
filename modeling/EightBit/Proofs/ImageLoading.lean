import EightBit.HostSession
import EightBit.Listing
import EightBit.Proofs.AttemptedWrites
import EightBit.Proofs.ProgramTextGrammar
import Mathlib.Data.List.Nodup

/-!
# Loading is all or nothing

An image that fits is written byte for byte at increasing addresses, none of which wraps, and
nothing but the memory changes. One that does not fit is refused without a write. From address 0 on
those images fit that are programs and that can be listed.
-/
namespace EightBit

namespace Memory

theorem toNat_offset {start : UInt8} {i : Nat} (inside : start.toNat + i < size) :
    (start + UInt8.ofNat i).toNat = start.toNat + i := by
  have bound : start.toNat + i < 256 := inside
  rw [UInt8.toNat_add, UInt8.toNat_ofNat']
  omega

/-- The addresses of a block that fits are consecutive numbers. -/
theorem toNat_placed {start : UInt8} {bytes : List UInt8}
    (fits : start.toNat + bytes.length ≤ size) :
    (placed start bytes).map (fun w => (w.1.toNat, w.2)) =
      (List.range' start.toNat bytes.length).zip bytes := by
  apply List.ext_getElem
  · rw [List.length_map, length_placed, List.length_zip, List.length_range', Nat.min_self]
  · intro i inside _
    rw [List.length_map, length_placed] at inside
    have address := toNat_offset (Nat.lt_of_lt_of_le (Nat.add_lt_add_left inside _) fits)
    simp only [placed, List.getElem_map, List.getElem_zipIdx, List.getElem_zip,
      List.getElem_range', Nat.zero_add, Nat.one_mul, address]

theorem nodup_placed {start : UInt8} {bytes : List UInt8}
    (fits : start.toNat + bytes.length ≤ size) : ((placed start bytes).map Prod.fst).Nodup := by
  have numbers : ((placed start bytes).map Prod.fst).map UInt8.toNat =
      List.range' start.toNat bytes.length := by
    have firsts := congrArg (List.map Prod.fst) (toNat_placed fits)
    rw [List.map_fst_zip (by rw [List.length_range'])] at firsts
    rw [← firsts, List.map_map, List.map_map]
    rfl
  apply List.Nodup.of_map UInt8.toNat
  rw [numbers]
  exact List.nodup_range'

theorem not_mem_placed {start a : UInt8} {bytes : List UInt8}
    (fits : start.toNat + bytes.length ≤ size)
    (outside : a.toNat < start.toNat ∨ start.toNat + bytes.length ≤ a.toNat) :
    a ∉ (placed start bytes).map Prod.fst := by
  rw [List.mem_map]
  rintro ⟨⟨b, v⟩, member, rfl⟩
  obtain ⟨i, here, rfl⟩ := mem_placed_iff.1 member
  have inside : i < bytes.length := (List.getElem?_eq_some_iff.1 here).1
  have address := toNat_offset (Nat.lt_of_lt_of_le (Nat.add_lt_add_left inside _) fits)
  simp only [address] at outside
  omega

section

variable {μ : Type} [Memory μ]

theorem Faithful.readFrom_placed (faithful : Faithful μ) (memory : μ) {start : UInt8}
    {bytes : List UInt8} (fits : start.toNat + bytes.length ≤ size) :
    readFrom (writeAll memory (placed start bytes)) start bytes.length = bytes := by
  apply List.ext_getElem?
  intro i
  by_cases inside : i < bytes.length
  · have here : (start + UInt8.ofNat i, bytes[i]) ∈ placed start bytes :=
      mem_placed_iff.2 ⟨i, List.getElem?_eq_getElem inside, rfl⟩
    rw [getElem?_readFrom _ _ inside, faithful.read_writeAll_of_mem memory (nodup_placed fits) here,
      List.getElem?_eq_getElem inside]
  · have outside : bytes.length ≤ i := Nat.not_lt.1 inside
    rw [List.getElem?_eq_none (by rw [length_readFrom]; exact outside),
      List.getElem?_eq_none outside]

/-- What lies before a block that fits, the block and what lies after it. -/
theorem contents_eq_append (memory : μ) {start : UInt8} {count : Nat}
    (fits : start.toNat + count ≤ size) :
    contents memory = readFrom memory 0 start.toNat ++ (readFrom memory start count ++
      readFrom memory (start + UInt8.ofNat count) (size - (start.toNat + count))) := by
  have total : size = start.toNat + (count + (size - (start.toNat + count))) := by omega
  have place : 0 + UInt8.ofNat start.toNat = start := by simp
  rw [contents]
  conv_lhs => rw [total]
  rw [readFrom_add, readFrom_add, place]

theorem Faithful.readFrom_writeAll_placed (faithful : Faithful μ) (memory : μ) {start other : UInt8}
    {bytes : List UInt8} {count : Nat} (fits : start.toNat + bytes.length ≤ size)
    (inside : other.toNat + count ≤ size)
    (apart : other.toNat + count ≤ start.toNat ∨ start.toNat + bytes.length ≤ other.toNat) :
    readFrom (writeAll memory (placed start bytes)) other count = readFrom memory other count := by
  apply List.map_congr_left
  intro i member
  have below : i < count := List.mem_range.1 member
  have address := toNat_offset (Nat.lt_of_lt_of_le (Nat.add_lt_add_left below _) inside)
  apply faithful.read_writeAll_of_not_mem
  apply not_mem_placed fits
  omega

/-- All of a memory after an image has been written to it. -/
theorem Faithful.contents_placed (faithful : Faithful μ) (memory : μ) {start : UInt8}
    {bytes : List UInt8} (fits : start.toNat + bytes.length ≤ size) :
    contents (writeAll memory (placed start bytes)) =
      (contents memory).take start.toNat ++
        (bytes ++ (contents memory).drop (start.toNat + bytes.length)) := by
  have lower : readFrom (writeAll memory (placed start bytes)) 0 start.toNat =
      readFrom memory 0 start.toNat := by
    apply faithful.readFrom_writeAll_placed memory fits
    · simp
      omega
    · simp
  have upper : readFrom (writeAll memory (placed start bytes)) (start + UInt8.ofNat bytes.length)
        (size - (start.toNat + bytes.length)) =
      readFrom memory (start + UInt8.ofNat bytes.length)
        (size - (start.toNat + bytes.length)) := by
    by_cases full : start.toNat + bytes.length = size
    · rw [full, Nat.sub_self]
      rfl
    · have address := toNat_offset (Nat.lt_of_le_of_ne fits full)
      apply faithful.readFrom_writeAll_placed memory fits <;> omega
  have front : (contents memory).take start.toNat = readFrom memory 0 start.toNat := by
    rw [contents_eq_append memory fits, List.take_left' (length_readFrom _ _ _)]
  have back : (contents memory).drop (start.toNat + bytes.length) =
      readFrom memory (start + UInt8.ofNat bytes.length)
        (size - (start.toNat + bytes.length)) := by
    have length : (readFrom memory 0 start.toNat ++ readFrom memory start bytes.length).length =
        start.toNat + bytes.length := by
      rw [List.length_append, length_readFrom, length_readFrom]
    rw [contents_eq_append memory fits, ← List.append_assoc, List.drop_left' length]
  rw [contents_eq_append _ fits, lower, upper, faithful.readFrom_placed memory fits, front, back]

end

end Memory

/-! The size limits of loaded images, listed images and programs -/

theorem Machine.exists_load_zero_iff {μ : Type} [Memory μ] {m : Machine μ} {image : List UInt8} :
    (∃ after, m.load image 0 = .ok after) ↔ image.length ≤ Memory.size := by
  simp [load_eq_ok_iff]

theorem Listing.exists_ofImage?_iff {image : List UInt8} :
    (∃ entries, ofImage? image = some entries) ↔ image.length ≤ Memory.size := by
  simp [ofImage?]

theorem ProgramImage.exists_ofBytes_iff {bytes : List UInt8} :
    (∃ program, ofBytes bytes = .ok program) ↔ bytes.length ≤ Memory.size := by
  simp only [ofBytes_eq_ok_iff]
  constructor
  · rintro ⟨program, rfl⟩
    exact program.length_le
  · intro fits
    exact ⟨⟨bytes, fits⟩, rfl⟩

namespace Session

variable {μ τ : Type} [Memory μ] [TickSource τ]

/-- The session over a journal that has nothing in it yet. -/
def journaled (s : Session μ τ) : Session (Journal μ) τ := ⟨s.machine.journaled, s.pacing⟩

/-- The writes that an action attempts, in their order. -/
def attemptedWrites (s : Session μ τ) (action : Action τ) : List (UInt8 × UInt8) :=
  (s.journaled.perform action).2.machine.memory.writes

theorem perform_load_of_fits (s : Session μ τ) {image : List UInt8} {start : UInt8}
    (fits : start.toNat + image.length ≤ Memory.size) :
    s.perform (.load image start) =
      (.done, s.withMachine { s.machine with
        memory := Memory.writeAll s.machine.memory (Memory.placed start image) }) := by
  have loaded : s.machine.load image start = .ok _ := Machine.load_eq_ok_iff.2 ⟨fits, rfl⟩
  rw [perform, load, loaded]

theorem perform_load_of_large (s : Session μ τ) {image : List UInt8} {start : UInt8}
    (large : Memory.size < start.toNat + image.length) :
    s.perform (.load image start) = (.tooLarge ⟨image.length, start⟩, s) := by
  have refused : s.machine.load image start = .error _ := Machine.load_eq_error_iff.2 ⟨large, rfl⟩
  rw [perform, load, refused]

theorem attemptedWrites_load_of_fits (s : Session μ τ) {image : List UInt8} {start : UInt8}
    (fits : start.toNat + image.length ≤ Memory.size) :
    s.attemptedWrites (.load image start) = Memory.placed start image := by
  rw [attemptedWrites, s.journaled.perform_load_of_fits fits]
  exact Journal.writeAll_writes (Journal.start s.machine.memory) _

theorem attemptedWrites_load_of_large (s : Session μ τ) {image : List UInt8} {start : UInt8}
    (large : Memory.size < start.toNat + image.length) :
    s.attemptedWrites (.load image start) = [] := by
  rw [attemptedWrites, s.journaled.perform_load_of_large large]
  rfl

/-- Loading succeeds or fails as a whole, by the room above the start. -/
theorem load_all_or_nothing (s : Session μ τ) (image : List UInt8) (start : UInt8) :
    (∀ e, s.machine.load image start = .error e ↔
      256 < start.toNat + image.length ∧ e = ⟨image.length, start⟩) ∧
    (256 < start.toNat + image.length →
      s.perform (.load image start) = (.tooLarge ⟨image.length, start⟩, s) ∧
        s.attemptedWrites (.load image start) = []) ∧
    (start.toNat + image.length ≤ 256 →
      let writes := s.attemptedWrites (.load image start)
      let memory := Memory.writeAll s.machine.memory writes
      writes.map (fun w => (w.1.toNat, w.2)) =
          (List.range' start.toNat image.length).zip image ∧
        s.perform (.load image start) =
          (.done, s.withMachine { s.machine with memory := memory }) ∧
        (Memory.Faithful μ →
          Memory.readFrom memory start image.length = image ∧
            ∀ a : UInt8, a.toNat < start.toNat ∨ start.toNat + image.length ≤ a.toNat →
              Memory.read memory a = s.machine.peek a)) ∧
    (∀ bytes,
      ((∃ p, ProgramImage.ofBytes bytes = .ok p) ↔ ∃ after, s.machine.load bytes 0 = .ok after) ∧
      ((∃ p, ProgramImage.ofBytes bytes = .ok p) ↔
        ∃ entries, Listing.ofImage? bytes = some entries)) ∧
    ∀ text program, ProgramImage.parse text = .ok program →
      (∃ after, s.machine.load program.bytes 0 = .ok after) ∧
        ∃ entries, Listing.ofImage? program.bytes = some entries := by
  refine ⟨fun e => Machine.load_eq_error_iff, ?_, ?_, ?_, ?_⟩
  · intro large
    exact ⟨s.perform_load_of_large large, s.attemptedWrites_load_of_large large⟩
  · intro fits
    simp only [s.attemptedWrites_load_of_fits fits]
    refine ⟨Memory.toNat_placed fits, s.perform_load_of_fits fits, ?_⟩
    intro faithful
    refine ⟨faithful.readFrom_placed _ fits, ?_⟩
    intro a outside
    exact faithful.read_writeAll_of_not_mem _ (Memory.not_mem_placed fits outside)
  · intro bytes
    rw [ProgramImage.exists_ofBytes_iff, Machine.exists_load_zero_iff, Listing.exists_ofImage?_iff]
    exact ⟨Iff.rfl, Iff.rfl⟩
  · intro text program _
    exact ⟨Machine.exists_load_zero_iff.2 program.length_le,
      Listing.exists_ofImage?_iff.2 program.length_le⟩

/-- Three bytes fit below the last address, and are refused one address higher. -/
theorem load_up_to_last_address :
    let s : Session PlainMemory Silence := start .zero
    (s.attemptedWrites (.load [0x04, 0x00, 0x63] 0xfd)).map (fun w => (w.1.toNat, w.2)) =
        [(253, 0x04), (254, 0x00), (255, 0x63)] ∧
      Memory.read (Memory.writeAll s.machine.memory
        (s.attemptedWrites (.load [0x04, 0x00, 0x63] 0xfd))) 0xfc = 0 ∧
      s.perform (.load [0x04, 0x00, 0x63] 0xfe) = (.tooLarge ⟨3, 0xfe⟩, s) ∧
      s.attemptedWrites (.load [0x04, 0x00, 0x63] 0xfe) = [] ∧
      ∃ program after, ProgramImage.parse "11011\n" = .ok program ∧
        s.machine.load program.bytes 0 = .ok after := by
  intro s
  obtain ⟨-, -, fitting, -, programs⟩ := s.load_all_or_nothing [0x04, 0x00, 0x63] 0xfd
  obtain ⟨writes, -, read⟩ := fitting (by decide)
  obtain ⟨-, large, -⟩ := s.load_all_or_nothing [0x04, 0x00, 0x63] 0xfe
  obtain ⟨refused, nothing⟩ := large (by decide)
  have parsed : ProgramImage.parse "11011\n" = .ok ⟨[0x1b], by decide⟩ := by decide
  obtain ⟨⟨after, loaded⟩, -⟩ := programs _ _ parsed
  exact ⟨writes, (read PlainMemory.faithful).2 0xfc (.inl (by decide)), refused, nothing,
    _, after, parsed, loaded⟩

end Session
end EightBit
