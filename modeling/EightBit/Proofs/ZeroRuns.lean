import EightBit.CommandReport
import EightBit.Proofs.ListingPartition
import EightBit.Proofs.ProgramTextRoundTrip
import EightBit.Proofs.ZeroRunRemoval

/-!
# Lines of a shortened listing

Entries are taken out only inside of long zero runs. Where that happens the next address does not
follow, so dots stand in place of the middle of each of these runs and nowhere else.
-/
namespace EightBit.Listing

/-- All lines of a block of at most eight entries, the first and the last one of a longer block with
dots between them. -/
def blockLines (block : List Entry) : List String :=
  if 8 < block.length then
    (block.head?.map Entry.line).toList ++ "..." :: (block.getLast?.map Entry.line).toList
  else block.map Entry.line

/-- The lines of entries that come after `address`, with dots before each that starts elsewhere. -/
def linesFrom : Nat → List Entry → List String
  | _, [] => []
  | address, e :: rest =>
    if address = e.address.toNat then e.line :: linesFrom e.following rest
    else "..." :: e.line :: linesFrom e.following rest

theorem linesWithGaps_cons (e : Entry) (rest : List Entry) :
    linesWithGaps (e :: rest) = e.line :: linesFrom e.following rest := by
  induction rest generalizing e with
  | nil => rfl
  | cons next rest ih =>
    rw [linesWithGaps, linesFrom, ih]
    split <;> rfl

theorem linesFrom_append (address : Nat) (first second : List Entry) :
    linesFrom address (first ++ second) =
      linesFrom address first ++ linesFrom (endFrom address first) second := by
  induction first generalizing address with
  | nil => rfl
  | cons e rest ih =>
    simp only [List.cons_append, linesFrom, ih, endFrom_cons]
    split <;> rfl

theorem linesFrom_of_contiguous {address : Nat} {entries : List Entry}
    (h : Contiguous address entries) : linesFrom address entries = entries.map Entry.line := by
  induction entries generalizing address with
  | nil => rfl
  | cons e rest ih =>
    obtain ⟨here, later⟩ := h
    rw [linesFrom, if_pos here.symm, ih later, List.map_cons]

theorem flatMap_bytes_of_zeros {entries : List Entry} (h : ∀ e ∈ entries, e.bytes = [0]) :
    entries.flatMap Entry.bytes = List.replicate entries.length 0 := by
  induction entries with
  | nil => rfl
  | cons e rest ih =>
    have zero := h e List.mem_cons_self
    have others := ih fun x member => h x (List.mem_cons_of_mem e member)
    simp [zero, others, List.replicate_succ]

/-- A long run is known by its ends, which are as far apart as it is long. -/
theorem exists_ends_of_long {address : Nat} {block : List Entry}
    (kind : IsBlock block) (long : 8 < block.length)
    (h : Contiguous address block) :
    ∃ first last, block.head? = some first ∧ block.getLast? = some last ∧
      keepEnds block = [first, last] ∧ address = first.address.toNat ∧
      last.address.toNat + 1 = address + block.length ∧ endFrom address block = last.following ∧
      ∀ e ∈ block, e.bytes = [0] := by
  rcases kind with run | ⟨e, rfl, -⟩
  · obtain ⟨first, middle, last, rfl, kept⟩ := exists_middle_of_long long
    have final : (first :: (middle ++ [last])).getLast? = some last := by
      rw [← List.cons_append, List.getLast?_concat]
    have ending : endFrom address (first :: (middle ++ [last])) = last.following := by
      simp [endFrom]
    have count := congrArg List.length (flatMap_bytes_of_zeros run.zeros)
    have zero : last.bytes = [0] := run.zeros last (by simp)
    refine ⟨first, last, rfl, final, kept, h.1.symm, ?_, ending, run.zeros⟩
    rw [List.length_replicate] at count
    rw [← count, ← h.endFrom_eq, ending, Entry.following, zero]
    rfl
  · simp at long

/-- The last entry of a block is always kept. -/
theorem endFrom_keepEnds {address : Nat} {block : List Entry}
    (kind : IsBlock block) (h : Contiguous address block) :
    endFrom address (keepEnds block) = endFrom address block := by
  by_cases long : 8 < block.length
  · obtain ⟨first, last, -, -, kept, -, -, ending, -⟩ := exists_ends_of_long kind long h
    rw [kept, ending]
    rfl
  · rw [keepEnds_of_short (Nat.not_lt.1 long)]

/-- What is read off entries one after the other, with the address reached so far, is found block
by block when it is known for what is kept of a block. -/
theorem flatMap_keepEnds {β : Type} {f : Nat → List Entry → List β} {g : List Entry → List β}
    (nil : ∀ address, f address [] = [])
    (append : ∀ address first second,
      f address (first ++ second) = f address first ++ f (endFrom address first) second)
    (kept : ∀ address block, IsBlock block → Contiguous address block →
      f address (keepEnds block) = g block)
    {address : Nat} {blocks : List (List Entry)}
    (kinds : ∀ block ∈ blocks, IsBlock block)
    (h : Contiguous address blocks.flatten) :
    f address (blocks.flatMap keepEnds) = blocks.flatMap g := by
  induction blocks generalizing address with
  | nil => exact nil address
  | cons block more ih =>
    rw [List.flatten_cons] at h
    obtain ⟨here, later⟩ := contiguous_append.1 h
    obtain ⟨kind, others⟩ := List.forall_mem_cons.1 kinds
    rw [List.flatMap_cons, List.flatMap_cons, append, kept address block kind here,
      endFrom_keepEnds kind here, ih others later]

/-- The ends of a long run do not follow each other, so there are dots between them. -/
theorem linesFrom_keepEnds {address : Nat} {block : List Entry}
    (kind : IsBlock block) (h : Contiguous address block) :
    linesFrom address (keepEnds block) = blockLines block := by
  by_cases long : 8 < block.length
  · obtain ⟨first, last, head, final, kept, here, there, -, zeros⟩ :=
      exists_ends_of_long kind long h
    have apart : first.following ≠ last.address.toNat := by
      rw [Entry.following, zeros first (List.mem_of_head? head), ← here, List.length_singleton]
      omega
    simp [kept, linesFrom, here.symm, apart, blockLines, long, head, final]
  · rw [keepEnds_of_short (Nat.not_lt.1 long), blockLines, if_neg long]
    exact linesFrom_of_contiguous h

theorem head?_keepEnds (block : List Entry) : (keepEnds block).head? = block.head? := by
  unfold keepEnds
  split
  · cases block <;> simp
  · rfl

theorem head?_flatMap_keepEnds {blocks : List (List Entry)}
    (kinds : ∀ block ∈ blocks, IsBlock block) :
    (blocks.flatMap keepEnds).head? = blocks.flatten.head? := by
  cases blocks with
  | nil => rfl
  | cons block more =>
    have nonempty : block ≠ [] := (kinds block List.mem_cons_self).ne_nil
    rw [List.flatMap_cons, List.flatten_cons, List.head?_append, List.head?_append, head?_keepEnds]
    cases block with
    | nil => exact absurd rfl nonempty
    | cons e rest => rfl

namespace CutAtZeroRuns

variable {address : Nat} {entries : List Entry} {blocks : List (List Entry)}

/-- No dots stand before the first entry, which is always kept. -/
theorem shortLines?_eq_linesFrom (cut : CutAtZeroRuns entries blocks)
    (contiguous : Contiguous address entries) :
    shortLines? entries = some (linesFrom address (blocks.flatMap keepEnds)) := by
  have start := head?_flatMap_keepEnds cut.block
  rw [cut.joined] at start
  rw [shortLines?, cut.shorten?_eq, Option.map_some]
  cases kept : blocks.flatMap keepEnds with
  | nil => rfl
  | cons e rest =>
    rw [kept] at start
    cases entries with
    | nil => cases start
    | cons e' others =>
      cases start
      rw [linesWithGaps_cons, linesFrom, if_pos contiguous.1.symm]

theorem shortLines?_eq (cut : CutAtZeroRuns entries blocks)
    (contiguous : Contiguous address entries) :
    shortLines? entries = some (blocks.flatMap blockLines) := by
  rw [cut.shortLines?_eq_linesFrom contiguous]
  apply congrArg some
  apply flatMap_keepEnds (fun _ => rfl) linesFrom_append (fun _ _ => linesFrom_keepEnds) cut.block
  rw [cut.joined]
  exact contiguous

end CutAtZeroRuns

/-- The program of a file is listed in full before it is shortened. -/
theorem ofListing_eq {path : String} {file : Option (List UInt8)} {p : ProgramImage}
    (read : ProgramImage.readFile file = .ok p) {lines : List String}
    (shown : shortLines? (sweepFrom 0 p.bytes) = some lines) :
    Report.ofListing path file = ⟨0, String.join (lines.map (· ++ "\n")), ""⟩ := by
  have listed : ofImage? p.bytes = some (sweepFrom 0 p.bytes) := if_pos p.length_le
  rw [Report.ofListing, read]
  simp only [listed, Option.bind_some, shown]

theorem line_ne_dots (e : Entry) : e.line ≠ "..." := by
  intro same
  have chars := congrArg String.toList same
  simp [Entry.line] at chars

/-- The report of a listing collapses exactly the long zero runs. It has all lines of the listing in
order, but for the entries between the first and the last one of a zero run of more than eight,
which one line of dots stands for. -/
theorem long_zero_runs_collapse (path : String) {file : Option (List UInt8)} {p : ProgramImage}
    (read : ProgramImage.readFile file = .ok p) :
    ∃ entries, ofImage? p.bytes = some entries ∧
      (∀ e ∈ entries, e.line ≠ "...") ∧
      (∃ blocks, CutAtZeroRuns entries blocks) ∧
      ∀ blocks, CutAtZeroRuns entries blocks →
        Report.ofListing path file =
          ⟨0, String.join ((blocks.flatMap blockLines).map (· ++ "\n")), ""⟩ := by
  have contiguous : Contiguous 0 (sweepFrom 0 p.bytes) :=
    contiguous_sweepFrom (by simpa using p.length_le)
  refine ⟨sweepFrom 0 p.bytes, if_pos p.length_le, fun e _ => line_ne_dots e,
    ⟨_, cutAtZeroRuns_splitBy _⟩, ?_⟩
  intro blocks cut
  exact ofListing_eq read (cut.shortLines?_eq contiguous)

/-- An output with a zero operand, nine zero bytes and a halt. -/
def sparse : ProgramImage :=
  ⟨[0x06, 0x00, 0x00, 0x00, 0x00, 0x00, 0x00, 0x00, 0x00, 0x00, 0x00, 0x1b], by decide⟩

theorem nine_zeros_collapse :
    ProgramImage.readFile (some (Utf8.encode sparse.render.toList)) = .ok sparse ∧
    (Report.ofListing "sparse" (some (Utf8.encode sparse.render.toList))).stdout =
      "0x00:\t06 00   \tprn\tr0\n0x02:\t00      \t.byte\t0x00\n...\n" ++
        "0x0a:\t00      \t.byte\t0x00\n0x0b:\t1b      \thlt\n" := by
  have read : ProgramImage.readFile (some (Utf8.encode sparse.render.toList)) = .ok sparse := by
    rw [ProgramImage.readFile, ProgramImage.read_render]
    rfl
  refine ⟨read, ?_⟩
  obtain ⟨entries, listed, -, -, collapsed⟩ := long_zero_runs_collapse "sparse" read
  have swept : ofImage? sparse.bytes = some (⟨0x00, [0x06, 0x00], some (.unary .prn .r0)⟩ ::
    (List.range' 2 9).map (fun a => ⟨UInt8.ofNat a, [0x00], none⟩) ++
      [⟨0x0b, [0x1b], some (.nullary .hlt)⟩]) := by cbv
  rw [swept] at listed
  obtain rfl := Option.some.inj listed
  rw [collapsed _ (cutAtZeroRuns_splitBy _)]
  decide

end EightBit.Listing
