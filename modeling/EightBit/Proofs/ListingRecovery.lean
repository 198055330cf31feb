import EightBit.Proofs.EntryLine
import EightBit.Proofs.ZeroRuns

/-!
# Recovering a program from its listing

The lines of a report give the address and the bytes of each entry that is shown. What is left out
between two of them are zeros, as many as their addresses tell, and nothing is left out at the end,
so the report of a program determines it.
-/
namespace EightBit.Listing

/-- Bytes that are known at some addresses, from `address` on, with zeros in the gaps. -/
def fillFrom : Nat → List (Nat × List UInt8) → List UInt8
  | _, [] => []
  | address, (place, bytes) :: rest =>
    List.replicate (place - address) 0 ++ bytes ++ fillFrom (place + bytes.length) rest

/-- The bytes that a report shows, with what it leaves out. -/
def recovered (stdout : String) : List UInt8 :=
  fillFrom 0 ((Text.lines stdout.toList).filterMap readLine?)

/-- What a line tells about its entry. -/
def placed (e : Entry) : Nat × List UInt8 := (e.address.toNat, e.bytes)

theorem fillFrom_append (address : Nat) (first second : List Entry) :
    fillFrom address ((first ++ second).map placed) =
      fillFrom address (first.map placed) ++
        fillFrom (endFrom address first) (second.map placed) := by
  induction first generalizing address with
  | nil => rfl
  | cons e rest ih =>
    rw [List.cons_append, List.map_cons, List.map_cons, endFrom_cons, placed, fillFrom, fillFrom,
      ← Entry.following, ih, ← List.append_assoc]

theorem fillFrom_of_contiguous {address : Nat} {entries : List Entry}
    (h : Contiguous address entries) :
    fillFrom address (entries.map placed) = entries.flatMap Entry.bytes := by
  induction entries generalizing address with
  | nil => rfl
  | cons e rest ih =>
    obtain ⟨here, later⟩ := h
    rw [List.map_cons, placed, fillFrom, ← Entry.following, ih later, here, Nat.sub_self,
      List.flatMap_cons]
    rfl

/-- The gap in a long run is filled with as many zeros as were left out of it. -/
theorem fillFrom_keepEnds {address : Nat} {block : List Entry} (kind : IsBlock block)
    (h : Contiguous address block) :
    fillFrom address ((keepEnds block).map placed) = block.flatMap Entry.bytes := by
  by_cases long : 8 < block.length
  · obtain ⟨first, last, head, final, kept, here, there, -, zeros⟩ :=
      exists_ends_of_long kind long h
    have zero : first.bytes = [0] := zeros first (List.mem_of_head? head)
    have zero' : last.bytes = [0] := zeros last (List.mem_of_getLast? final)
    have gap : last.address.toNat - (first.address.toNat + 1) = block.length - 2 := by omega
    have count : block.length = 1 + (block.length - 2) + 1 := by omega
    rw [kept, flatMap_bytes_of_zeros zeros, count, List.replicate_add, List.replicate_add, ← gap]
    simp [placed, fillFrom, zero, zero', here]
  · rw [keepEnds_of_short (Nat.not_lt.1 long)]
    exact fillFrom_of_contiguous h

theorem fillFrom_flatMap_keepEnds {address : Nat} {entries : List Entry}
    {blocks : List (List Entry)} (cut : CutAtZeroRuns entries blocks)
    (h : Contiguous address entries) :
    fillFrom address ((blocks.flatMap keepEnds).map placed) = entries.flatMap Entry.bytes := by
  rw [← cut.joined] at h
  calc fillFrom address ((blocks.flatMap keepEnds).map placed)
      = blocks.flatMap (List.flatMap Entry.bytes) :=
        flatMap_keepEnds (f := fun address entries => fillFrom address (entries.map placed))
          (fun _ => rfl) fillFrom_append (fun _ _ => fillFrom_keepEnds) cut.block h
    _ = blocks.flatten.flatMap Entry.bytes := by
        rw [List.flatten_eq_flatMap, List.flatMap_assoc]
        rfl
    _ = entries.flatMap Entry.bytes := by rw [cut.joined]

theorem filterMap_readLine?_linesFrom (address : Nat) (entries : List Entry) :
    ((linesFrom address entries).map String.toList).filterMap readLine? = entries.map placed := by
  induction entries generalizing address with
  | nil => rfl
  | cons e rest ih =>
    have shown : ((e.line :: linesFrom e.following rest).map String.toList).filterMap readLine? =
        placed e :: rest.map placed := by
      rw [List.map_cons, List.filterMap_cons_some (readLine?_line e), ih, placed]
    rw [linesFrom]
    split
    · exact shown
    · exact (List.filterMap_cons_none readLine?_dots).trans shown

theorem oneLine_of_mem_linesFrom {address : Nat} {entries : List Entry} {line : String}
    (h : line ∈ linesFrom address entries) : Text.OneLine line := by
  induction entries generalizing address with
  | nil => cases h
  | cons e rest ih =>
    have shown (h : line ∈ e.line :: linesFrom e.following rest) : Text.OneLine line := by
      rcases List.mem_cons.1 h with rfl | later
      · exact e.oneLine_line
      · exact ih later
    rw [linesFrom] at h
    split at h
    · exact shown h
    · rcases List.mem_cons.1 h with rfl | h
      · decide
      · exact shown h

theorem lines_join_newline {rows : List String} (h : ∀ row ∈ rows, Text.OneLine row) :
    Text.lines (String.join (rows.map (· ++ "\n"))).toList = rows.map String.toList := by
  have joined : (String.join (rows.map (· ++ "\n"))).toList =
      (rows.map String.toList).flatMap (· ++ ['\n']) := by
    simp [String.toList_join, List.flatMap_map]
  rw [joined, Text.lines_flatMap_newline]
  intro row member
  obtain ⟨text, inside, rfl⟩ := List.mem_map.1 member
  refine ⟨fun newline => (h text inside _ newline).1 rfl, fun last => ?_⟩
  exact (h text inside _ (List.mem_of_getLast? last)).2 rfl

/-- The bytes of a listed program are recovered from the report. -/
theorem recovered_stdout (path : String) {file : Option (List UInt8)} {p : ProgramImage}
    (read : ProgramImage.readFile file = .ok p) :
    recovered (Report.ofListing path file).stdout = p.bytes := by
  have contiguous : Contiguous 0 (sweepFrom 0 p.bytes) :=
    contiguous_sweepFrom (by simpa using p.length_le)
  have cut := cutAtZeroRuns_splitBy (sweepFrom 0 p.bytes)
  rw [ofListing_eq read (cut.shortLines?_eq_linesFrom contiguous), recovered,
    lines_join_newline fun _ => oneLine_of_mem_linesFrom, filterMap_readLine?_linesFrom,
    fillFrom_flatMap_keepEnds cut contiguous, flatMap_bytes_sweepFrom]

/-- The file of a text that parses is read as that program. -/
theorem readFile_of_parse {text : String} {p : ProgramImage}
    (parsed : ProgramImage.parse text = .ok p) :
    ProgramImage.readFile (some (Utf8.encode text.toList)) = .ok p := by
  rw [ProgramImage.parse] at parsed
  rw [ProgramImage.readFile, ProgramImage.read_encode, parsed]
  rfl

/-- Texts that are listed alike are texts of one program. -/
theorem listing_determines_program (path path' : String) {text text' : String}
    {p p' : ProgramImage} (parsed : ProgramImage.parse text = .ok p)
    (parsed' : ProgramImage.parse text' = .ok p')
    (same : (Report.ofListing path (some (Utf8.encode text.toList))).stdout =
      (Report.ofListing path' (some (Utf8.encode text'.toList))).stdout) :
    p.bytes = p'.bytes :=
  calc p.bytes
      = recovered (Report.ofListing path (some (Utf8.encode text.toList))).stdout :=
        (recovered_stdout path (readFile_of_parse parsed)).symm
    _ = recovered (Report.ofListing path' (some (Utf8.encode text'.toList))).stdout := by rw [same]
    _ = p'.bytes := recovered_stdout path' (readFile_of_parse parsed')

/-- Rows without leading zeros and with a comment. -/
theorem sparse_rows_listed_alike :
    let rows := "110 # print\n0\n0\n0\n0\n0\n0\n0\n0\n0\n0\n11011\n"
    (Report.ofListing "sparse" (some (Utf8.encode sparse.render.toList))).stdout =
      (Report.ofListing "rows" (some (Utf8.encode rows.toList))).stdout ∧
    ∃ p, ProgramImage.parse rows = .ok p ∧ sparse.bytes = p.bytes := by
  intro rows
  have written : ProgramImage.parse sparse.render = .ok sparse := by
    rw [ProgramImage.parse, ← ProgramImage.read_encode, ProgramImage.read_render]
  have parsed : ProgramImage.parse rows = .ok sparse := by decide
  have same : (Report.ofListing "sparse" (some (Utf8.encode sparse.render.toList))).stdout =
      (Report.ofListing "rows" (some (Utf8.encode rows.toList))).stdout := by
    rw [Report.ofListing, Report.ofListing, readFile_of_parse written, readFile_of_parse parsed]
  exact ⟨same, sparse, parsed, listing_determines_program "sparse" "rows" written parsed same⟩

end EightBit.Listing
