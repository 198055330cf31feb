import Mathlib.Data.List.SplitBy
import EightBit.ListingElision

/-!
# Removal of long zero runs

A listing is cut into zero runs that could not be longer and its other entries one by one. The pass
over the entries finds the runs of the cut, and a run that is pending at the end of the list is one
of them. Taking out the middle of a run leaves the entries before it where they are, so from the
last run to the first one every span that is taken out is the middle of a run.
-/
namespace EightBit.Listing

/-- Single zero bytes in a row. -/
structure ZeroRun (run : List Entry) : Prop where
  nonempty : run ≠ []
  zeros : ∀ e ∈ run, e.bytes = [0]

/-- A zero run, or an entry that is something else by itself. -/
def IsBlock (block : List Entry) : Prop := ZeroRun block ∨ ∃ e, block = [e] ∧ e.bytes ≠ [0]

/-- A listing cut into zero runs that could not be longer and into other entries one by one. -/
structure CutAtZeroRuns (entries : List Entry) (blocks : List (List Entry)) : Prop where
  joined : blocks.flatten = entries
  block : ∀ block ∈ blocks, IsBlock block
  apart : blocks.IsChain fun first second => ¬ (ZeroRun first ∧ ZeroRun second)

/-- The first and the last entry of a long block, all entries of a shorter one. -/
def keepEnds (block : List Entry) : List Entry :=
  if longestRun < block.length then block.head?.toList ++ block.getLast?.toList else block

theorem keepEnds_of_short {block : List Entry} (h : block.length ≤ longestRun) :
    keepEnds block = block := if_neg (Nat.not_lt.2 h)

/-- A long block has entries at both ends with others between them. -/
theorem exists_middle_of_long {block : List Entry} (long : longestRun < block.length) :
    ∃ first middle last, block = first :: (middle ++ [last]) ∧ keepEnds block = [first, last] := by
  rw [keepEnds, if_pos long]
  cases block with
  | nil => cases long
  | cons first rest =>
    obtain rfl | ⟨middle, last, rfl⟩ := List.eq_nil_or_concat rest
    · simp [longestRun] at long
    · refine ⟨first, middle, last, by rw [List.concat_eq_append], ?_⟩
      rw [List.concat_eq_append, ← List.cons_append, List.getLast?_concat]
      rfl

theorem isZeroByte_iff {e : Entry} : e.isZeroByte = true ↔ e.bytes = [0] := by
  simp [Entry.isZeroByte]

theorem IsBlock.ne_nil {block : List Entry} (kind : IsBlock block) : block ≠ [] := by
  rcases kind with run | ⟨e, rfl, -⟩
  · exact run.nonempty
  · exact List.cons_ne_nil e []

/-! There is such a cut. -/

def bothZero (e next : Entry) : Bool := e.isZeroByte && next.isZeroByte

theorem bothZero_iff {e next : Entry} :
    bothZero e next = true ↔ e.bytes = [0] ∧ next.bytes = [0] := by
  simp [bothZero, isZeroByte_iff]

theorem zeros_of_isChain {e next : Entry} {rest : List Entry}
    (h : (e :: next :: rest).IsChain fun e next => bothZero e next) :
    ∀ x ∈ e :: next :: rest, x.bytes = [0] := by
  induction rest generalizing e next with
  | nil =>
    obtain ⟨both, -⟩ := List.isChain_cons_cons.1 h
    obtain ⟨zero, zero'⟩ := bothZero_iff.1 both
    simp [zero, zero']
  | cons third rest ih =>
    obtain ⟨both, later⟩ := List.isChain_cons_cons.1 h
    intro x member
    rcases List.mem_cons.1 member with rfl | member
    · exact (bothZero_iff.1 both).1
    · exact ih later x member

theorem cutAtZeroRuns_splitBy (entries : List Entry) :
    CutAtZeroRuns entries (entries.splitBy bothZero) where
  joined := List.flatten_splitBy bothZero entries
  block := by
    intro block member
    have nonempty : block ≠ [] := List.ne_nil_of_mem_splitBy member
    have chain := List.isChain_of_mem_splitBy member
    match block with
    | [] => exact absurd rfl nonempty
    | [e] =>
      by_cases zero : e.bytes = [0]
      · exact .inl ⟨nonempty, by simpa using zero⟩
      · exact .inr ⟨e, rfl, zero⟩
    | e :: next :: rest => exact .inl ⟨nonempty, zeros_of_isChain chain⟩
  apart := by
    apply (List.isChain_getLast_head_splitBy bothZero entries).imp
    rintro first second ⟨_, _, differ⟩ ⟨run, run'⟩
    have both := bothZero_iff.2
      ⟨run.zeros _ (List.getLast_mem run.nonempty), run'.zeros _ (List.head_mem run'.nonempty)⟩
    rw [differ] at both
    cases both

/-! What the pass over the entries finds -/

/-- The zero runs among blocks that stand one after the other from a place on. -/
def spansFrom (place : Nat) : List (List Entry) → List Span
  | [] => []
  | block :: more =>
    if block.all Entry.isZeroByte then
      ⟨place, place + block.length⟩ :: spansFrom (place + block.length) more
    else spansFrom (place + block.length) more

theorem spansFrom_cons_of_zeroRun {block : List Entry} (run : ZeroRun block) (place : Nat)
    (more : List (List Entry)) :
    spansFrom place (block :: more) =
      ⟨place, place + block.length⟩ :: spansFrom (place + block.length) more :=
  if_pos (List.all_eq_true.2 fun e inside => isZeroByte_iff.2 (run.zeros e inside))

theorem spansFrom_cons_of_other {e : Entry} (other : e.bytes ≠ [0]) (place : Nat)
    (more : List (List Entry)) : spansFrom place ([e] :: more) = spansFrom (place + 1) more := by
  rw [spansFrom, if_neg (by simpa [isZeroByte_iff] using other), List.length_singleton]

namespace Scan

theorem noteFrom_cons (s : Scan) (place : Nat) (e : Entry) (rest : List Entry) :
    s.noteFrom place (e :: rest) = (s.note e place).noteFrom (place + 1) rest := rfl

theorem noteFrom_append (s : Scan) (place : Nat) (first second : List Entry) :
    s.noteFrom place (first ++ second) =
      (s.noteFrom place first).noteFrom (place + first.length) second := by
  rw [noteFrom, List.zipIdx_append, List.foldl_append, noteFrom, noteFrom]

theorem note_of_zero {e : Entry} (zero : e.bytes = [0]) (s : Scan) (place : Nat) :
    s.note e place = ⟨s.ended, some (s.pending.getD place)⟩ := by
  obtain ⟨ended, pending⟩ := s
  rw [note, if_pos (isZeroByte_iff.2 zero)]
  cases pending <;> rfl

theorem note_of_other {e : Entry} (other : e.bytes ≠ [0]) (s : Scan) (place : Nat) :
    s.note e place = s.close place := by
  rw [note, if_neg (mt isZeroByte_iff.1 other)]

theorem close_of_pending {s : Scan} {start : Nat} (h : s.pending = some start) (place : Nat) :
    s.close place = ⟨s.ended ++ [⟨start, place⟩], none⟩ := by
  rw [close, h]

theorem close_of_none {s : Scan} (h : s.pending = none) (place : Nat) : s.close place = s := by
  rw [close, h]

theorem pending_close (s : Scan) (place : Nat) : (s.close place).pending = none := by
  cases h : s.pending with
  | none => rw [close_of_none h, h]
  | some start => rw [close_of_pending h]

/-- A zero run starts at its first entry unless one is pending already. -/
theorem noteFrom_of_zeros {run : List Entry} (zeros : ∀ e ∈ run, e.bytes = [0])
    (nonempty : run ≠ []) (s : Scan) (place : Nat) :
    s.noteFrom place run = ⟨s.ended, some (s.pending.getD place)⟩ := by
  induction run generalizing s place with
  | nil => exact absurd rfl nonempty
  | cons e rest ih =>
    rw [noteFrom_cons, note_of_zero (zeros e List.mem_cons_self)]
    cases rest with
    | nil => rfl
    | cons next rest =>
      exact ih (fun x inside => zeros x (List.mem_cons_of_mem e inside)) (List.cons_ne_nil _ _) _ _

/-- The runs that are found in blocks which follow the entries noted so far. No zero run follows one
that is pending, so a pending run ends where the blocks begin. -/
theorem ended_noteFrom {blocks : List (List Entry)} (kinds : ∀ block ∈ blocks, IsBlock block)
    (apart : blocks.IsChain fun first second => ¬ (ZeroRun first ∧ ZeroRun second))
    (s : Scan) (fresh : ∀ block ∈ blocks.head?, ZeroRun block → s.pending = none) (place : Nat) :
    ((s.noteFrom place blocks.flatten).close (place + blocks.flatten.length)).ended =
      (s.close place).ended ++ spansFrom place blocks := by
  induction blocks generalizing s place with
  | nil => exact (List.append_nil _).symm
  | cons block more ih =>
    obtain ⟨kind, others⟩ := List.forall_mem_cons.1 kinds
    have following := ih others apart.tail
    have total : place + (block :: more).flatten.length =
        place + block.length + more.flatten.length := by
      simp [Nat.add_assoc]
    rw [total, List.flatten_cons, noteFrom_append]
    rcases kind with run | ⟨e, rfl, other⟩
    · have none : s.pending = none := fresh block rfl run
      have begun : s.noteFrom place block = ⟨s.ended, some place⟩ := by
        rw [noteFrom_of_zeros run.zeros run.nonempty, none, Option.getD_none]
      have lone : ∀ next ∈ more.head?, ZeroRun next → (some place : Option Nat) = .none := by
        intro next first run'
        exact absurd ⟨run, run'⟩ (List.IsChain.rel_head? apart first)
      rw [begun, following ⟨s.ended, some place⟩ lone, close_of_pending rfl, close_of_none none,
        spansFrom_cons_of_zeroRun run, List.append_assoc, List.singleton_append]
    · have closed : s.noteFrom place [e] = s.close place := note_of_other other s place
      have none := s.pending_close place
      rw [closed, List.length_singleton, following (s.close place) (fun _ _ _ => none),
        close_of_none none, spansFrom_cons_of_other other]

end Scan

theorem CutAtZeroRuns.zeroRuns_eq {entries : List Entry} {blocks : List (List Entry)}
    (cut : CutAtZeroRuns entries blocks) : zeroRuns entries = spansFrom 0 blocks := by
  have found := Scan.empty.ended_noteFrom cut.block cut.apart (fun _ _ _ => rfl) 0
  rw [cut.joined, Nat.zero_add] at found
  exact found

/-! What is taken out -/

theorem drain?_append (front middle back : List Entry) :
    drain? ⟨front.length, front.length + middle.length⟩ (front ++ (middle ++ back)) =
      some (front ++ back) := by
  rw [drain?, if_pos (by simp), List.take_left, ← List.append_assoc, ← List.length_append,
    List.drop_left]

/-- Only the middle of a long run is taken out, whatever stands around it. -/
theorem shortenRun?_append (front run back : List Entry) :
    shortenRun? ⟨front.length, front.length + run.length⟩ (front ++ (run ++ back)) =
      some (front ++ (keepEnds run ++ back)) := by
  have length : (Span.mk front.length (front.length + run.length)).length = run.length :=
    Nat.add_sub_cancel_left _ _
  rw [shortenRun?, length]
  by_cases long : longestRun < run.length
  · obtain ⟨first, middle, last, rfl, kept⟩ := exists_middle_of_long long
    have stop : front.length + (first :: (middle ++ [last])).length - 1 =
        (front ++ [first]).length + middle.length := by
      simp
      omega
    have drained := drain?_append (front ++ [first]) middle (last :: back)
    rw [← stop, List.length_append, List.length_singleton] at drained
    rw [if_pos long, kept]
    simpa using drained
  · rw [if_neg long, keepEnds_of_short (Nat.not_lt.1 long)]

/-- From the last run to the first one, each is still at the place where it was found. -/
theorem foldrM_shortenRun? {blocks : List (List Entry)} (kinds : ∀ block ∈ blocks, IsBlock block)
    (front : List Entry) :
    (spansFrom front.length blocks).foldrM shortenRun? (front ++ blocks.flatten) =
      some (front ++ blocks.flatMap keepEnds) := by
  induction blocks generalizing front with
  | nil => rfl
  | cons block more ih =>
    obtain ⟨kind, others⟩ := List.forall_mem_cons.1 kinds
    have later := ih others (front ++ block)
    rw [List.length_append, List.append_assoc, List.append_assoc] at later
    rw [List.flatten_cons, List.flatMap_cons]
    rcases kind with run | ⟨e, rfl, other⟩
    · rw [spansFrom_cons_of_zeroRun run, List.foldrM_cons, later]
      exact shortenRun?_append front block _
    · rw [spansFrom_cons_of_other other]
      exact later

/-- No span that is taken out lies outside of the list, and what stays of a block are its ends. -/
theorem CutAtZeroRuns.shorten?_eq {entries : List Entry} {blocks : List (List Entry)}
    (cut : CutAtZeroRuns entries blocks) :
    shorten? entries = some (blocks.flatMap keepEnds) := by
  have shortened := foldrM_shortenRun? cut.block []
  rw [List.nil_append, List.nil_append, cut.joined] at shortened
  rw [shorten?, cut.zeroRuns_eq, List.foldlM_reverse]
  exact shortened

end EightBit.Listing
