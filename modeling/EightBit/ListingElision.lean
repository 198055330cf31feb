import EightBit.Listing

/-!
# Shortened listings

One pass over the entries finds the runs of zero bytes. Of a long run all entries but the first and
the last one are taken out, the last run first, so that the runs before it stay where they are.
Dots stand wherever an entry does not start where the one before it ends.
-/
namespace EightBit.Listing

/-- Places in a list from `start` up to `stop`, which is not one of them. -/
structure Span where
  start : Nat
  stop : Nat
  deriving DecidableEq, Repr

def Span.length (span : Span) : Nat := span.stop - span.start

/-- The runs that have ended so far, and where one starts that has not. -/
structure Scan where
  ended : List Span
  pending : Option Nat
  deriving DecidableEq, Repr

namespace Scan

def empty : Scan := ⟨[], none⟩

/-- A run that has not ended ends before this place. -/
def close (s : Scan) (place : Nat) : Scan :=
  match s.pending with
  | some start => ⟨s.ended ++ [⟨start, place⟩], none⟩
  | none => s

/-- The next entry, with its place. -/
def note (s : Scan) (e : Entry) (place : Nat) : Scan :=
  if e.isZeroByte then
    match s.pending with
    | some _ => s
    | none => { s with pending := some place }
  else s.close place

/-- Entries one after the other, the first of them at this place. -/
def noteFrom (s : Scan) (place : Nat) (entries : List Entry) : Scan :=
  (entries.zipIdx place).foldl (fun s (e, place) => s.note e place) s

end Scan

def zeroRuns (entries : List Entry) : List Span :=
  ((Scan.empty.noteFrom 0 entries).close entries.length).ended

/-- A list without the entries of a span, which has to lie in it. -/
def drain? (span : Span) (entries : List Entry) : Option (List Entry) :=
  if span.start ≤ span.stop ∧ span.stop ≤ entries.length then
    some (entries.take span.start ++ entries.drop span.stop)
  else none

/-- Runs of more entries than this are shortened. -/
def longestRun : Nat := 8

def shortenRun? (run : Span) (entries : List Entry) : Option (List Entry) :=
  if longestRun < run.length then drain? ⟨run.start + 1, run.stop - 1⟩ entries else some entries

def shorten? (entries : List Entry) : Option (List Entry) :=
  (zeroRuns entries).reverse.foldlM (fun kept run => shortenRun? run kept) entries

def linesWithGaps : List Entry → List String
  | [] => []
  | [e] => [e.line]
  | e :: next :: rest =>
    if e.following = next.address.toNat then e.line :: linesWithGaps (next :: rest)
    else e.line :: "..." :: linesWithGaps (next :: rest)

def shortLines? (entries : List Entry) : Option (List String) :=
  (shorten? entries).map linesWithGaps

end EightBit.Listing
