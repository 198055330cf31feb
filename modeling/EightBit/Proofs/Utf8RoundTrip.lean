import EightBit.Utf8Text

/-!
# Encoded text is read back

The bytes of a character are one well-formed piece, whatever follows them: its first byte opens it
with the bits and the range that its next byte keeps to. So the pieces of encoded text are its
characters, and both ways of reading bytes give the text back.
-/
namespace EightBit.Utf8

/-- A byte with six bits of a character that has begun. -/
def carrier (n : Nat) : UInt8 := UInt8.ofNat (n % 64 + 0x80)

theorem toNat_carrier (n : Nat) : (carrier n).toNat = n % 64 + 0x80 := by
  rw [carrier, UInt8.toNat_ofNat']
  omega

theorem pieces_of_opened {b : UInt8} {o : Opened} (opens : start b = .opened o)
    (bytes : List UInt8) : pieces (b :: bytes) = piecesFrom (some o) bytes := by
  simp [pieces, piecesFrom, feed, feedFirst, opens]

theorem carrier_mem_range {low high : UInt8} {n : Nat} (above : low.toNat ≤ n % 64 + 0x80)
    (below : n % 64 + 0x80 ≤ high.toNat) : low ≤ carrier n ∧ carrier n ≤ high := by
  simp only [UInt8.le_iff_toNat_le, toNat_carrier]
  exact ⟨above, below⟩

/-- The last byte of a character completes it. -/
theorem piecesFrom_last {bits n : Nat} {low high : UInt8} (above : low.toNat ≤ n % 64 + 0x80)
    (below : n % 64 + 0x80 ≤ high.toNat) (bytes : List UInt8) :
    piecesFrom (some ⟨bits, 0, low, high⟩) (carrier n :: bytes) =
      some (Char.ofNat (bits * 64 + n % 64)) :: pieces bytes := by
  simp [piecesFrom, feed, feedNext, carrier_mem_range above below, toNat_carrier, pieces]

/-- A byte before the last one adds its bits. -/
theorem piecesFrom_inner {bits after n : Nat} {low high : UInt8}
    (above : low.toNat ≤ n % 64 + 0x80) (below : n % 64 + 0x80 ≤ high.toNat)
    (bytes : List UInt8) :
    piecesFrom (some ⟨bits, after + 1, low, high⟩) (carrier n :: bytes) =
      piecesFrom (some ⟨bits * 64 + n % 64, after, 0x80, 0xbf⟩) bytes := by
  simp [piecesFrom, feed, feedNext, carrier_mem_range above below, toNat_carrier]

theorem start_of_two {lead : Nat} (least : 2 ≤ lead) (most : lead < 32) :
    start (UInt8.ofNat (lead + 0xc0)) = .opened ⟨lead, 0, 0x80, 0xbf⟩ := by
  have all : ∀ lead : Fin 32, 2 ≤ lead.val →
      start (UInt8.ofNat (lead.val + 0xc0)) = .opened ⟨lead, 0, 0x80, 0xbf⟩ := by decide
  exact all ⟨lead, most⟩ least

/-- The ranges leave out what fits in two bytes, and the surrogates. -/
theorem start_of_three {lead : Nat} (most : lead < 16) :
    start (UInt8.ofNat (lead + 0xe0)) =
      .opened ⟨lead, 1, if lead = 0 then 0xa0 else 0x80, if lead = 13 then 0x9f else 0xbf⟩ := by
  have all : ∀ lead : Fin 16, start (UInt8.ofNat (lead.val + 0xe0)) =
      .opened ⟨lead, 1, if lead.val = 0 then 0xa0 else 0x80,
        if lead.val = 13 then 0x9f else 0xbf⟩ := by decide
  exact all ⟨lead, most⟩

/-- The ranges leave out what fits in three bytes, and what is past the last code point. -/
theorem start_of_four {lead : Nat} (most : lead < 5) :
    start (UInt8.ofNat (lead + 0xf0)) =
      .opened ⟨lead, 2, if lead = 0 then 0x90 else 0x80, if lead = 4 then 0x8f else 0xbf⟩ := by
  have all : ∀ lead : Fin 5, start (UInt8.ofNat (lead.val + 0xf0)) =
      .opened ⟨lead, 2, if lead.val = 0 then 0x90 else 0x80,
        if lead.val = 4 then 0x8f else 0xbf⟩ := by decide
  exact all ⟨lead, most⟩

theorem pieces_of_one {v : Nat} (most : v ≤ 0x7f) (bytes : List UInt8) :
    pieces (UInt8.ofNat v :: bytes) = some (Char.ofNat v) :: pieces bytes := by
  have byte : (UInt8.ofNat v).toNat = v := by
    rw [UInt8.toNat_ofNat']
    omega
  have small : UInt8.ofNat v < 0x80 := by
    rw [UInt8.lt_iff_toNat_lt, byte]
    exact Nat.lt_succ_of_le most
  rw [pieces_ascii small, byte]

theorem pieces_of_two {v : Nat} (least : 0x7f < v) (most : v ≤ 0x7ff) (bytes : List UInt8) :
    pieces (UInt8.ofNat (v / 64 % 32 + 0xc0) :: carrier v :: bytes) =
      some (Char.ofNat v) :: pieces bytes := by
  have bits : v / 64 % 32 * 64 + v % 64 = v := by omega
  rw [pieces_of_opened (start_of_two (by omega) (by omega)), piecesFrom_last, bits]
  · simp
  · simp
    omega

theorem pieces_of_three {v : Nat} (least : 0x7ff < v) (most : v ≤ 0xffff)
    (valid : v < 0xd800 ∨ 0xdfff < v) (bytes : List UInt8) :
    pieces (UInt8.ofNat (v / 4096 % 16 + 0xe0) :: carrier (v / 64) :: carrier v :: bytes) =
      some (Char.ofNat v) :: pieces bytes := by
  have bits : (v / 4096 % 16 * 64 + v / 64 % 64) * 64 + v % 64 = v := by omega
  rw [pieces_of_opened (start_of_three (by omega)), piecesFrom_inner, piecesFrom_last, bits]
  · simp
  · simp
    omega
  · split
    · simp
      omega
    · simp
  · split <;> simp <;> omega

theorem pieces_of_four {v : Nat} (least : 0xffff < v) (most : v < 0x110000)
    (bytes : List UInt8) :
    pieces (UInt8.ofNat (v / 262144 % 8 + 0xf0) :: carrier (v / 4096) :: carrier (v / 64) ::
      carrier v :: bytes) = some (Char.ofNat v) :: pieces bytes := by
  have bits : ((v / 262144 % 8 * 64 + v / 4096 % 64) * 64 + v / 64 % 64) * 64 + v % 64 = v := by
    omega
  rw [pieces_of_opened (start_of_four (by omega)), piecesFrom_inner, piecesFrom_inner,
    piecesFrom_last, bits]
  · simp
  · simp
    omega
  · simp
  · simp
    omega
  · split
    · simp
      omega
    · simp
  · split <;> simp <;> omega

/-- A character is one piece, whatever follows its bytes. -/
theorem pieces_encodeChar (c : Char) (bytes : List UInt8) :
    pieces (String.utf8EncodeChar c ++ bytes) = some c :: pieces bytes := by
  have valid : c.val.toNat < 0xd800 ∨ 0xdfff < c.val.toNat ∧ c.val.toNat < 0x110000 := c.valid
  have char : Char.ofNat c.val.toNat = c := Char.ofNat_toNat c
  unfold String.utf8EncodeChar
  generalize c.val.toNat = v at valid char
  rw [← char]
  by_cases one : v ≤ 0x7f
  · rw [if_pos one]
    exact pieces_of_one one bytes
  · rw [if_neg one]
    by_cases two : v ≤ 0x7ff
    · rw [if_pos two]
      exact pieces_of_two (by omega) two bytes
    · rw [if_neg two]
      by_cases three : v ≤ 0xffff
      · rw [if_pos three]
        exact pieces_of_three (by omega) three (by omega) bytes
      · rw [if_neg three]
        exact pieces_of_four (by omega) (by omega) bytes

theorem pieces_encode (text : List Char) : pieces (encode text) = text.map some := by
  induction text with
  | nil => rfl
  | cons c text ih =>
    rw [encode, List.flatMap_cons, pieces_encodeChar, ← encode, ih, List.map_cons]

theorem decode?_encode (text : List Char) : decode? (encode text) = some text := by
  rw [decode?, pieces_encode]
  induction text with
  | nil => rfl
  | cons c text ih => simp_all

theorem decodeLossy_encode (text : List Char) : decodeLossy (encode text) = text :=
  decodeLossy_of_decode? (decode?_encode text)

theorem encode_append (first second : List Char) :
    encode (first ++ second) = encode first ++ encode second :=
  List.flatMap_append

end EightBit.Utf8
