/-!
# UTF-8 text in bytes

Bytes are split into well-formed characters and ill-formed pieces. A piece is the longest start of
a character that the next byte does not continue, or a single byte that starts none.
-/
namespace EightBit.Utf8

/-- A character of which the first bytes have been read: its bits so far, how many bytes follow the
next one, and the range the next one must lie in. -/
structure Opened where
  bits : Nat
  after : Nat
  low : UInt8
  high : UInt8
  deriving DecidableEq, Repr

inductive Start
  | whole (c : Char)
  | opened (o : Opened)
  | stray
  deriving DecidableEq, Repr

/-- What a byte starts. The ranges leave out overlong forms, surrogates and numbers past the last
code point. -/
def start (b : UInt8) : Start :=
  if b < 0x80 then .whole (Char.ofNat b.toNat)
  else if b < 0xc2 then .stray
  else if b < 0xe0 then .opened ⟨b.toNat - 0xc0, 0, 0x80, 0xbf⟩
  else if b = 0xe0 then .opened ⟨0x0, 1, 0xa0, 0xbf⟩
  else if b = 0xed then .opened ⟨0xd, 1, 0x80, 0x9f⟩
  else if b < 0xf0 then .opened ⟨b.toNat - 0xe0, 1, 0x80, 0xbf⟩
  else if b = 0xf0 then .opened ⟨0x0, 2, 0x90, 0xbf⟩
  else if b < 0xf4 then .opened ⟨b.toNat - 0xf0, 2, 0x80, 0xbf⟩
  else if b = 0xf4 then .opened ⟨0x4, 2, 0x80, 0x8f⟩
  else .stray

/-- A well-formed character, or nothing for an ill-formed piece. -/
abbrev Piece := Option Char

def feedFirst (b : UInt8) : List Piece × Option Opened :=
  match start b with
  | .whole c => ([some c], none)
  | .opened o => ([], some o)
  | .stray => ([none], none)

def feedNext (o : Opened) (b : UInt8) : List Piece × Option Opened :=
  if o.low ≤ b ∧ b ≤ o.high then
    let bits := o.bits * 64 + (b.toNat - 0x80)
    match o.after with
    | 0 => ([some (Char.ofNat bits)], none)
    | after + 1 => ([], some ⟨bits, after, 0x80, 0xbf⟩)
  else
    let (done, opened) := feedFirst b
    (none :: done, opened)

def feed : Option Opened → UInt8 → List Piece × Option Opened
  | none, b => feedFirst b
  | some o, b => feedNext o b

def piecesFrom : Option Opened → List UInt8 → List Piece
  | none, [] => []
  | some _, [] => [none]
  | opened, b :: bytes =>
    let (done, opened) := feed opened b
    done ++ piecesFrom opened bytes

def pieces (bytes : List UInt8) : List Piece := piecesFrom none bytes

def decode? (bytes : List UInt8) : Option (List Char) := (pieces bytes).mapM id

/-- Every ill-formed piece becomes one replacement character. -/
def decodeLossy (bytes : List UInt8) : List Char := (pieces bytes).map (·.getD '\ufffd')

def encode (text : List Char) : List UInt8 := text.flatMap String.utf8EncodeChar

theorem pieces_ascii {b : UInt8} (h : b < 0x80) (bytes : List UInt8) :
    pieces (b :: bytes) = some (Char.ofNat b.toNat) :: pieces bytes := by
  simp [pieces, piecesFrom, feed, feedFirst, start, h]

/-- Replacement leaves well-formed text alone. -/
theorem decodeLossy_of_decode? {bytes : List UInt8} {text : List Char}
    (h : decode? bytes = some text) : decodeLossy bytes = text := by
  unfold decode? at h
  unfold decodeLossy
  generalize pieces bytes = ps at h
  induction ps generalizing text with
  | nil => simp_all
  | cons p ps ih =>
    cases p with
    | none => simp at h
    | some c =>
      simp only [List.mapM_cons, id, Option.bind_eq_bind, Option.bind_some, Option.pure_def,
        Option.bind_eq_some_iff, Option.some.injEq] at h
      obtain ⟨rest, hr, rfl⟩ := h
      simp [ih hr]

end EightBit.Utf8
