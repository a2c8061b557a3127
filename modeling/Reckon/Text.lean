/-!
Text: blank space, bytes read as UTF-8, and lines. Bytes that cannot be read give one replacement
character for each longest run that still begins a character. A text is split at its line feeds,
and a stream of bytes is read up to each line feed; the two differ in the carriage returns they
keep.
-/

set_option autoImplicit false

namespace Reckon
namespace Text

/-- The ranges of code points with the White_Space property, in increasing order. -/
def blankRanges : List (Nat × Nat) :=
  [(0x09, 0x0D), (0x20, 0x20), (0x85, 0x85), (0xA0, 0xA0), (0x1680, 0x1680), (0x2000, 0x200A),
    (0x2028, 0x2029), (0x202F, 0x202F), (0x205F, 0x205F), (0x3000, 0x3000)]

def isBlank (c : Char) : Bool :=
  blankRanges.any fun (low, high) => decide (low ≤ c.toNat ∧ c.toNat ≤ high)

def dropEndWhile (p : Char → Bool) (cs : List Char) : List Char :=
  (cs.reverse.dropWhile p).reverse

def trim (cs : List Char) : List Char := dropEndWhile isBlank (cs.dropWhile isBlank)

def replacement : Char := '\uFFFD'

/-- What the first byte of a longer character promises. -/
structure Lead where
  follow : Nat
  bits : Nat
  /-- The least and the greatest byte allowed next; later ones range over all continuations. -/
  low : Nat
  high : Nat

/-- The second byte is restricted where a shorter form exists, at the surrogates and past the
last code point. -/
def Lead.ofByte? (b : Nat) : Option Lead :=
  if 0xC2 ≤ b ∧ b ≤ 0xDF then some ⟨1, b - 0xC0, 0x80, 0xBF⟩
  else if b = 0xE0 then some ⟨2, 0, 0xA0, 0xBF⟩
  else if b = 0xED then some ⟨2, 0xD, 0x80, 0x9F⟩
  else if 0xE1 ≤ b ∧ b ≤ 0xEF then some ⟨2, b - 0xE0, 0x80, 0xBF⟩
  else if b = 0xF0 then some ⟨3, 0, 0x90, 0xBF⟩
  else if 0xF1 ≤ b ∧ b ≤ 0xF3 then some ⟨3, b - 0xF0, 0x80, 0xBF⟩
  else if b = 0xF4 then some ⟨3, 4, 0x80, 0x8F⟩
  else none

def complete (low high : Nat) : Nat → Nat → Nat → List UInt8 → Char × Nat
  | 0, bits, used, _ => (Char.ofNat bits, used)
  | _ + 1, _, used, [] => (replacement, used)
  | follow + 1, bits, used, b :: bs =>
    if low ≤ b.toNat ∧ b.toNat ≤ high then
      complete 0x80 0xBF follow (bits * 64 + b.toNat % 64) (used + 1) bs
    else (replacement, used)

def firstChar (b : UInt8) (bs : List UInt8) : Char × Nat :=
  if b.toNat < 0x80 then (Char.ofNat b.toNat, 0)
  else match Lead.ofByte? b.toNat with
    | some l => complete l.low l.high l.follow l.bits 0 bs
    | none => (replacement, 0)

/-- Reads bytes of which the first `used` belong to a character already read. -/
def decodeFrom : Nat → List UInt8 → List Char
  | _, [] => []
  | used + 1, _ :: bs => decodeFrom used bs
  | 0, b :: bs => (firstChar b bs).1 :: decodeFrom (firstChar b bs).2 bs

def decode (bytes : List UInt8) : List Char := decodeFrom 0 bytes

def dropReturn : List Char → List Char
  | [] => []
  | c :: cs => if c = '\r' then cs else c :: cs

/-- The lines of a text, `current` being the line begun, backwards. A line feed ends a line
and takes the carriage return before it along. -/
def linesFrom (current : List Char) : List Char → List (List Char)
  | [] => if current.isEmpty then [] else [current.reverse]
  | c :: cs =>
    if c = '\n' then (dropReturn current).reverse :: linesFrom [] cs
    else linesFrom (c :: current) cs

def lines (cs : List Char) : List (List Char) := linesFrom [] cs

def piecesFrom (current : List UInt8) : List UInt8 → List (List UInt8)
  | [] => if current.isEmpty then [] else [current.reverse]
  | b :: bs =>
    if b = 10 then (b :: current).reverse :: piecesFrom [] bs
    else piecesFrom (b :: current) bs

def isLineEnd (c : Char) : Bool := c == '\r' || c == '\n'

def sourceLine (piece : List UInt8) : List Char := dropEndWhile isLineEnd (decode piece)

def sourceLines (bytes : List UInt8) : List (List Char) :=
  (piecesFrom [] bytes).map sourceLine

def byteSize (cs : List Char) : Nat := (cs.flatMap String.utf8EncodeChar).length

@[simp] theorem byteSize_nil : byteSize [] = 0 := rfl

@[simp] theorem byteSize_cons (c : Char) (cs : List Char) :
    byteSize (c :: cs) = c.utf8Size + byteSize cs := by simp [byteSize]

@[simp] theorem byteSize_append (cs ds : List Char) :
    byteSize (cs ++ ds) = byteSize cs + byteSize ds := by simp [byteSize]

/-- A text cut at a byte offset. There is no cut inside a character or beyond the end. -/
def splitAtByte? : Nat → List Char → Option (List Char × List Char)
  | 0, cs => some ([], cs)
  | _ + 1, [] => none
  | n + 1, c :: cs =>
    if c.utf8Size ≤ n + 1 then
      (splitAtByte? (n + 1 - c.utf8Size) cs).map (Prod.map (c :: ·) id)
    else none

theorem splitAtByte?_byteSize (head rest : List Char) :
    splitAtByte? (byteSize head) (head ++ rest) = some (head, rest) := by
  induction head with
  | nil => simp [splitAtByte?]
  | cons c head ih =>
    have hpos := c.utf8Size_pos
    obtain ⟨n, hn⟩ : ∃ n, c.utf8Size + byteSize head = n + 1 := ⟨_, (Nat.succ_pred (by omega)).symm⟩
    have hrest : n + 1 - c.utf8Size = byteSize head := by omega
    rw [byteSize_cons, hn, List.cons_append, splitAtByte?, if_pos (by omega), hrest, ih]
    rfl

theorem eq_append_of_splitAtByte? {n : Nat} {text head rest : List Char}
    (h : splitAtByte? n text = some (head, rest)) : text = head ++ rest ∧ byteSize head = n := by
  induction text generalizing n head with
  | nil =>
    cases n with
    | zero => simp_all [splitAtByte?]
    | succ n => simp [splitAtByte?] at h
  | cons c text ih =>
    cases n with
    | zero => simp_all [splitAtByte?]
    | succ n =>
      rw [splitAtByte?] at h
      split at h
      · obtain ⟨⟨before, after⟩, hcut, heq⟩ := Option.map_eq_some_iff.1 h
        obtain ⟨rfl, rfl⟩ : c :: before = head ∧ after = rest := Prod.mk.inj heq
        obtain ⟨rfl, hsize⟩ := ih hcut
        refine ⟨rfl, ?_⟩
        rw [byteSize_cons, hsize]
        omega
      · cases h

def slice? (start stop : Nat) (text : List Char) : Option (List Char) :=
  if start ≤ stop then do
    let (_, rest) ← splitAtByte? start text
    let (part, _) ← splitAtByte? (stop - start) rest
    return part
  else none

theorem slice?_byteSize (head part rest : List Char) :
    slice? (byteSize head) (byteSize (head ++ part)) (head ++ part ++ rest) = some part := by
  have hsize : byteSize (head ++ part) - byteSize head = byteSize part := by simp
  rw [slice?, if_pos (by simp), List.append_assoc, splitAtByte?_byteSize, hsize]
  simp [splitAtByte?_byteSize]

end Text
end Reckon
