import ThreeAddress.Text.Basic

/-! The MD5 digest of a text. -/

namespace ThreeAddress.Md5

/-- The four chaining words. -/
structure State where
  a : UInt32
  b : UInt32
  c : UInt32
  d : UInt32
deriving DecidableEq, Repr

/-- The chaining words before the first block. -/
def initial : State := ⟨0x67452301, 0xEFCDAB89, 0x98BADCFE, 0x10325476⟩

/-- The shift of each step, four steps per round in turn. -/
private def shifts : Array UInt32 := #[
  7, 12, 17, 22, 5, 9, 14, 20, 4, 11, 16, 23, 6, 10, 15, 21]

/-- The constant of each step: the integer part of 2^32 times the absolute sine of its number. -/
private def sines : Array UInt32 := #[
  0xd76aa478, 0xe8c7b756, 0x242070db, 0xc1bdceee, 0xf57c0faf, 0x4787c62a, 0xa8304613, 0xfd469501,
  0x698098d8, 0x8b44f7af, 0xffff5bb1, 0x895cd7be, 0x6b901122, 0xfd987193, 0xa679438e, 0x49b40821,
  0xf61e2562, 0xc040b340, 0x265e5a51, 0xe9b6c7aa, 0xd62f105d, 0x02441453, 0xd8a1e681, 0xe7d3fbc8,
  0x21e1cde6, 0xc33707d6, 0xf4d50d87, 0x455a14ed, 0xa9e3e905, 0xfcefa3f8, 0x676f02d9, 0x8d2a4c8a,
  0xfffa3942, 0x8771f681, 0x6d9d6122, 0xfde5380c, 0xa4beea44, 0x4bdecfa9, 0xf6bb4b60, 0xbebfbc70,
  0x289b7ec6, 0xeaa127fa, 0xd4ef3085, 0x04881d05, 0xd9d4d039, 0xe6db99e5, 0x1fa27cf8, 0xc4ac5665,
  0xf4292244, 0x432aff97, 0xab9423a7, 0xfc93a039, 0x655b59c3, 0x8f0ccc92, 0xffeff47d, 0x85845dd1,
  0x6fa87e4f, 0xfe2ce6e0, 0xa3014314, 0x4e0811a1, 0xf7537e82, 0xbd3af235, 0x2ad7d2bb, 0xeb86d391]

private def turnLeft (word amount : UInt32) : UInt32 :=
  (word <<< amount) ||| (word >>> (32 - amount))

private def step (words : Array UInt32) (state : State) (number : Nat) : State :=
  let ⟨a, b, c, d⟩ := state
  -- The four rounds differ in how they mix the words and in the order of the block's words.
  let (mixed, index) : UInt32 × Nat :=
    if number < 16 then ((b &&& c) ||| (~~~b &&& d), number)
    else if number < 32 then ((d &&& b) ||| (~~~d &&& c), (5 * number + 1) % 16)
    else if number < 48 then (b ^^^ c ^^^ d, (3 * number + 5) % 16)
    else (c ^^^ (b ||| ~~~d), 7 * number % 16)
  let sum := mixed + a + sines.getD number 0 + words.getD index 0
  ⟨d, b + turnLeft sum (shifts.getD (number / 16 * 4 + number % 4) 0), b, c⟩

/-- Takes one block of sixteen words into the chaining words. -/
private def absorb (state : State) (words : Array UInt32) : State :=
  let mixed := (List.range 64).foldl (step words) state
  ⟨state.a + mixed.a, state.b + mixed.b, state.c + mixed.c, state.d + mixed.d⟩

/-- The bytes of a number, least significant first. -/
private def littleEndian : Nat → Nat → Text
  | 0, _ => []
  | width + 1, number => (number % 256).toUInt8 :: littleEndian width (number / 256)

/-- The text with its end marked, filled up to whole blocks, and its length in bits behind. -/
private def padded (text : Text) : Text :=
  text ++ [0x80] ++ List.replicate ((119 - text.length % 64) % 64) 0 ++
    littleEndian 8 (8 * text.length)

/-- The words of a text, four bytes each with the least significant first. -/
private def wordsOf : Text → List UInt32
  | a :: b :: c :: d :: rest =>
    (a.toUInt32 ||| b.toUInt32 <<< 8 ||| c.toUInt32 <<< 16 ||| d.toUInt32 <<< 24) :: wordsOf rest
  | _ => []

private def blocksOf : Nat → List UInt32 → List (Array UInt32)
  | 0, _ => []
  | budget + 1, words =>
    if words.isEmpty then []
    else (words.take 16).toArray :: blocksOf budget (words.drop 16)

def digest (text : Text) : Text :=
  let words := wordsOf (padded text)
  let final := (blocksOf words.length words).foldl absorb initial
  [final.a, final.b, final.c, final.d].flatMap fun word => littleEndian 4 word.toNat

/-- The digest in lower-case hexadecimal digits. -/
def hex (text : Text) : Text :=
  (digest text).flatMap fun byte => Text.ofHex 2 byte.toNat

end ThreeAddress.Md5
